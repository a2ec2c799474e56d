import Soundworks.Proofs.Queue.Course
/-!
What can be said of a queue after any course of events: it never runs more jobs than it may, it
leaves no place empty while a job waits, every job is at exactly one stage, and every job is
settled once and with an outcome of its own.
-/

namespace Soundworks

namespace Queue

namespace Course

variable {ε β : Type}

theorem apply_limit (c : Course ε β) (e : Event ε β) :
    (c.apply e).queue.limit = c.queue.limit := by
  cases e with
  | submit => exact drain_limit c.queue.enlist
  | pause => rfl
  | resume => exact drain_limit c.queue.unpause
  | clear => exact clear_limit c.queue
  | cancel t =>
      show (c.cancelling t).queue.limit = _
      unfold cancelling
      split
      · rfl
      · exact settle_limit c.queue t _
  | begin t => rfl
  | returned t b => exact (drain_limit _).trans (settle_limit c.queue t _)
  | raised t x => exact (drain_limit _).trans (settle_limit c.queue t _)

theorem Reached.limit_eq {allows : Course ε β → Event ε β → Prop} {limit : Int}
    {c : Course ε β} (h : Reached allows limit c) : (c.queue.limit : Int) = limit := by
  obtain ⟨q, es, hq, run⟩ := h
  induction run with
  | nil => exact limit_of_ofLimit? hq
  | snoc _ _ ih => rw [apply_limit, ih]

/-- A queue never runs more jobs than it may, counts as active the ones that were taken and are
not over, and lets no job wait while a place is free. -/
theorem active_of_reached {limit : Int} {c : Course ε β} (h : Reached Allows limit c) :
    0 ≤ (c.queue.active : Int) ∧ (c.queue.active : Int) ≤ limit ∧
      c.queue.active = c.running.length ∧
      (c.queue.paused = false → (c.queue.active : Int) < limit → c.queue.pending = []) ∧
      (c.queue.paused = false → c.queue.pending ≠ [] → (c.running.length : Int) = limit) := by
  have hs := h.sound
  have hlimit := h.limit_eq
  have hbounded := hs.manned.bounded
  have hactive := hs.manned.active_eq
  have hidle : c.queue.paused = false → (c.queue.active : Int) < limit →
      c.queue.pending = [] := by
    intro hp hlt
    exact hs.idle (isOpen_iff.mpr ⟨hp, by omega⟩)
  refine ⟨by omega, by omega, hactive, hidle, ?_⟩
  intro hp hwaiting
  have hfull : ¬(c.queue.active : Int) < limit := fun hlt => hwaiting (hidle hp hlt)
  omega

/-- With room for one job, the second of two that were submitted waits, and the first one runs. -/
theorem active_of_two_submitted :
    ∃ c : Course String Nat, Reached Allows 1 c ∧ c.queue.paused = false ∧
      c.queue.pending = [1] ∧ (c.running.length : Int) = 1 := by
  have h : Reached Allows 1 (_ : Course String Nat) :=
    ⟨_, [.submit, .submit], rfl, (Run.nil.snoc trivial).snoc trivial⟩
  exact ⟨_, h, rfl, rfl, (active_of_reached h).2.2.2.2 rfl (by decide)⟩

/-! ### The stages of a job -/

/-- Where a job can be. -/
inductive Stage where
  | waiting
  | running
  | ended
  | dropped
  | withdrawn

def members (c : Course ε β) : Stage → List Nat
  | .waiting => c.queue.pending
  | .running => c.running
  | .ended => c.ended
  | .dropped => c.dropped
  | .withdrawn => c.withdrawn

/-- The stages of one job shut each other out. -/
theorem Kept.stage_unique {c : Course ε β} (h : c.Kept) {t : Nat} {s s' : Stage}
    (hs : t ∈ c.members s) (hs' : t ∈ c.members s') : s = s' := by
  obtain ⟨htaken, hpending, hdropped⟩ := h.places_disjoint t
  have hrunning : t ∈ c.running → t ∈ c.taken ∧ t ∉ c.ended := mem_running.mp
  have hended : t ∈ c.ended → t ∈ c.taken := fun he => h.begun_taken t (h.ended_begun t he)
  cases s <;> cases s' <;> simp only [members] at hs hs' <;> grind

theorem Kept.exists_stage {c : Course ε β} (h : c.Kept) {t : Nat}
    (ht : t < c.queue.nextTicket) : ∃ s, t ∈ c.members s := by
  rcases h.mem_places.mp ht with ((ht | ht) | ht) | ht
  · by_cases he : t ∈ c.ended
    · exact ⟨.ended, he⟩
    · exact ⟨.running, mem_running.mpr ⟨ht, he⟩⟩
  · exact ⟨.waiting, ht⟩
  · exact ⟨.dropped, ht⟩
  · exact ⟨.withdrawn, ht⟩

theorem Kept.taken_perm {c : Course ε β} (h : c.Kept) :
    (c.running ++ c.ended).Perm c.taken := by
  have hdisj : ∀ t ∈ c.running, ∀ u ∈ c.ended, t ≠ u := by
    rintro t ht u hu rfl
    exact (mem_running.mp ht).2 hu
  have hnodup : (c.running ++ c.ended).Nodup :=
    List.nodup_append.mpr ⟨h.taken_nodup.filter _, h.ended_nodup, hdisj⟩
  refine (List.perm_ext_iff_of_nodup hnodup h.taken_nodup).mpr fun t => ?_
  have hended : t ∈ c.ended → t ∈ c.taken := fun he => h.begun_taken t (h.ended_begun t he)
  rw [List.mem_append, mem_running]
  by_cases he : t ∈ c.ended
  · simp [he, hended he]
  · simp [he]

/-- The stages together hold every job that was submitted, each of them once. -/
theorem Kept.stages_perm {c : Course ε β} (h : c.Kept) :
    (c.queue.pending ++ c.running ++ c.ended ++ c.dropped ++ c.withdrawn).Perm
      (List.range c.queue.nextTicket) := by
  have hplaced := h.placed
  have htaken := h.taken_perm
  rw [List.perm_iff_count] at hplaced htaken ⊢
  intro t
  have h1 := hplaced t
  have h2 := htaken t
  simp only [List.count_append] at h1 h2 ⊢
  omega

/-- An outcome that is there is never replaced. -/
theorem outcome?_apply_of_some {c : Course ε β} (e : Event ε β) {t : Nat}
    {o : Outcome (Except ε β)} (h : c.queue.outcome? t = some o) :
    (c.apply e).queue.outcome? t = some o := by
  cases e with
  | submit => exact (drain_outcome? _ t).trans ((enlist_outcome? _ t).trans h)
  | pause => exact h
  | resume => exact (drain_outcome? _ t).trans h
  | clear =>
      show c.queue.clear.1.outcome? t = some o
      simp [clear_outcome?, h]
  | cancel s =>
      show (c.cancelling s).queue.outcome? t = some o
      unfold cancelling
      split
      · exact h
      · exact outcome?_settle_of_some h
  | begin s => exact h
  | returned s b => exact (drain_outcome? _ t).trans (outcome?_settle_of_some h)
  | raised s x => exact (drain_outcome? _ t).trans (outcome?_settle_of_some h)

/-- A job that is over keeps how it ended as its outcome, unless it had been cancelled. -/
theorem Kept.outcome?_of_endings {c : Course ε β} (h : c.Kept) {t : Nat} {r : Except ε β}
    (hr : (t, r) ∈ c.endings) :
    c.queue.outcome? t = some (.ended r) ∨ t ∈ c.cancelled := by
  have he : t ∈ c.ended := mem_ended.mpr ⟨r, hr⟩
  have htaken := h.begun_taken t (h.ended_begun t he)
  obtain ⟨o, ho⟩ := isSettled_iff.mp (h.ended_settled t he)
  cases o with
  | ended r' =>
      have hr' := h.endings_of_ended t r' ho
      have hpair := List.inj_on_of_nodup_map h.ended_nodup hr hr' rfl
      obtain rfl : r = r' := congrArg Prod.snd hpair
      exact .inl ho
  | discarded =>
      exact absurd ((h.discarded_iff t).mp ho) ((h.places_disjoint t).1 htaken).2.1
  | cancelled => exact .inr ((h.cancelled_iff t).mp ho)

/-- A queue that is not paused and runs no job has settled every job. -/
theorem Sound.settled_of_idle {c : Course ε β} (h : c.Sound) (hp : c.queue.paused = false)
    (ha : c.queue.active = 0) {t : Nat} (ht : t < c.queue.nextTicket) :
    c.queue.isSettled t = true := by
  have hwaiting := h.idle (isOpen_iff.mpr ⟨hp, by have := c.queue.limit_pos; omega⟩)
  have hrunning : c.running = [] := by
    rw [← List.length_eq_zero_iff, ← h.manned.active_eq, ha]
  obtain ⟨s, hs⟩ := h.exists_stage ht
  cases s with
  | waiting => simp [members, hwaiting] at hs
  | running => simp [members, hrunning] at hs
  | ended => exact h.ended_settled t hs
  | dropped => exact isSettled_iff.mpr ⟨_, (h.discarded_iff t).mpr hs⟩
  | withdrawn =>
      have hc := h.recalled_cancelled t (h.withdrawn_recalled t hs)
      exact isSettled_iff.mpr ⟨_, (h.cancelled_iff t).mpr hc⟩

/-- Every job is once at exactly one stage, and is withdrawn only if it was cancelled while it
waited. It is settled once: with how it ended, as discarded exactly if a clearing dropped it, or
because it was cancelled. Nothing is left unsettled when the queue is not paused and no job
runs. -/
theorem accounted_of_reached {limit : Int} {c : Course ε β} (h : Reached Allows limit c) :
    (c.queue.pending ++ c.running ++ c.ended ++ c.dropped ++ c.withdrawn).Perm
        (List.range c.queue.nextTicket) ∧
      (∀ t < c.queue.nextTicket, ∃! s, t ∈ c.members s) ∧
      (∀ t ∈ c.withdrawn, t ∈ c.recalled) ∧
      (∀ t r, c.queue.outcome? t = some (.ended r) → (t, r) ∈ c.endings) ∧
      (∀ t r, (t, r) ∈ c.endings →
        c.queue.outcome? t = some (.ended r) ∨ t ∈ c.cancelled) ∧
      (∀ t, c.queue.outcome? t = some .discarded ↔ t ∈ c.dropped) ∧
      (∀ t, c.queue.outcome? t = some .cancelled ↔ t ∈ c.cancelled) ∧
      (∀ e t o, c.queue.outcome? t = some o → (c.apply e).queue.outcome? t = some o) ∧
      (c.queue.paused = false → c.queue.active = 0 →
        ∀ t < c.queue.nextTicket, c.queue.isSettled t = true) := by
  have hs := h.sound
  refine ⟨hs.stages_perm, ?_, hs.withdrawn_recalled, hs.endings_of_ended, ?_, hs.discarded_iff,
    hs.cancelled_iff, fun e _ _ => outcome?_apply_of_some e, ?_⟩
  · intro t ht
    obtain ⟨s, hmem⟩ := hs.exists_stage ht
    exact ⟨s, hmem, fun s' hmem' => hs.stage_unique hmem' hmem⟩
  · exact fun t r => hs.outcome?_of_endings
  · exact fun hp ha t => hs.settled_of_idle hp ha

/-- One job ends, one is cancelled while it waits, and one is discarded by a clearing; then all
of them are settled. -/
theorem accounted_of_three_submitted :
    ∃ c : Course String Nat, Reached Allows 1 c ∧
      c.queue.outcome? 0 = some (.ended (.ok 7)) ∧ c.queue.outcome? 1 = some .cancelled ∧
      c.queue.outcome? 2 = some .discarded ∧
      ∀ t < 3, (∃! s, t ∈ c.members s) ∧ c.queue.isSettled t = true := by
  have h : Reached Allows 1 (_ : Course String Nat) :=
    ⟨_, [.submit, .submit, .submit, .begin 0, .cancel 1, .clear, .returned 0 7], rfl,
      ((((((Run.nil.snoc trivial).snoc trivial).snoc trivial).snoc
        (by decide)).snoc (by decide)).snoc trivial).snoc (by decide)⟩
  obtain ⟨-, hstage, -, -, -, -, -, -, hsettled⟩ := accounted_of_reached h
  exact ⟨_, h, rfl, rfl, rfl, fun t ht => ⟨hstage t ht, hsettled rfl rfl t ht⟩⟩

end Course

end Queue

end Soundworks
