import Mathlib.Data.List.Sort
import Soundworks.Proofs.Queue.Course
/-!
The order in which jobs begin. If the jobs that were taken begin in the order in which they were
taken, then the jobs begin in the order of their submission, whatever was cancelled or dropped in
between.
-/

namespace Soundworks

namespace Queue

namespace Course

variable {ε β : Type}

/-! ### Jobs begin in the order in which they are taken -/

theorem taken_grows (c : Course ε β) (e : Event ε β) :
    c.taken <+: (c.apply e).taken := by
  cases e with
  | submit => exact List.prefix_append _ _
  | pause => exact List.prefix_rfl
  | resume => exact List.prefix_append _ _
  | clear => exact List.prefix_rfl
  | cancel t =>
      show c.taken <+: (c.cancelling t).taken
      unfold cancelling
      split <;> exact List.prefix_rfl
  | begin t => exact List.prefix_rfl
  | returned t b => exact List.prefix_append _ _
  | raised t x => exact List.prefix_append _ _

theorem begun_front_apply {c : Course ε β} (hn : c.taken.Nodup) (h : c.begun <+: c.taken)
    {e : Event ε β} (he : c.AllowsInTurn e) : (c.apply e).begun <+: (c.apply e).taken := by
  cases e with
  | begin t =>
      obtain ⟨idle, hidle⟩ := h
      have hready : c.ready = idle := by
        rw [ready, ← hidle]
        rw [← hidle] at hn
        have hdisj := (List.nodup_append.mp hn).2.2
        have hfront : (c.begun.filter fun t => t ∉ c.begun) = [] :=
          List.filter_eq_nil_iff.mpr fun s hs => by simp [hs]
        have hback : (idle.filter fun t => t ∉ c.begun) = idle :=
          List.filter_eq_self.mpr fun s hs => by
            simpa using fun hb => hdisj s hb s hs rfl
        rw [List.filter_append, hfront, hback, List.nil_append]
      have hhead : idle.head? = some t := by rw [← hready]; exact he
      obtain ⟨rest, rfl⟩ := List.head?_eq_some_iff.mp hhead
      exact ⟨rest, by simpa [apply] using hidle⟩
  | cancel t =>
      show (c.cancelling t).begun <+: (c.cancelling t).taken
      unfold cancelling
      split <;> exact h
  | submit => exact h.trans (taken_grows c .submit)
  | pause => exact h
  | resume => exact h.trans (taken_grows c .resume)
  | clear => exact h
  | returned t b => exact h.trans (taken_grows c (.returned t b))
  | raised t x => exact h.trans (taken_grows c (.raised t x))

theorem Reached.begun_front {limit : Int} {c : Course ε β}
    (h : Reached AllowsInTurn limit c) : c.begun <+: c.taken := by
  obtain ⟨q, es, hq, run⟩ := h
  induction run with
  | nil => exact List.prefix_rfl
  | snoc run he ih =>
      have hs := run.sound (fun _ _ he => Allows.of_inTurn he) (sound_fresh hq)
      exact begun_front_apply hs.taken_nodup ih he

/-! ### Jobs are taken in the order of their submission -/

/-- An increasing list of tickets is part of the list of all tickets. -/
theorem sublist_range_of_pairwise {l : List Nat} {n : Nat} (h : l.Pairwise (· < ·))
    (hn : ∀ t ∈ l, t < n) : l.Sublist (List.range n) := by
  have hnodup : l.Nodup := h.imp Nat.ne_of_lt
  have hsub : l.Subperm (List.range n) :=
    List.subperm_of_subset hnodup fun t ht => List.mem_range.mpr (hn t ht)
  exact List.sublist_of_subperm_of_sortedLE hsub (h.imp Nat.le_of_lt).sortedLE
    (List.pairwise_lt_range.imp Nat.le_of_lt).sortedLE

theorem Kept.taken_sublist {c : Course ε β} (h : c.Kept) :
    c.taken.Sublist (List.range c.queue.nextTicket) :=
  sublist_range_of_pairwise (List.pairwise_append.mp h.ordered).1
    fun _ ht => h.mem_places.mpr (.inl (.inl (.inl ht)))

theorem dropped_cancelled_apply {c : Course ε β} {e : Event ε β}
    (h : (c.apply e).taken ≠ c.taken) :
    (c.apply e).dropped = c.dropped ∧ (c.apply e).cancelled = c.cancelled := by
  cases e with
  | clear => exact absurd rfl h
  | cancel t =>
      change (c.cancelling t).taken ≠ c.taken at h
      unfold cancelling at h
      split at h <;> exact absurd rfl h
  | _ => exact ⟨rfl, rfl⟩

/-- A job is taken only when every job submitted before it has been taken, dropped or
cancelled. -/
theorem Sound.taken_before {c : Course ε β} (h : c.Sound) {e : Event ε β} (he : c.Allows e)
    {before after : List Nat} {t : Nat} (ht : (c.apply e).taken = before ++ t :: after)
    (hnew : t ∉ c.taken) {u : Nat} (hu : u < t) :
    u ∈ before ∨ u ∈ c.dropped ∨ u ∈ c.cancelled := by
  have hd := h.apply he
  have htaken : t ∈ (c.apply e).taken := by simp [ht]
  have hchange : (c.apply e).taken ≠ c.taken := fun heq => hnew (heq ▸ htaken)
  obtain ⟨hdropped, hcancelled⟩ := dropped_cancelled_apply hchange
  obtain ⟨hsorted, -, hpending⟩ := List.pairwise_append.mp hd.ordered
  have hknown := hd.mem_places.mpr (.inl (.inl (.inl htaken)))
  rcases hd.mem_places.mp (Nat.lt_trans hu hknown) with ((hmem | hmem) | hmem) | hmem
  · rw [ht] at hmem hsorted
    obtain ⟨-, htail, -⟩ := List.pairwise_append.mp hsorted
    rcases List.mem_append.mp hmem with hmem | hmem
    · exact .inl hmem
    -- nobody is taken after a later job
    · rcases List.mem_cons.mp hmem with rfl | hmem
      · exact absurd hu (Nat.lt_irrefl _)
      · exact absurd (List.rel_of_pairwise_cons htail hmem) (Nat.not_lt_of_lt hu)
  -- nobody still waits before a job that was taken
  · exact absurd (hpending t htaken u hmem) (Nat.not_lt_of_lt hu)
  · exact .inr (.inl (hdropped ▸ hmem))
  · have hc := hd.recalled_cancelled u (hd.withdrawn_recalled u hmem)
    exact .inr (.inr (hcancelled ▸ hc))

/-- No job is taken twice, and the jobs that have begun are part of the submitted ones in the order
of their submission. None of them was dropped, or cancelled while it waited; and each was taken
only after every job submitted before it had been taken, dropped or cancelled. -/
theorem begun_in_order_of_submission {limit : Int} {c : Course ε β}
    (h : Reached AllowsInTurn limit c) :
    c.taken.Nodup ∧ c.begun.Nodup ∧ c.begun.Sublist (List.range c.queue.nextTicket) ∧
      (∀ t ∈ c.begun, t ∉ c.dropped ∧ t ∉ c.recalled) ∧
      ∀ e, c.AllowsInTurn e → ∀ before t after, (c.apply e).taken = before ++ t :: after →
        t ∉ c.taken → ∀ u < t, u ∈ before ∨ u ∈ c.dropped ∨ u ∈ c.cancelled := by
  have hs := h.sound_inTurn
  refine ⟨hs.taken_nodup, hs.begun_nodup, h.begun_front.sublist.trans hs.taken_sublist, ?_, ?_⟩
  · intro t ht
    have htaken := hs.begun_taken t ht
    exact ⟨((hs.places_disjoint t).1 htaken).2.1, fun hr => hs.recalled_not_taken t hr htaken⟩
  · intro e he before t after heq hnew u hu
    exact hs.taken_before (Allows.of_inTurn he) heq hnew hu

/-- A job that was cancelled while it waited is passed over: the job after it is taken as soon as
the one before it is over. -/
theorem begun_past_cancelled :
    ∃ c : Course String Nat, Reached AllowsInTurn 1 c ∧ c.begun = [0, 2] ∧
      c.begun.Sublist (List.range 3) ∧ c.withdrawn = [1] ∧ 1 ∉ c.begun := by
  have h : Reached AllowsInTurn 1 (_ : Course String Nat) :=
    ⟨_, [.submit, .submit, .submit, .begin 0, .cancel 1, .raised 0 "", .begin 2], rfl,
      ((((((Run.nil.snoc trivial).snoc trivial).snoc trivial).snoc
        (by decide)).snoc (by decide)).snoc (by decide)).snoc (by decide)⟩
  obtain ⟨-, -, hsub, -, -⟩ := begun_in_order_of_submission h
  exact ⟨_, h, rfl, hsub, rfl, by decide⟩

end Course

end Queue

end Soundworks
