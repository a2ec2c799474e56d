import Soundworks.Proofs.Queue.Operations
/-!
A queue that is watched: which jobs it has let start, which have begun, and which are over, where
a job may also be broken off and leave no result. Every event keeps the jobs in the order of
their submission, and every job that is over keeps the outcome that its end gave it.
-/

namespace Soundworks

namespace Queue

variable {α : Type}

/-! ### The end of a job, with or without a result -/

/-- The queue once a job has left its place: it is settled if it has a result. -/
def leave (q : Queue α) (t : Nat) (r : Option α) : Queue α :=
  (r.elim q fun a => q.settle t (.ended a)).vacate

theorem finish_eq_leave (q : Queue α) (t : Nat) (r : Option α) :
    q.finish t r = (q.leave t r).drain := rfl

@[simp] theorem leave_pending (q : Queue α) (t : Nat) (r : Option α) :
    (q.leave t r).pending = q.pending := by
  cases r with
  | none => rfl
  | some a => exact settle_pending q t _

@[simp] theorem leave_nextTicket (q : Queue α) (t : Nat) (r : Option α) :
    (q.leave t r).nextTicket = q.nextTicket := by
  cases r with
  | none => rfl
  | some a => exact settle_nextTicket q t _

@[simp] theorem leave_limit (q : Queue α) (t : Nat) (r : Option α) :
    (q.leave t r).limit = q.limit := by
  cases r with
  | none => rfl
  | some a => exact settle_limit q t _

@[simp] theorem leave_paused (q : Queue α) (t : Nat) (r : Option α) :
    (q.leave t r).paused = q.paused := by
  cases r with
  | none => rfl
  | some a => exact settle_paused q t _

@[simp] theorem leave_active (q : Queue α) (t : Nat) (r : Option α) :
    (q.leave t r).active = q.active - 1 := by
  cases r with
  | none => rfl
  | some a =>
      show (q.settle t (.ended a)).active - 1 = _
      rw [settle_active]

theorem leave_outcome? (q : Queue α) (t : Nat) (r : Option α) (s : Nat) :
    (q.leave t r).outcome? s =
      if s = t ∧ t < q.nextTicket ∧ q.outcome? t = none then r.map .ended
      else q.outcome? s := by
  cases r with
  | none =>
      show q.outcome? s = _
      split
      · rename_i hc
        rw [hc.1, hc.2.2]
        rfl
      · rfl
  | some a => exact outcome?_settle q t (.ended a) s

/-! ### Events -/

/-- What happens to a queue. A job is over with its result, or without one if it was broken
off. -/
inductive Happening (α : Type) where
  | submit
  | pause
  | resume
  | clear
  | cancel (ticket : Nat)
  | begin (ticket : Nat)
  | finish (ticket : Nat) (result : Option α)

/-- A queue with the jobs that were taken to run, those that have begun, and those that are
over. -/
structure Watch (α : Type) where
  queue : Queue α
  taken : List Nat := []
  begun : List Nat := []
  finished : List (Nat × Option α) := []

namespace Watch

def gone (w : Watch α) : List Nat := w.finished.map Prod.fst

def running (w : Watch α) : List Nat := w.taken.filter fun t => t ∉ w.gone

def starting (w : Watch α) (s : Queue α × List Nat) : Watch α :=
  { w with queue := s.1, taken := w.taken ++ s.2 }

def apply (w : Watch α) : Happening α → Watch α
  | .submit => w.starting w.queue.submit
  | .pause => { w with queue := w.queue.pause }
  | .resume => w.starting w.queue.resume
  | .clear => { w with queue := w.queue.clear.1 }
  | .cancel t => { w with queue := w.queue.cancel t }
  | .begin t => { w with begun := w.begun ++ [t] }
  | .finish t r => starting { w with finished := w.finished ++ [(t, r)] } (w.queue.finish t r)

/-- What can happen: a job that was submitted is cancelled, one that was taken begins, and one
that has begun comes to its end. -/
def Allows (w : Watch α) : Happening α → Prop
  | .cancel t => t < w.queue.nextTicket
  | .begin t => t ∈ w.taken ∧ t ∉ w.begun
  | .finish t _ => t ∈ w.begun ∧ t ∉ w.gone
  | _ => True

instance (w : Watch α) (e : Happening α) : Decidable (w.Allows e) :=
  match e with
  | .cancel t => inferInstanceAs (Decidable (t < w.queue.nextTicket))
  | .begin t => inferInstanceAs (Decidable (t ∈ w.taken ∧ t ∉ w.begun))
  | .finish t _ => inferInstanceAs (Decidable (t ∈ w.begun ∧ t ∉ w.gone))
  | .submit | .pause | .resume | .clear => inferInstanceAs (Decidable True)

/-- A run of events, each of them allowed where it happens. -/
inductive Run (w : Watch α) : List (Happening α) → Watch α → Prop
  | nil : Run w [] w
  | snoc {es : List (Happening α)} {v : Watch α} {e : Happening α}
      (run : Run w es v) (h : v.Allows e) : Run w (es ++ [e]) (v.apply e)

/-- What a fresh queue with the given bound can come to. -/
def Reached (limit : Int) (w : Watch α) : Prop :=
  ∃ q es, Queue.ofLimit? limit = some q ∧ Run { queue := q } es w

/-! ### Applying events one after the other -/

/-- All events of a list are allowed, each where it happens. -/
def AllowsAll (w : Watch α) : List (Happening α) → Prop
  | [] => True
  | e :: es => w.Allows e ∧ (w.apply e).AllowsAll es

instance decidableAllowsAll (w : Watch α) :
    (es : List (Happening α)) → Decidable (w.AllowsAll es)
  | [] => inferInstanceAs (Decidable True)
  | e :: es =>
    have := decidableAllowsAll (w.apply e) es
    inferInstanceAs (Decidable (w.Allows e ∧ (w.apply e).AllowsAll es))

theorem Run.append {w v u : Watch α} {es fs : List (Happening α)} (run : Run w es v)
    (more : Run v fs u) : Run w (es ++ fs) u := by
  induction more with
  | nil => simpa using run
  | snoc _ h ih =>
      rw [← List.append_assoc]
      exact ih.snoc h

theorem run_of_allowsAll (w : Watch α) (es : List (Happening α)) (h : w.AllowsAll es) :
    Run w es (es.foldl apply w) := by
  induction es generalizing w with
  | nil => exact .nil
  | cons e es ih => exact (Run.nil.snoc h.1).append (ih _ h.2)

theorem Reached.append {limit : Int} {w v : Watch α} {es : List (Happening α)}
    (h : Reached limit w) (run : Run w es v) : Reached limit v := by
  obtain ⟨q, fs, hq, start⟩ := h
  exact ⟨q, fs ++ es, hq, start.append run⟩

/-! ### What events preserve -/

/-- The jobs that run are those counted as active, jobs are taken in the order of their tickets,
and a job has no other outcome than its own or a cancellation until a clearing meets it. -/
structure Kept (w : Watch α) : Prop where
  manned : w.queue.Manned w.running
  ordered : (w.taken ++ w.queue.pending).Pairwise (· < ·)
  known : ∀ t ∈ w.taken ++ w.queue.pending, t < w.queue.nextTicket
  begun_taken : ∀ t ∈ w.begun, t ∈ w.taken
  begun_nodup : w.begun.Nodup
  gone_begun : ∀ t ∈ w.gone, t ∈ w.begun
  gone_nodup : w.gone.Nodup
  finished_outcome : ∀ t r, (t, r) ∈ w.finished →
    w.queue.outcome? t = r.map .ended ∨ w.queue.outcome? t = some .cancelled
  open_outcome : ∀ t ∈ w.taken ++ w.queue.pending, t ∉ w.gone →
    w.queue.outcome? t = none ∨ w.queue.outcome? t = some .cancelled

/-- The same, and no job waits while there is room for it. -/
structure Sound (w : Watch α) : Prop extends Kept w where
  idle : w.queue.isOpen = true → w.queue.pending = []

theorem mem_gone {w : Watch α} {t : Nat} : t ∈ w.gone ↔ ∃ r, (t, r) ∈ w.finished := by
  simp [gone]

theorem mem_running {w : Watch α} {t : Nat} :
    t ∈ w.running ↔ t ∈ w.taken ∧ t ∉ w.gone := by
  simp [running]

namespace Kept

variable {w : Watch α}

theorem taken_nodup (h : w.Kept) : w.taken.Nodup :=
  (h.ordered.imp Nat.ne_of_lt).sublist (List.sublist_append_left _ _)

theorem pending_ordered (h : w.Kept) : w.queue.pending.Pairwise (· < ·) :=
  h.ordered.sublist (List.sublist_append_right _ _)

theorem not_taken_of_pending (h : w.Kept) {t : Nat} (ht : t ∈ w.queue.pending) :
    t ∉ w.taken := by
  intro ht'
  exact Nat.lt_irrefl t ((List.pairwise_append.mp h.ordered).2.2 t ht' t ht)

theorem not_gone_of_pending (h : w.Kept) {t : Nat} (ht : t ∈ w.queue.pending) :
    t ∉ w.gone :=
  fun hg => h.not_taken_of_pending ht (h.begun_taken t (h.gone_begun t hg))

end Kept

/-! ### Draining -/

/-- Takes waiting jobs as long as the queue is open. -/
def drained (w : Watch α) : Watch α := w.starting w.queue.drain

theorem Kept.drained {w : Watch α} (h : w.Kept) : w.drained.Sound := by
  obtain ⟨front, rest, hd⟩ := w.queue.exists_drains w.queue.pending
  have hserved := h.manned.drain
  rw [drain_eq hd] at hserved
  have heq : w.drained = { w with
      queue := w.queue.advance front rest
      taken := w.taken ++ w.queue.unsettledIn front } := by
    simp only [Watch.drained, starting, drain_eq hd]
  have hsub : (w.taken ++ w.queue.unsettledIn front ++ rest).Sublist
      (w.taken ++ w.queue.pending) := by
    rw [hd.split, List.append_assoc]
    exact (List.filter_sublist.append_right rest).append_left w.taken
  have hfresh : ∀ t ∈ w.queue.unsettledIn front, t ∉ w.gone := fun t ht =>
    h.not_gone_of_pending (by
      rw [hd.split]
      exact List.mem_append_left _ (mem_unsettledIn.mp ht).1)
  have hrunning : (w.taken ++ w.queue.unsettledIn front).filter (fun t => t ∉ w.gone) =
      w.running ++ w.queue.unsettledIn front := by
    rw [List.filter_append, running]
    congr 1
    exact List.filter_eq_self.mpr fun t ht => by simpa using hfresh t ht
  rw [heq]
  exact { h with
    manned := by
      change (w.queue.advance front rest).Manned
        ((w.taken ++ w.queue.unsettledIn front).filter fun t => t ∉ w.gone)
      rw [hrunning]
      exact hserved.toManned
    ordered := h.ordered.sublist hsub
    known := fun t ht => h.known t (hsub.subset ht)
    begun_taken := fun t ht => List.mem_append_left _ (h.begun_taken t ht)
    open_outcome := fun t ht => h.open_outcome t (hsub.subset ht)
    idle := hserved.idle }

/-! ### Every event keeps the order and the outcomes -/

theorem Kept.enlist {w : Watch α} (h : w.Kept) : Kept { w with queue := w.queue.enlist } :=
  have hpending : w.taken ++ w.queue.enlist.pending =
      w.taken ++ w.queue.pending ++ [w.queue.nextTicket] := by
    simp [Queue.enlist]
  { h with
    manned := h.manned.enlist
    ordered := by
      show (w.taken ++ w.queue.enlist.pending).Pairwise (· < ·)
      rw [hpending]
      refine List.pairwise_append.mpr ⟨h.ordered, List.pairwise_singleton _ _, ?_⟩
      intro t ht s hs
      rw [List.mem_singleton.mp hs]
      exact h.known t ht
    known := by
      intro t ht
      change t ∈ w.taken ++ w.queue.enlist.pending at ht
      rw [hpending, List.mem_append, List.mem_singleton] at ht
      rw [enlist_nextTicket]
      rcases ht with ht | rfl
      · exact Nat.lt_succ_of_lt (h.known t ht)
      · exact Nat.lt_succ_self _
    finished_outcome := by simpa using h.finished_outcome
    open_outcome := by
      intro t ht hg
      change t ∈ w.taken ++ w.queue.enlist.pending at ht
      rw [hpending, List.mem_append, List.mem_singleton] at ht
      rw [enlist_outcome?]
      rcases ht with ht | rfl
      · exact h.open_outcome t ht hg
      · exact .inl (outcome?_eq_none_of_le (Nat.le_refl _)) }

theorem Kept.unpause {w : Watch α} (h : w.Kept) : Kept { w with queue := w.queue.unpause } :=
  { h with manned := h.manned.unpause }

theorem Kept.manned_leave {w : Watch α} (h : w.Kept) {t : Nat} (ht : t ∈ w.running)
    (r : Option α) : (w.queue.leave t r).Manned (w.running.erase t) := by
  cases r with
  | none => exact h.manned.vacate ht
  | some a => exact (h.manned.settle t _).vacate ht

/-- The end of a job frees its place and settles it, if it has a result and is not settled. -/
def leaving (w : Watch α) (t : Nat) (r : Option α) : Watch α :=
  { w with queue := w.queue.leave t r, finished := w.finished ++ [(t, r)] }

theorem apply_finish (w : Watch α) (t : Nat) (r : Option α) :
    w.apply (.finish t r) = (w.leaving t r).drained := rfl

theorem gone_leaving (w : Watch α) (t : Nat) (r : Option α) :
    (w.leaving t r).gone = w.gone ++ [t] := by
  simp [gone, leaving]

theorem Kept.running_leaving {w : Watch α} (h : w.Kept) (t : Nat) (r : Option α) :
    (w.leaving t r).running = w.running.erase t := by
  have hn : w.running.Nodup := h.taken_nodup.filter _
  rw [hn.erase_eq_filter, running, running, gone_leaving, List.filter_filter]
  apply List.filter_congr
  intro s _
  by_cases hst : s = t <;> simp [hst]

theorem Kept.leaving {w : Watch α} (h : w.Kept) {t : Nat} (hb : t ∈ w.begun)
    (hg : t ∉ w.gone) (r : Option α) : (w.leaving t r).Kept := by
  have htaken := h.begun_taken t hb
  have hknown := h.known t (List.mem_append_left _ htaken)
  exact { h with
    manned := by
      rw [h.running_leaving]
      exact h.manned_leave (mem_running.mpr ⟨htaken, hg⟩) r
    ordered := by
      show (w.taken ++ (w.queue.leave t r).pending).Pairwise (· < ·)
      rw [leave_pending]
      exact h.ordered
    known := by
      show ∀ s ∈ w.taken ++ (w.queue.leave t r).pending, s < (w.queue.leave t r).nextTicket
      rw [leave_pending, leave_nextTicket]
      exact h.known
    gone_begun := by
      intro s hs
      rw [gone_leaving, List.mem_append, List.mem_singleton] at hs
      rcases hs with hs | rfl
      · exact h.gone_begun s hs
      · exact hb
    gone_nodup := by
      rw [gone_leaving]
      exact List.nodup_append_comm.mp (List.nodup_cons.mpr ⟨hg, h.gone_nodup⟩)
    finished_outcome := by
      intro s r' hs
      show (w.queue.leave t r).outcome? s = _ ∨ (w.queue.leave t r).outcome? s = _
      rw [leave_outcome?]
      rcases List.mem_append.mp hs with hs | hs
      -- who was over before is another job
      · have hne : s ≠ t := fun heq => hg (mem_gone.mpr ⟨r', heq ▸ hs⟩)
        simpa [hne] using h.finished_outcome s r' hs
      · obtain ⟨rfl, rfl⟩ : s = t ∧ r' = r := by simpa using hs
        rcases h.open_outcome s (List.mem_append_left _ htaken) hg with ho | ho
        · exact .inl (by simp [ho, hknown])
        · exact .inr (by simp [ho])
    open_outcome := by
      intro s hs hsg
      change s ∈ w.taken ++ (w.queue.leave t r).pending at hs
      rw [leave_pending] at hs
      rw [gone_leaving, List.mem_append, List.mem_singleton, not_or] at hsg
      show (w.queue.leave t r).outcome? s = _ ∨ (w.queue.leave t r).outcome? s = _
      rw [leave_outcome?]
      simpa [hsg.2] using h.open_outcome s hs hsg.1 }

theorem Sound.clear {w : Watch α} (h : w.Sound) : (w.apply .clear).Sound := by
  have hserved : w.queue.Served w.running := ⟨h.manned, h.idle⟩
  have hfree : ∀ t ∈ w.taken, w.queue.clear.1.outcome? t = w.queue.outcome? t := by
    intro t ht
    rw [clear_outcome?, if_neg]
    exact fun hc => h.not_taken_of_pending hc.1 ht
  exact { h with
    manned := hserved.clear.toManned
    ordered := by
      show (w.taken ++ []).Pairwise (· < ·)
      rw [List.append_nil]
      exact (List.pairwise_append.mp h.ordered).1
    known := by
      intro t ht
      change t ∈ w.taken ++ [] at ht
      show t < w.queue.clear.1.nextTicket
      rw [List.append_nil] at ht
      rw [clear_nextTicket]
      exact h.known t (List.mem_append_left _ ht)
    finished_outcome := by
      intro t r ht
      have htaken := h.begun_taken t (h.gone_begun t (mem_gone.mpr ⟨r, ht⟩))
      show w.queue.clear.1.outcome? t = _ ∨ w.queue.clear.1.outcome? t = _
      rw [hfree t htaken]
      exact h.finished_outcome t r ht
    open_outcome := by
      intro t ht hg
      change t ∈ w.taken ++ [] at ht
      rw [List.append_nil] at ht
      show w.queue.clear.1.outcome? t = _ ∨ w.queue.clear.1.outcome? t = _
      rw [hfree t ht]
      exact h.open_outcome t (List.mem_append_left _ ht) hg
    idle := fun _ => rfl }

theorem Sound.cancel {w : Watch α} (h : w.Sound) (t : Nat) : (w.apply (.cancel t)).Sound := by
  have hserved : w.queue.Served w.running := ⟨h.manned, h.idle⟩
  have hout : ∀ s, (w.queue.cancel t).outcome? s = w.queue.outcome? s ∨
      (w.queue.cancel t).outcome? s = some .cancelled := by
    intro s
    rw [Queue.cancel, outcome?_settle]
    split
    · exact .inr rfl
    · exact .inl rfl
  exact { h with
    manned := (hserved.cancel t).toManned
    ordered := by
      show (w.taken ++ (w.queue.cancel t).pending).Pairwise (· < ·)
      rw [cancel_pending]
      exact h.ordered
    known := by
      show ∀ s ∈ w.taken ++ (w.queue.cancel t).pending, s < (w.queue.cancel t).nextTicket
      rw [cancel_pending, cancel_nextTicket]
      exact h.known
    finished_outcome := by
      intro s r hs
      show (w.queue.cancel t).outcome? s = _ ∨ (w.queue.cancel t).outcome? s = _
      rcases hout s with ho | ho
      · rw [ho]
        exact h.finished_outcome s r hs
      · exact .inr ho
    open_outcome := by
      intro s hs hg
      change s ∈ w.taken ++ (w.queue.cancel t).pending at hs
      rw [cancel_pending] at hs
      show (w.queue.cancel t).outcome? s = _ ∨ (w.queue.cancel t).outcome? s = _
      rcases hout s with ho | ho
      · rw [ho]
        exact h.open_outcome s hs hg
      · exact .inr ho
    idle := (hserved.cancel t).idle }

/-- Every event that is allowed keeps the order and the outcomes, and leaves no job waiting in
vain. -/
theorem Sound.apply {w : Watch α} (h : w.Sound) {e : Happening α} (he : w.Allows e) :
    (w.apply e).Sound := by
  cases e with
  | submit => exact h.enlist.drained
  | pause =>
      have hserved : w.queue.pause.Served w.running := Served.pause ⟨h.manned, h.idle⟩
      exact { h with manned := hserved.toManned, idle := hserved.idle }
  | resume => exact h.unpause.drained
  | clear => exact h.clear
  | cancel t => exact h.cancel t
  | begin t =>
      exact { h with
        begun_taken := by
          intro s hs
          rcases List.mem_append.mp hs with hs | hs
          · exact h.begun_taken s hs
          · rw [List.mem_singleton.mp hs]
            exact he.1
        begun_nodup := List.nodup_append_comm.mp (List.nodup_cons.mpr ⟨he.2, h.begun_nodup⟩)
        gone_begun := fun s hs => List.mem_append_left _ (h.gone_begun s hs) }
  | finish t r =>
      rw [apply_finish]
      exact (h.leaving he.1 he.2 r).drained

theorem sound_fresh {limit : Int} {q : Queue α} (h : Queue.ofLimit? limit = some q) :
    Sound { queue := q : Watch α } := by
  unfold ofLimit? at h
  split at h
  · cases h
    exact {
      manned := ⟨Nat.zero_le _, rfl, by simp [running], by simp [running]⟩
      ordered := List.Pairwise.nil
      known := by simp
      begun_taken := by simp
      begun_nodup := List.nodup_nil
      gone_begun := by simp [gone]
      gone_nodup := List.nodup_nil
      finished_outcome := by simp
      open_outcome := by simp
      idle := fun _ => rfl }
  · cases h

/-- A run keeps what every allowed event keeps. -/
theorem Run.sound {w v : Watch α} {es : List (Happening α)} (run : Run w es v) (h : w.Sound) :
    v.Sound := by
  induction run with
  | nil => exact h
  | snoc _ he ih => exact ih.apply he

theorem Reached.sound {limit : Int} {w : Watch α} (h : Reached limit w) : w.Sound := by
  obtain ⟨q, es, hq, run⟩ := h
  exact run.sound (sound_fresh hq)

/-! ### What never changes back -/

@[simp] theorem apply_limit (w : Watch α) (e : Happening α) :
    (w.apply e).queue.limit = w.queue.limit := by
  cases e with
  | submit => exact drain_limit _
  | pause => rfl
  | resume => exact drain_limit _
  | clear => exact clear_limit _
  | cancel t => exact settle_limit _ _ _
  | begin t => rfl
  | finish t r =>
      show (w.queue.finish t r).1.limit = _
      rw [finish_eq_leave, drain_limit, leave_limit]

theorem Reached.limit_eq {limit : Int} {w : Watch α} (h : Reached limit w) :
    (w.queue.limit : Int) = limit := by
  obtain ⟨q, es, hq, run⟩ := h
  induction run with
  | nil => exact limit_of_ofLimit? hq
  | snoc _ _ ih => rw [apply_limit, ih]

/-- A job that has an outcome keeps it. -/
theorem outcome?_apply_of_some {w : Watch α} {e : Happening α} {t : Nat} {o : Outcome α}
    (h : w.queue.outcome? t = some o) : (w.apply e).queue.outcome? t = some o := by
  cases e with
  | submit =>
      show w.queue.enlist.drain.1.outcome? t = _
      rw [drain_outcome?, enlist_outcome?, h]
  | pause => exact h
  | resume =>
      show w.queue.unpause.drain.1.outcome? t = _
      rw [drain_outcome?]
      exact h
  | clear =>
      show w.queue.clear.1.outcome? t = _
      rw [clear_outcome?, if_neg (by simp [h]), h]
  | cancel s => exact outcome?_settle_of_some h
  | begin s => exact h
  | finish s r =>
      show (w.queue.finish s r).1.outcome? t = _
      rw [finish_eq_leave, drain_outcome?, leave_outcome?, if_neg, h]
      rintro ⟨rfl, -, hn⟩
      simp [h] at hn

end Watch

end Queue

end Soundworks
