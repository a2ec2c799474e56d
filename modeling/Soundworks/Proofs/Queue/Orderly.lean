import Soundworks.Proofs.Queue.Operations
/-!
Queues of which no job is cancelled from outside. Neither a job that runs nor one that waits is
settled then, so the end of a job always settles it, with its own result.
-/

namespace Soundworks

namespace Queue

variable {α : Type}

@[simp] theorem drain_nextTicket (q : Queue α) : q.drain.1.nextTicket = q.nextTicket := by
  obtain ⟨front, rest, hd⟩ := q.exists_drains q.pending
  rw [drain_eq hd, advance_nextTicket]

theorem Manned.perm {q : Queue α} {running running' : List Nat} (h : q.Manned running)
    (hp : running.Perm running') : q.Manned running' where
  bounded := h.bounded
  active_eq := h.active_eq.trans hp.length_eq
  nodup := (hp.append_right q.pending).nodup_iff.mp h.nodup
  known := fun t ht => h.known t ((hp.append_right q.pending).mem_iff.mpr ht)

/-- No job waits in vain, and no job that runs or waits is settled. -/
structure Orderly (q : Queue α) (running : List Nat) : Prop extends Served q running where
  undecided : ∀ t ∈ running ++ q.pending, q.outcome? t = none

theorem orderly_of_ofLimit? {limit : Int} {q : Queue α} (h : ofLimit? limit = some q) :
    q.Orderly [] := by
  unfold ofLimit? at h
  split at h
  · cases h
    exact {
      bounded := Nat.zero_le _
      active_eq := rfl
      nodup := List.nodup_nil
      known := fun t ht => absurd ht List.not_mem_nil
      idle := fun _ => rfl
      undecided := fun t ht => absurd ht List.not_mem_nil }
  · cases h

theorem nextTicket_of_ofLimit? {limit : Int} {q : Queue α} (h : ofLimit? limit = some q) :
    q.nextTicket = 0 := by
  unfold ofLimit? at h
  split at h
  · cases h
    rfl
  · cases h

namespace Orderly

variable {q : Queue α} {running running' : List Nat}

theorem perm (h : q.Orderly running) (hp : running.Perm running') : q.Orderly running' where
  toManned := h.toManned.perm hp
  idle := h.idle
  undecided := fun t ht => h.undecided t ((hp.append_right q.pending).mem_iff.mpr ht)

theorem lt_nextTicket (h : q.Orderly running) {t : Nat} (ht : t ∈ running) : t < q.nextTicket :=
  h.known t (List.mem_append_left _ ht)

theorem outcome?_eq_none (h : q.Orderly running) {t : Nat} (ht : t ∈ running) :
    q.outcome? t = none := h.undecided t (List.mem_append_left _ ht)

/-- Draining a queue without settled jobs makes it orderly. -/
theorem of_drain (h : q.Manned running) (hu : ∀ t ∈ running ++ q.pending, q.outcome? t = none) :
    q.drain.1.Orderly (running ++ q.drain.2) where
  toServed := h.drain
  undecided := by
    obtain ⟨front, rest, hd⟩ := q.exists_drains q.pending
    intro t ht
    rw [drain_outcome?]
    rw [drain_eq hd] at ht
    have hsub : (running ++ q.unsettledIn front ++ rest).Sublist (running ++ q.pending) := by
      rw [hd.split, List.append_assoc]
      exact (List.filter_sublist.append_right rest).append_left running
    exact hu t (hsub.subset ht)

theorem submit (h : q.Orderly running) : q.submit.1.Orderly (running ++ q.submit.2) := by
  rw [submit_eq]
  refine of_drain h.toManned.enlist fun t ht => ?_
  change t ∈ running ++ (q.pending ++ [q.nextTicket]) at ht
  rw [← List.append_assoc, List.mem_append, List.mem_singleton] at ht
  rw [enlist_outcome?]
  rcases ht with ht | rfl
  · exact h.undecided t ht
  · exact outcome?_eq_none_of_le (Nat.le_refl _)

theorem pause (h : q.Orderly running) : q.pause.Orderly running where
  toServed := h.toServed.pause
  undecided := h.undecided

theorem resume (h : q.Orderly running) : q.resume.1.Orderly (running ++ q.resume.2) :=
  of_drain h.toManned.unpause h.undecided

theorem clear (h : q.Orderly running) : q.clear.1.Orderly running where
  toServed := h.toServed.clear
  undecided := by
    intro t ht
    rw [clear_pending, List.append_nil] at ht
    have hfree : t ∉ q.pending :=
      fun hp => (List.nodup_append.mp h.nodup).2.2 t ht t hp rfl
    rw [clear_outcome?, if_neg fun hc => hfree hc.1]
    exact h.outcome?_eq_none ht

/-- The end of a job settles it and no other one. -/
theorem finish_outcome? (h : q.Orderly running) {t : Nat} (ht : t ∈ running) (a : α) (s : Nat) :
    (q.finish t (some a)).1.outcome? s = if s = t then some (.ended a) else q.outcome? s := by
  rw [finish_eq, drain_outcome?, vacate_outcome?, outcome?_settle]
  simp [h.lt_nextTicket ht, h.outcome?_eq_none ht]

theorem finish (h : q.Orderly running) {t : Nat} (ht : t ∈ running) (a : α) :
    (q.finish t (some a)).1.Orderly (running.erase t ++ (q.finish t (some a)).2) := by
  have hnodup := h.nodup
  rw [List.nodup_append] at hnodup
  obtain ⟨hrun, -, hdisj⟩ := hnodup
  rw [finish_eq]
  refine of_drain ((h.toManned.settle t (.ended a)).vacate ht) fun s hs => ?_
  change s ∈ running.erase t ++ (q.settle t (.ended a)).pending at hs
  rw [settle_pending, List.mem_append] at hs
  have hne : s ≠ t := by
    rintro rfl
    rcases hs with hs | hs
    · exact (hrun.mem_erase_iff.mp hs).1 rfl
    · exact hdisj s ht s hs rfl
  rw [vacate_outcome?, outcome?_settle_of_ne _ hne]
  refine h.undecided s (List.mem_append.mpr (hs.imp_left fun hs => ?_))
  exact (hrun.mem_erase_iff.mp hs).2

end Orderly

/-! ### Tickets and outcomes of the operations -/

@[simp] theorem submit_nextTicket (q : Queue α) : q.submit.1.nextTicket = q.nextTicket + 1 := by
  rw [submit_eq, drain_nextTicket, enlist_nextTicket]

@[simp] theorem submit_outcome? (q : Queue α) (t : Nat) :
    q.submit.1.outcome? t = q.outcome? t := by
  rw [submit_eq, drain_outcome?, enlist_outcome?]

@[simp] theorem submit_limit (q : Queue α) : q.submit.1.limit = q.limit := drain_limit _

theorem submitMany_succ (q : Queue α) (n : Nat) :
    q.submitMany (n + 1) =
      ((q.submit.1.submitMany n).1, q.submit.2 ++ (q.submit.1.submitMany n).2) := rfl

@[simp] theorem submitMany_nextTicket (q : Queue α) (n : Nat) :
    (q.submitMany n).1.nextTicket = q.nextTicket + n := by
  induction n generalizing q with
  | zero => rfl
  | succ n ih =>
      rw [submitMany_succ, ih, submit_nextTicket]
      omega

@[simp] theorem submitMany_outcome? (q : Queue α) (n t : Nat) :
    (q.submitMany n).1.outcome? t = q.outcome? t := by
  induction n generalizing q with
  | zero => rfl
  | succ n ih => rw [submitMany_succ, ih, submit_outcome?]

@[simp] theorem submitMany_limit (q : Queue α) (n : Nat) :
    (q.submitMany n).1.limit = q.limit := by
  induction n generalizing q with
  | zero => rfl
  | succ n ih => rw [submitMany_succ, ih, submit_limit]

theorem Orderly.submitMany {q : Queue α} {running : List Nat} (h : q.Orderly running) (n : Nat) :
    (q.submitMany n).1.Orderly (running ++ (q.submitMany n).2) := by
  induction n generalizing q running with
  | zero => simpa [Queue.submitMany] using h
  | succ n ih =>
      rw [submitMany_succ, ← List.append_assoc]
      exact ih h.submit

@[simp] theorem resume_nextTicket (q : Queue α) : q.resume.1.nextTicket = q.nextTicket :=
  drain_nextTicket _

@[simp] theorem resume_outcome? (q : Queue α) (t : Nat) :
    q.resume.1.outcome? t = q.outcome? t := drain_outcome? _ t

@[simp] theorem resume_limit (q : Queue α) : q.resume.1.limit = q.limit := drain_limit _

@[simp] theorem finish_nextTicket (q : Queue α) (t : Nat) (a : α) :
    (q.finish t (some a)).1.nextTicket = q.nextTicket := by
  rw [finish_eq, drain_nextTicket, vacate_nextTicket, settle_nextTicket]

@[simp] theorem finish_limit (q : Queue α) (t : Nat) (a : α) :
    (q.finish t (some a)).1.limit = q.limit := by
  rw [finish_eq, drain_limit]
  exact settle_limit q t _

/-! ### Who may start and who waits after an operation -/

theorem drain_subset (q : Queue α) : q.drain.2 ++ q.drain.1.pending ⊆ q.pending := by
  obtain ⟨front, rest, hd⟩ := q.exists_drains q.pending
  rw [drain_eq hd, advance_pending]
  have hsub : (q.unsettledIn front ++ rest).Sublist q.pending := by
    rw [hd.split]
    exact List.filter_sublist.append_right rest
  exact hsub.subset

theorem finish_subset (q : Queue α) (t : Nat) (a : α) :
    (q.finish t (some a)).2 ++ (q.finish t (some a)).1.pending ⊆ q.pending := by
  rw [finish_eq]
  refine List.Subset.trans (drain_subset _) ?_
  show (q.settle t (.ended a)).pending ⊆ q.pending
  rw [settle_pending]
  exact List.Subset.refl _

theorem resume_subset (q : Queue α) : q.resume.2 ++ q.resume.1.pending ⊆ q.pending :=
  drain_subset _

theorem submitMany_subset (q : Queue α) (n : Nat) {t : Nat}
    (ht : t ∈ (q.submitMany n).2 ++ (q.submitMany n).1.pending) :
    t ∈ q.pending ∨ q.nextTicket ≤ t := by
  induction n generalizing q with
  | zero => exact .inl (by simpa [submitMany] using ht)
  | succ n ih =>
      have hsubmit : ∀ u ∈ q.submit.2 ++ q.submit.1.pending,
          u ∈ q.pending ∨ q.nextTicket ≤ u := by
        intro u hu
        have hu' : u ∈ q.pending ++ [q.nextTicket] := drain_subset _ hu
        rcases List.mem_append.mp hu' with hu' | hu'
        · exact .inl hu'
        · exact .inr (Nat.le_of_eq (List.mem_singleton.mp hu').symm)
      rw [submitMany_succ, List.append_assoc] at ht
      rcases List.mem_append.mp ht with ht | ht
      · exact hsubmit t (List.mem_append_left _ ht)
      · rcases ih q.submit.1 ht with ht | ht
        · exact hsubmit t (List.mem_append_right _ ht)
        · rw [submit_nextTicket] at ht
          exact .inr (Nat.le_of_succ_le ht)

end Queue

end Soundworks
