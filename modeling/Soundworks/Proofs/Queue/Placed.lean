import Soundworks.Proofs.Queue.Orderly
/-!
Every job of a queue has a place: it runs, it waits, or it is settled. So nothing is left to be
settled in a queue that is open when nothing runs.
-/

namespace Soundworks

namespace Queue

variable {α : Type} {q : Queue α} {running : List Nat}

/-- Whoever is not settled runs or waits. -/
def Placed (q : Queue α) (running : List Nat) : Prop :=
  ∀ t < q.nextTicket, q.outcome? t = none → t ∈ running ++ q.pending

namespace Placed

theorem mono {running' : List Nat} (h : q.Placed running) (hsub : running ⊆ running') :
    q.Placed running' := fun t ht hnone =>
  (List.mem_append.mp (h t ht hnone)).elim (fun hr => List.mem_append_left _ (hsub hr))
    (List.mem_append_right _)

theorem drain (h : q.Placed running) : q.drain.1.Placed (running ++ q.drain.2) := by
  obtain ⟨front, rest, hd⟩ := q.exists_drains q.pending
  intro t ht hnone
  rw [drain_nextTicket] at ht
  rw [drain_outcome?] at hnone
  rw [drain_eq hd, advance_pending, List.append_assoc]
  rcases List.mem_append.mp (h t ht hnone) with hr | hp
  · exact List.mem_append_left _ hr
  · refine List.mem_append_right _ ?_
    rw [hd.split, List.mem_append] at hp
    rcases hp with hp | hp
    · exact List.mem_append_left _ (mem_unsettledIn.mpr ⟨hp, hnone⟩)
    · exact List.mem_append_right _ hp

theorem submit (h : q.Placed running) : q.submit.1.Placed (running ++ q.submit.2) := by
  rw [submit_eq]
  refine drain fun t ht hnone => ?_
  rw [enlist_nextTicket] at ht
  rw [enlist_outcome?] at hnone
  show t ∈ running ++ (q.pending ++ [q.nextTicket])
  rw [← List.append_assoc, List.mem_append, List.mem_singleton]
  rcases Nat.lt_succ_iff_lt_or_eq.mp ht with ht | rfl
  · exact .inl (h t ht hnone)
  · exact .inr rfl

theorem submitMany (h : q.Placed running) (n : Nat) :
    (q.submitMany n).1.Placed (running ++ (q.submitMany n).2) := by
  induction n generalizing q running with
  | zero => simpa [Queue.submitMany] using h
  | succ n ih =>
      rw [submitMany_succ, ← List.append_assoc]
      exact ih h.submit

theorem resume (h : q.Placed running) : q.resume.1.Placed (running ++ q.resume.2) :=
  drain (q := q.unpause) h

/-- The end of a job settles it. -/
theorem finish {t : Nat} (h : q.Placed (t :: running)) (a : α) :
    (q.finish t (some a)).1.Placed (running ++ (q.finish t (some a)).2) := by
  rw [finish_eq]
  refine drain fun s hs hnone => ?_
  rw [vacate_nextTicket, settle_nextTicket] at hs
  rw [vacate_outcome?] at hnone
  show s ∈ running ++ (q.settle t (.ended a)).pending
  rw [settle_pending]
  have hne : s ≠ t := by
    rintro rfl
    have hsettled := isSettled_settle_self (q := q) (.ended a) hs
    rw [isSettled, hnone] at hsettled
    cases hsettled
  rw [outcome?_settle_of_ne _ hne] at hnone
  exact (List.mem_cons.mp (h s hs hnone)).resolve_left hne

theorem clear (h : q.Placed running) : q.clear.1.Placed running := by
  intro t ht hnone
  rw [clear_nextTicket] at ht
  rw [clear_outcome?] at hnone
  split at hnone
  · cases hnone
  · rename_i hstays
    rw [clear_pending, List.append_nil]
    refine (List.mem_append.mp (h t ht hnone)).resolve_right fun hp => hstays ⟨hp, ht, hnone⟩

end Placed

theorem placed_of_ofLimit? {limit : Int} (h : ofLimit? limit = some q) : q.Placed [] := by
  intro t ht
  rw [nextTicket_of_ofLimit? h] at ht
  exact absurd ht (Nat.not_lt_zero t)

/-- Nobody waits in an open queue in which nobody runs, so all its jobs are settled. -/
theorem Orderly.isSettled_of_idle (h : q.Orderly []) (hplaced : q.Placed [])
    (hp : q.paused = false) {t : Nat} (ht : t < q.nextTicket) : q.isSettled t = true := by
  have hopen : q.isOpen = true := isOpen_iff.mpr ⟨hp, by rw [h.active_eq]; exact q.limit_pos⟩
  rw [← Bool.not_eq_false, isSettled_eq_false_iff]
  intro hnone
  have hmem := hplaced t ht hnone
  rw [h.idle hopen] at hmem
  exact absurd hmem List.not_mem_nil

/-! ### How many start -/

theorem length_drain (q : Queue α) : q.drain.2.length + q.drain.1.pending.length ≤
    q.pending.length := by
  obtain ⟨front, rest, hd⟩ := q.exists_drains q.pending
  have hfront : (q.unsettledIn front).length ≤ front.length := List.length_filter_le _ _
  rw [drain_eq hd, advance_pending, hd.split, List.length_append]
  exact Nat.add_le_add_right hfront _

theorem length_finish (q : Queue α) (t : Nat) (a : α) :
    (q.finish t (some a)).2.length + (q.finish t (some a)).1.pending.length ≤
      q.pending.length := by
  have hdrain := length_drain (q.settle t (.ended a)).vacate
  change _ ≤ (q.settle t (.ended a)).pending.length at hdrain
  rw [settle_pending] at hdrain
  rwa [finish_eq]

theorem length_submit (q : Queue α) :
    q.submit.2.length + q.submit.1.pending.length ≤ q.pending.length + 1 := by
  have hdrain := length_drain q.enlist
  rw [show q.enlist.pending.length = q.pending.length + 1 from List.length_append] at hdrain
  rwa [submit_eq]

theorem length_submitMany (q : Queue α) (n : Nat) :
    (q.submitMany n).2.length + (q.submitMany n).1.pending.length ≤ q.pending.length + n := by
  induction n generalizing q with
  | zero => exact Nat.le_of_eq (Nat.zero_add _)
  | succ n ih =>
      have hfirst := length_submit q
      have hrest := ih q.submit.1
      rw [submitMany_succ]
      dsimp only
      rw [List.length_append]
      omega

/-! ### Whether it is paused -/

@[simp] theorem drain_paused (q : Queue α) : q.drain.1.paused = q.paused := by
  obtain ⟨front, rest, hd⟩ := q.exists_drains q.pending
  rw [drain_eq hd]
  rfl

@[simp] theorem finish_paused (q : Queue α) (t : Nat) (a : α) :
    (q.finish t (some a)).1.paused = q.paused := by
  rw [finish_eq, drain_paused]
  exact settle_paused q t _

@[simp] theorem submitMany_paused (q : Queue α) (n : Nat) :
    (q.submitMany n).1.paused = q.paused := by
  induction n generalizing q with
  | zero => rfl
  | succ n ih =>
      rw [submitMany_succ, ih]
      exact drain_paused q.enlist

theorem resume_paused (q : Queue α) : q.resume.1.paused = false := drain_paused q.unpause

end Queue

end Soundworks
