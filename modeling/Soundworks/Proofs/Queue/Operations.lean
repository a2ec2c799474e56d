import Mathlib.Data.List.Nodup
import Mathlib.Data.List.Perm.Basic
import Soundworks.Queue.Basic
/-!
What the operations of a queue do to its parts. Settling touches the outcome of one job and never
an outcome that is there. Draining takes the front of the waiting jobs, leaves the settled ones
among them out, and stops only when nobody waits or the queue is closed.
-/

namespace Soundworks

namespace Queue

variable {α : Type}

theorem limit_of_ofLimit? {limit : Int} {q : Queue α} (h : ofLimit? limit = some q) :
    (q.limit : Int) = limit := by
  unfold ofLimit? at h
  split at h
  · cases h
    dsimp only
    omega
  · cases h

theorem isOpen_iff {q : Queue α} : q.isOpen = true ↔ q.paused = false ∧ q.active < q.limit := by
  simp [isOpen]

/-! ### Settling a job -/

theorem outcome?_eq_none_of_le {q : Queue α} {t : Nat} (h : q.nextTicket ≤ t) :
    q.outcome? t = none := by
  have h' : q.outcomes[t]? = none := List.getElem?_eq_none h
  simp [outcome?, h']

theorem lt_nextTicket_of_outcome? {q : Queue α} {t : Nat} {o : Outcome α}
    (h : q.outcome? t = some o) : t < q.nextTicket := by
  by_contra hn
  simp [outcome?_eq_none_of_le (Nat.le_of_not_lt hn)] at h

theorem isSettled_iff {q : Queue α} {t : Nat} :
    q.isSettled t = true ↔ ∃ o, q.outcome? t = some o := by
  simp [isSettled, Option.isSome_iff_exists]

theorem isSettled_eq_false_iff {q : Queue α} {t : Nat} :
    q.isSettled t = false ↔ q.outcome? t = none := by
  simp [isSettled]

@[simp] theorem settle_limit (q : Queue α) (t : Nat) (o : Outcome α) :
    (q.settle t o).limit = q.limit := by
  unfold settle; split <;> rfl

@[simp] theorem settle_paused (q : Queue α) (t : Nat) (o : Outcome α) :
    (q.settle t o).paused = q.paused := by
  unfold settle; split <;> rfl

@[simp] theorem settle_active (q : Queue α) (t : Nat) (o : Outcome α) :
    (q.settle t o).active = q.active := by
  unfold settle; split <;> rfl

@[simp] theorem settle_pending (q : Queue α) (t : Nat) (o : Outcome α) :
    (q.settle t o).pending = q.pending := by
  unfold settle; split <;> rfl

@[simp] theorem settle_nextTicket (q : Queue α) (t : Nat) (o : Outcome α) :
    (q.settle t o).nextTicket = q.nextTicket := by
  unfold settle; split <;> simp [nextTicket]

@[simp] theorem settle_isOpen (q : Queue α) (t : Nat) (o : Outcome α) :
    (q.settle t o).isOpen = q.isOpen := by
  simp [isOpen]

/-- Settling reaches the outcome of one job, and only if that job is there without an outcome. -/
theorem outcome?_settle (q : Queue α) (t : Nat) (o : Outcome α) (s : Nat) :
    (q.settle t o).outcome? s =
      if s = t ∧ t < q.nextTicket ∧ q.outcome? t = none then some o else q.outcome? s := by
  unfold settle
  by_cases hs : q.isSettled t = true
  · obtain ⟨o', ho'⟩ := isSettled_iff.mp hs
    simp [hs, ho']
  · have hn : q.outcome? t = none := by simpa [isSettled_eq_false_iff] using hs
    simp only [hs, hn, Bool.false_eq_true, if_false, and_true]
    by_cases hst : s = t
    · subst s
      by_cases ht : t < q.nextTicket
      · have ht' : t < q.outcomes.length := ht
        simp [outcome?, ht, ht']
      · have hset := List.set_eq_of_length_le (a := some o) (Nat.le_of_not_lt ht)
        simp [outcome?, ht, hset]
    · simp [outcome?, hst, Ne.symm hst]

theorem outcome?_settle_of_ne {q : Queue α} {t s : Nat} (o : Outcome α) (h : s ≠ t) :
    (q.settle t o).outcome? s = q.outcome? s := by
  simp [outcome?_settle, h]

theorem outcome?_settle_of_some {q : Queue α} {t s : Nat} {o o' : Outcome α}
    (h : q.outcome? s = some o') : (q.settle t o).outcome? s = some o' := by
  rw [outcome?_settle]
  split
  · rename_i hc
    obtain ⟨rfl, -, hn⟩ := hc
    simp [hn] at h
  · exact h

theorem outcome?_settle_iff {q : Queue α} {t s : Nat} {o o' : Outcome α} (h : o' ≠ o) :
    (q.settle t o).outcome? s = some o' ↔ q.outcome? s = some o' := by
  rw [outcome?_settle]
  split
  · rename_i hc
    obtain ⟨rfl, -, hn⟩ := hc
    simp [hn, h.symm]
  · rfl

theorem isSettled_settle {q : Queue α} {t s : Nat} (o : Outcome α) (h : q.isSettled s = true) :
    (q.settle t o).isSettled s = true := by
  obtain ⟨o', ho'⟩ := isSettled_iff.mp h
  exact isSettled_iff.mpr ⟨o', outcome?_settle_of_some ho'⟩

theorem isSettled_settle_self {q : Queue α} {t : Nat} (o : Outcome α) (h : t < q.nextTicket) :
    (q.settle t o).isSettled t = true := by
  rw [isSettled, outcome?_settle]
  cases q.outcome? t <;> simp [h]

/-! ### Draining -/

def unsettledIn (q : Queue α) (ts : List Nat) : List Nat := ts.filter fun t => !q.isSettled t

def settledIn (q : Queue α) (ts : List Nat) : List Nat := ts.filter q.isSettled

theorem mem_unsettledIn {q : Queue α} {ts : List Nat} {t : Nat} :
    t ∈ q.unsettledIn ts ↔ t ∈ ts ∧ q.outcome? t = none := by
  simp [unsettledIn, isSettled]

theorem mem_settledIn {q : Queue α} {ts : List Nat} {t : Nat} :
    t ∈ q.settledIn ts ↔ t ∈ ts ∧ ∃ o, q.outcome? t = some o := by
  simp [settledIn, isSettled_iff]

theorem unsettledIn_perm (q : Queue α) (ts : List Nat) :
    (q.unsettledIn ts ++ q.settledIn ts).Perm ts := by
  have h := List.filter_append_perm (fun t => !q.isSettled t) ts
  simpa [unsettledIn, settledIn] using h

/-- The queue after the jobs in `front` have left it: the ones that are not settled are active. -/
def advance (q : Queue α) (front rest : List Nat) : Queue α :=
  { q with active := q.active + (q.unsettledIn front).length, pending := rest }

@[simp] theorem advance_limit (q : Queue α) (front rest : List Nat) :
    (q.advance front rest).limit = q.limit := rfl

@[simp] theorem advance_active (q : Queue α) (front rest : List Nat) :
    (q.advance front rest).active = q.active + (q.unsettledIn front).length := rfl

@[simp] theorem advance_pending (q : Queue α) (front rest : List Nat) :
    (q.advance front rest).pending = rest := rfl

@[simp] theorem advance_nextTicket (q : Queue α) (front rest : List Nat) :
    (q.advance front rest).nextTicket = q.nextTicket := rfl

@[simp] theorem advance_outcome? (q : Queue α) (front rest : List Nat) (t : Nat) :
    (q.advance front rest).outcome? t = q.outcome? t := rfl

/-- Draining a list of waiting jobs takes `front` from it and leaves `rest`. -/
structure Drains (q : Queue α) (waiting front rest : List Nat) : Prop where
  split : waiting = front ++ rest
  result : q.drainFrom waiting = (q.advance front rest, q.unsettledIn front)
  bounded : q.active ≤ q.limit → (q.advance front rest).active ≤ q.limit
  idle : (q.advance front rest).isOpen = true → rest = []
  closed : q.isOpen = false → front = []

theorem exists_drains (q : Queue α) (waiting : List Nat) :
    ∃ front rest, q.Drains waiting front rest := by
  induction waiting generalizing q with
  | nil => exact ⟨[], [], rfl, rfl, id, fun _ => rfl, fun _ => rfl⟩
  | cons t ts ih =>
      by_cases hopen : q.isOpen = true
      · by_cases hset : q.isSettled t = true
        -- `t` is left out
        · obtain ⟨front, rest, h⟩ := ih q
          have hfront : q.unsettledIn (t :: front) = q.unsettledIn front := by
            simp [unsettledIn, hset]
          have hadv : q.advance (t :: front) rest = q.advance front rest := by
            simp [advance, hfront]
          refine ⟨t :: front, rest, by simp [h.split], ?_, ?_, ?_, by simp [hopen]⟩
          · simp [drainFrom, hopen, hset, h.result, hadv, hfront]
          · simpa [hadv] using h.bounded
          · simpa [hadv] using h.idle
        -- `t` becomes active
        · obtain ⟨front, rest, h⟩ := ih { q with active := q.active + 1 }
          have hsame : unsettledIn { q with active := q.active + 1 } front =
              q.unsettledIn front := rfl
          have hfront : q.unsettledIn (t :: front) = t :: q.unsettledIn front := by
            simp [unsettledIn, hset]
          have hadv : q.advance (t :: front) rest =
              advance { q with active := q.active + 1 } front rest := by
            simp only [advance, hfront, hsame, List.length_cons]
            congr 1
            omega
          have hroom : q.active < q.limit := by
            simp only [isOpen, Bool.and_eq_true, decide_eq_true_eq] at hopen
            exact hopen.2
          refine ⟨t :: front, rest, by simp [h.split], ?_, ?_, ?_, by simp [hopen]⟩
          · simp [drainFrom, hopen, hset, h.result, hadv, hfront, hsame]
          · intro _
            simpa [hadv] using h.bounded (Nat.succ_le_of_lt hroom)
          · simpa [hadv] using h.idle
      -- nobody is taken
      · have hopen' : q.isOpen = false := by simpa using hopen
        refine ⟨[], t :: ts, rfl, ?_, by simp [unsettledIn], ?_, fun _ => rfl⟩
        · simp [drainFrom, hopen', advance, unsettledIn]
        · intro h
          change q.isOpen = true at h
          simp [hopen'] at h

theorem drain_eq {q : Queue α} {front rest : List Nat} (h : q.Drains q.pending front rest) :
    q.drain = (q.advance front rest, q.unsettledIn front) := h.result

@[simp] theorem drain_limit (q : Queue α) : q.drain.1.limit = q.limit := by
  obtain ⟨front, rest, hd⟩ := q.exists_drains q.pending
  rw [drain_eq hd, advance_limit]

@[simp] theorem drain_outcome? (q : Queue α) (t : Nat) :
    q.drain.1.outcome? t = q.outcome? t := by
  obtain ⟨front, rest, hd⟩ := q.exists_drains q.pending
  rw [drain_eq hd, advance_outcome?]

/-! ### The operations as a change and a draining -/

def enlist (q : Queue α) : Queue α :=
  { q with pending := q.pending ++ [q.nextTicket], outcomes := q.outcomes ++ [none] }

def vacate (q : Queue α) : Queue α := { q with active := q.active - 1 }

def unpause (q : Queue α) : Queue α := { q with paused := false }

theorem submit_eq (q : Queue α) : q.submit = q.enlist.drain := rfl

theorem finish_eq (q : Queue α) (t : Nat) (a : α) :
    q.finish t (some a) = (q.settle t (.ended a)).vacate.drain := rfl

@[simp] theorem enlist_nextTicket (q : Queue α) : q.enlist.nextTicket = q.nextTicket + 1 := by
  simp [enlist, nextTicket]

@[simp] theorem enlist_outcome? (q : Queue α) (t : Nat) :
    q.enlist.outcome? t = q.outcome? t := by
  by_cases ht : t < q.nextTicket
  · have ht' : t < q.outcomes.length := ht
    simp [enlist, outcome?, List.getElem?_append_left ht']
  · by_cases heq : t = q.nextTicket
    · subst t
      simp [enlist, outcome?, nextTicket]
    · have hlen : q.enlist.nextTicket ≤ t := by simp; omega
      rw [outcome?_eq_none_of_le hlen, outcome?_eq_none_of_le (Nat.le_of_not_lt ht)]

@[simp] theorem enlist_isSettled (q : Queue α) (t : Nat) :
    q.enlist.isSettled t = q.isSettled t := by
  simp [isSettled]

@[simp] theorem vacate_nextTicket (q : Queue α) : q.vacate.nextTicket = q.nextTicket := rfl

@[simp] theorem vacate_outcome? (q : Queue α) (t : Nat) :
    q.vacate.outcome? t = q.outcome? t := rfl

@[simp] theorem cancel_nextTicket (q : Queue α) (t : Nat) :
    (q.cancel t).nextTicket = q.nextTicket := settle_nextTicket q t _

@[simp] theorem cancel_pending (q : Queue α) (t : Nat) :
    (q.cancel t).pending = q.pending := settle_pending q t _

/-! ### Clearing -/

def discardAll (q : Queue α) (ts : List Nat) : Queue α :=
  ts.foldl (fun q t => q.settle t .discarded) q

theorem discardAll_cons (q : Queue α) (t : Nat) (ts : List Nat) :
    q.discardAll (t :: ts) = (q.settle t .discarded).discardAll ts := rfl

/-- What settling one job leaves alone is left alone by discarding many. -/
theorem discardAll_invariant {γ : Type} (g : Queue α → γ)
    (hg : ∀ q t, g (settle q t .discarded) = g q) (q : Queue α) (ts : List Nat) :
    g (q.discardAll ts) = g q := by
  induction ts generalizing q with
  | nil => rfl
  | cons t ts ih => rw [discardAll_cons, ih, hg]

/-- Discarding reaches the given jobs that are there and have no outcome, and no other ones. -/
theorem outcome?_discardAll (q : Queue α) (ts : List Nat) (s : Nat) :
    (q.discardAll ts).outcome? s =
      if s ∈ ts ∧ s < q.nextTicket ∧ q.outcome? s = none then some .discarded
      else q.outcome? s := by
  induction ts generalizing q with
  | nil => simp [discardAll]
  | cons t ts ih =>
      rw [discardAll_cons, ih, settle_nextTicket, outcome?_settle]
      by_cases hst : s = t
      · subst s
        by_cases hfree : t < q.nextTicket ∧ q.outcome? t = none
        · simp [hfree]
        · simp [hfree]
      · simp [hst]

@[simp] theorem clear_limit (q : Queue α) : q.clear.1.limit = q.limit :=
  discardAll_invariant limit (fun q t => settle_limit q t _) q q.pending

@[simp] theorem clear_active (q : Queue α) : q.clear.1.active = q.active :=
  discardAll_invariant active (fun q t => settle_active q t _) q q.pending

@[simp] theorem clear_pending (q : Queue α) : q.clear.1.pending = [] := rfl

@[simp] theorem clear_nextTicket (q : Queue α) : q.clear.1.nextTicket = q.nextTicket :=
  discardAll_invariant nextTicket (fun q t => settle_nextTicket q t _) q q.pending

theorem clear_outcome? (q : Queue α) (s : Nat) :
    q.clear.1.outcome? s =
      if s ∈ q.pending ∧ s < q.nextTicket ∧ q.outcome? s = none then some .discarded
      else q.outcome? s :=
  outcome?_discardAll q q.pending s

theorem clear_outcome?_iff {q : Queue α} {s : Nat} {o : Outcome α} (h : o ≠ .discarded) :
    q.clear.1.outcome? s = some o ↔ q.outcome? s = some o := by
  rw [clear_outcome?]
  split
  · rename_i hc
    simp [hc.2.2, h.symm]
  · rfl

/-! ### Jobs that run -/

/-- The jobs that run are the ones that are counted as active, and none of them waits. -/
structure Manned (q : Queue α) (running : List Nat) : Prop where
  bounded : q.active ≤ q.limit
  active_eq : q.active = running.length
  nodup : (running ++ q.pending).Nodup
  known : ∀ t ∈ running ++ q.pending, t < q.nextTicket

/-- No job waits while there is room for it. -/
structure Served (q : Queue α) (running : List Nat) : Prop extends Manned q running where
  idle : q.isOpen = true → q.pending = []

theorem Manned.enlist {q : Queue α} {running : List Nat} (h : q.Manned running) :
    q.enlist.Manned running where
  bounded := h.bounded
  active_eq := h.active_eq
  nodup := by
    have hfresh : q.nextTicket ∉ running ++ q.pending :=
      fun hmem => Nat.lt_irrefl _ (h.known _ hmem)
    show (running ++ (q.pending ++ [q.nextTicket])).Nodup
    rw [← List.append_assoc]
    exact List.nodup_append_comm.mp (List.nodup_cons.mpr ⟨hfresh, h.nodup⟩)
  known := by
    intro t ht
    change t ∈ running ++ (q.pending ++ [q.nextTicket]) at ht
    rw [← List.append_assoc, List.mem_append, List.mem_singleton] at ht
    rw [enlist_nextTicket]
    rcases ht with ht | rfl
    · exact Nat.lt_succ_of_lt (h.known t ht)
    · exact Nat.lt_succ_self _

theorem Manned.settle {q : Queue α} {running : List Nat} (h : q.Manned running) (t : Nat)
    (o : Outcome α) : (q.settle t o).Manned running where
  bounded := by simpa using h.bounded
  active_eq := by simpa using h.active_eq
  nodup := by simpa using h.nodup
  known := by simpa using h.known

theorem Manned.vacate {q : Queue α} {running : List Nat} (h : q.Manned running) {t : Nat}
    (ht : t ∈ running) : q.vacate.Manned (running.erase t) where
  bounded := Nat.le_trans (Nat.sub_le _ _) h.bounded
  active_eq := by
    show q.active - 1 = _
    rw [h.active_eq, List.length_erase_of_mem ht]
  nodup := h.nodup.sublist (List.erase_sublist.append_right _)
  known := fun s hs => h.known s ((List.erase_sublist.append_right q.pending).subset hs)

theorem Manned.unpause {q : Queue α} {running : List Nat} (h : q.Manned running) :
    q.unpause.Manned running :=
  ⟨h.bounded, h.active_eq, h.nodup, h.known⟩

/-- Draining restores that no job waits in vain. -/
theorem Manned.drain {q : Queue α} {running : List Nat} (h : q.Manned running) :
    q.drain.1.Served (running ++ q.drain.2) := by
  obtain ⟨front, rest, hd⟩ := q.exists_drains q.pending
  have hsub : (running ++ q.unsettledIn front ++ rest).Sublist (running ++ q.pending) := by
    rw [hd.split, List.append_assoc]
    exact (List.filter_sublist.append_right rest).append_left running
  rw [drain_eq hd]
  exact {
    bounded := hd.bounded h.bounded
    active_eq := by simp [h.active_eq]
    nodup := h.nodup.sublist hsub
    known := fun t ht => h.known t (hsub.subset ht)
    idle := hd.idle }

theorem Served.pause {q : Queue α} {running : List Nat} (h : q.Served running) :
    q.pause.Served running where
  bounded := h.bounded
  active_eq := h.active_eq
  nodup := h.nodup
  known := h.known
  idle := by simp [isOpen, Queue.pause]

theorem Served.cancel {q : Queue α} {running : List Nat} (h : q.Served running) (t : Nat) :
    (q.cancel t).Served running where
  toManned := h.toManned.settle t .cancelled
  idle := by simpa [Queue.cancel] using h.idle

theorem Served.clear {q : Queue α} {running : List Nat} (h : q.Served running) :
    q.clear.1.Served running where
  bounded := by simpa using h.bounded
  active_eq := by simpa using h.active_eq
  nodup := by simpa using h.nodup.sublist (List.sublist_append_left _ _)
  known := fun t ht => by
    simp only [clear_pending, List.append_nil] at ht
    rw [clear_nextTicket]
    exact h.known t (List.mem_append_left _ ht)
  idle := fun _ => rfl

end Queue

end Soundworks
