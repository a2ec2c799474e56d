import Mathlib.Data.Nat.Nth
import Soundworks.Proofs.Queue.Placed
import Soundworks.Proofs.Queue.Watch
/-!
A queue beside the same queue without some of its jobs. The other jobs have the tickets that they
would have had, and as long as the jobs in question wait unsettled or are discarded, every event
does to the one queue what it does to the other.
-/

namespace Soundworks

namespace Queue

variable {α : Type} {ts : List Nat}

/-! ### The tickets outside a list -/

/-- The tickets that are not in a list, in their order. -/
noncomputable def besides (ts : List Nat) : Nat → Nat := Nat.nth fun t => t ∉ ts

theorem infinite_besides (ts : List Nat) : Set.Infinite {t | t ∉ ts} :=
  (List.finite_toSet ts).infinite_compl

theorem besides_lt (ts : List Nat) {s t : Nat} : besides ts s < besides ts t ↔ s < t :=
  Nat.nth_lt_nth (infinite_besides ts)

theorem besides_inj (ts : List Nat) {s t : Nat} : besides ts s = besides ts t ↔ s = t :=
  (Nat.nth_injective (infinite_besides ts)).eq_iff

theorem besides_notMem (ts : List Nat) (t : Nat) : besides ts t ∉ ts :=
  Nat.nth_mem_of_infinite (infinite_besides ts) t

theorem exists_besides {t : Nat} (h : t ∉ ts) : ∃ s, besides ts s = t :=
  ⟨_, Nat.nth_count h⟩

theorem mem_map_besides {t : Nat} {l : List Nat} :
    besides ts t ∈ l.map (besides ts) ↔ t ∈ l :=
  List.mem_map_of_injective (Nat.nth_injective (infinite_besides ts))

/-! ### A queue without some of its jobs -/

/-- The queue `p` is the queue `q` without the jobs in `ts`. -/
structure Without (ts : List Nat) (p q : Queue α) : Prop where
  limit : p.limit = q.limit
  paused : p.paused = q.paused
  active : p.active = q.active
  tickets : ∀ t, t < p.nextTicket ↔ besides ts t < q.nextTicket
  pending : q.pending.filter (fun t => t ∉ ts) = p.pending.map (besides ts)
  outcome : ∀ t, p.outcome? t = q.outcome? (besides ts t)

namespace Without

variable {p q : Queue α}

theorem isOpen (h : Without ts p q) : p.isOpen = q.isOpen := by
  simp [Queue.isOpen, h.limit, h.paused, h.active]

theorem isSettled (h : Without ts p q) (t : Nat) :
    p.isSettled t = q.isSettled (besides ts t) := by
  simp [Queue.isSettled, h.outcome t]

theorem mem_pending (h : Without ts p q) (t : Nat) :
    t ∈ p.pending ↔ besides ts t ∈ q.pending := by
  rw [← mem_map_besides, ← h.pending]
  simp [besides_notMem]

/-- The next ticket of the one queue is the next one of the other, if that is not left out. -/
theorem besides_nextTicket (h : Without ts p q) (hn : q.nextTicket ∉ ts) :
    besides ts p.nextTicket = q.nextTicket := by
  obtain ⟨m, hm⟩ := exists_besides hn
  have hle : p.nextTicket ≤ m :=
    Nat.le_of_not_lt fun hlt => Nat.lt_irrefl _ (hm ▸ (h.tickets m).mp hlt)
  have hge : m ≤ p.nextTicket := by
    refine Nat.le_of_not_lt fun hlt => Nat.lt_irrefl _ ((h.tickets _).mpr ?_)
    rw [← hm]
    exact (besides_lt ts).mpr hlt
  rw [Nat.le_antisymm hle hge, hm]

theorem pause (h : Without ts p q) : Without ts p.pause q.pause :=
  { h with paused := rfl }

theorem unpause (h : Without ts p q) : Without ts p.unpause q.unpause :=
  { h with paused := rfl }

theorem enlist (h : Without ts p q) (hn : q.nextTicket ∉ ts) :
    Without ts p.enlist q.enlist :=
  { h with
    tickets := by
      intro t
      rw [enlist_nextTicket, enlist_nextTicket, Nat.lt_succ_iff_lt_or_eq,
        Nat.lt_succ_iff_lt_or_eq, h.tickets t, ← h.besides_nextTicket hn, besides_inj]
    pending := by
      show (q.pending ++ [q.nextTicket]).filter _ = (p.pending ++ [p.nextTicket]).map _
      rw [List.filter_append, h.pending, List.map_append, List.map_singleton,
        h.besides_nextTicket hn, List.filter_singleton]
      simp [hn]
    outcome := by simpa using h.outcome }

/-- A job that is left out joins the one queue only. -/
theorem enlist_right (h : Without ts p q) (hn : q.nextTicket ∈ ts) :
    Without ts p q.enlist :=
  { h with
    tickets := by
      intro t
      have hne : besides ts t ≠ q.nextTicket := fun heq => besides_notMem ts t (heq ▸ hn)
      rw [enlist_nextTicket, Nat.lt_succ_iff_lt_or_eq, h.tickets t]
      simp [hne]
    pending := by
      show (q.pending ++ [q.nextTicket]).filter _ = _
      rw [List.filter_append, h.pending, List.filter_singleton]
      simp [hn]
    outcome := by simpa using h.outcome }

theorem settle (h : Without ts p q) (t : Nat) (o : Outcome α) :
    Without ts (p.settle t o) (q.settle (besides ts t) o) where
  limit := by simpa using h.limit
  paused := by simpa using h.paused
  active := by simpa using h.active
  tickets := by simpa using h.tickets
  pending := by simpa using h.pending
  outcome := by
    intro s
    rw [outcome?_settle, outcome?_settle, h.outcome t, h.outcome s]
    simp only [h.tickets t, besides_inj]

theorem vacate (h : Without ts p q) : Without ts p.vacate q.vacate :=
  { h with active := congrArg (· - 1) h.active }

theorem leave (h : Without ts p q) (t : Nat) (r : Option α) :
    Without ts (p.leave t r) (q.leave (besides ts t) r) := by
  cases r with
  | none => exact h.vacate
  | some a => exact (h.settle t _).vacate

theorem clear (h : Without ts p q) : Without ts p.clear.1 q.clear.1 where
  limit := by simpa using h.limit
  paused := by
    have hkeep : ∀ q : Queue α, q.clear.1.paused = q.paused := fun q =>
      discardAll_invariant Queue.paused (fun q t => settle_paused q t _) q q.pending
    rw [hkeep, hkeep, h.paused]
  active := by simpa using h.active
  tickets := by simpa using h.tickets
  pending := rfl
  outcome := by
    intro t
    rw [clear_outcome?, clear_outcome?, h.outcome t]
    simp only [h.tickets t, h.mem_pending t]

end Without

/-! ### Draining -/

theorem drainFrom_of_closed {q : Queue α} (h : q.isOpen = false) (ws : List Nat) :
    q.drainFrom ws = ({ q with pending := ws }, []) := by
  cases ws with
  | nil => rfl
  | cons t ws => simp [drainFrom, h]

theorem pending_drainFrom (q : Queue α) (ws : List Nat) :
    (q.drainFrom ws).1.pending ⊆ ws := by
  obtain ⟨front, rest, hd⟩ := q.exists_drains ws
  rw [hd.result, advance_pending, hd.split]
  exact List.subset_append_right _ _

/-- Draining takes the same jobs from both queues, as long as those that are left out stay. -/
theorem Without.drainFrom {p q : Queue α} (h : Without ts p q) {ws vs : List Nat}
    (hws : ws.filter (fun t => t ∉ ts) = vs.map (besides ts)) (hn : ws.Nodup)
    (hstay : ∀ t ∈ ws, t ∈ ts → t ∈ (q.drainFrom ws).1.pending ∧ q.outcome? t = none) :
    (q.drainFrom ws).2 = (p.drainFrom vs).2.map (besides ts) ∧
      Without ts (p.drainFrom vs).1 (q.drainFrom ws).1 := by
  induction ws generalizing p q vs with
  | nil =>
      obtain rfl : vs = [] := by simpa using hws.symm
      exact ⟨rfl, { h with pending := rfl }⟩
  | cons t ws ih =>
      cases hopen : q.isOpen with
      | false =>
          have hopen' : p.isOpen = false := by rw [h.isOpen, hopen]
          rw [drainFrom_of_closed hopen, drainFrom_of_closed hopen']
          exact ⟨rfl, { h with pending := hws }⟩
      | true =>
          have hopen' : p.isOpen = true := by rw [h.isOpen, hopen]
          have hfresh : t ∉ ws := (List.nodup_cons.mp hn).1
          have ht : t ∉ ts := by
            -- otherwise it would be taken and not stay
            intro ht
            obtain ⟨hpending, hnone⟩ := hstay t List.mem_cons_self ht
            have hset : q.isSettled t = false := isSettled_eq_false_iff.mpr hnone
            simp only [Queue.drainFrom, hopen, hset, Bool.not_true, Bool.false_eq_true,
              if_false] at hpending
            exact hfresh (pending_drainFrom _ _ hpending)
          obtain ⟨s, rfl⟩ := exists_besides ht
          rw [List.filter_cons_of_pos (by simpa using ht)] at hws
          obtain ⟨s', vs, rfl, hs', hvs⟩ := List.map_eq_cons_iff.mp hws.symm
          obtain rfl := (besides_inj ts).mp hs'
          have hset := h.isSettled s'
          cases hq : q.isSettled (besides ts s') with
          | true =>
              have hdrain : q.drainFrom (besides ts s' :: ws) = q.drainFrom ws := by
                simp [Queue.drainFrom, hopen, hq]
              have hdrain' : p.drainFrom (s' :: vs) = p.drainFrom vs := by
                simp [Queue.drainFrom, hopen', hset, hq]
              rw [hdrain, hdrain']
              refine ih h hvs.symm (List.nodup_cons.mp hn).2 fun t ht hts => ?_
              rw [← hdrain]
              exact hstay t (List.mem_cons_of_mem _ ht) hts
          | false =>
              have hone : Without ts { p with active := p.active + 1 }
                  { q with active := q.active + 1 } :=
                { h with active := congrArg (· + 1) h.active }
              have hdrain : q.drainFrom (besides ts s' :: ws) =
                  ((Queue.drainFrom { q with active := q.active + 1 } ws).1,
                    besides ts s' ::
                      (Queue.drainFrom { q with active := q.active + 1 } ws).2) := by
                simp [Queue.drainFrom, hopen, hq]
              have hdrain' : p.drainFrom (s' :: vs) =
                  ((Queue.drainFrom { p with active := p.active + 1 } vs).1,
                    s' :: (Queue.drainFrom { p with active := p.active + 1 } vs).2) := by
                simp [Queue.drainFrom, hopen', hset, hq]
              have hmore := ih hone hvs.symm (List.nodup_cons.mp hn).2 fun t ht hts => by
                have hkeep := hstay t (List.mem_cons_of_mem _ ht) hts
                rw [hdrain] at hkeep
                exact hkeep
              rw [hdrain, hdrain']
              exact ⟨by rw [hmore.1, List.map_cons], hmore.2⟩

theorem Without.drain {p q : Queue α} (h : Without ts p q) (hn : q.pending.Nodup)
    (hstay : ∀ t ∈ q.pending, t ∈ ts → t ∈ q.drain.1.pending ∧ q.outcome? t = none) :
    q.drain.2 = p.drain.2.map (besides ts) ∧ Without ts p.drain.1 q.drain.1 :=
  h.drainFrom h.pending hn hstay

/-! ### Jobs that wait unsettled, and jobs that were discarded -/

/-- The jobs in `ts` wait unsettled, as far as they were submitted. -/
def Hidden (ts : List Nat) (q : Queue α) : Prop :=
  ∀ t ∈ ts, t < q.nextTicket → t ∈ q.pending ∧ q.outcome? t = none

/-- The jobs in `ts` were discarded. -/
def Removed (ts : List Nat) (q : Queue α) : Prop :=
  ∀ t ∈ ts, t ∉ q.pending ∧ q.outcome? t = some .discarded

theorem Removed.enlist {q : Queue α} (h : Removed ts q) : Removed ts q.enlist := by
  intro t ht
  obtain ⟨hp, ho⟩ := h t ht
  have hlt := lt_nextTicket_of_outcome? ho
  refine ⟨?_, by rw [enlist_outcome?, ho]⟩
  show t ∉ q.pending ++ [q.nextTicket]
  rw [List.mem_append, List.mem_singleton, not_or]
  exact ⟨hp, Nat.ne_of_lt hlt⟩

theorem Removed.leave {q : Queue α} (h : Removed ts q) (s : Nat) (r : Option α) :
    Removed ts (q.leave s r) := by
  intro t ht
  obtain ⟨hp, ho⟩ := h t ht
  refine ⟨by rwa [leave_pending], ?_⟩
  rw [leave_outcome?, if_neg, ho]
  rintro ⟨rfl, -, hn⟩
  simp [ho] at hn

theorem Removed.drain {q : Queue α} (h : Removed ts q) : Removed ts q.drain.1 := by
  intro t ht
  obtain ⟨hp, ho⟩ := h t ht
  exact ⟨fun hmem => hp (pending_drainFrom _ _ hmem), by rw [drain_outcome?, ho]⟩

namespace Happening

/-- The same event, of the job with another ticket. -/
def rename (f : Nat → Nat) : Happening α → Happening α
  | .cancel t => .cancel (f t)
  | .begin t => .begin (f t)
  | .finish t r => .finish (f t) r
  | e => e

def next (n : Nat) : Happening α → Nat
  | .submit => n + 1
  | _ => n

/-- The event is about one of the jobs in `ts`, where `n` is the ticket of the next job. -/
def isOf (ts : List Nat) (n : Nat) : Happening α → Bool
  | .submit => decide (n ∈ ts)
  | .cancel t | .begin t | .finish t _ => decide (t ∈ ts)
  | .pause | .resume | .clear => false

/-- The events that are not about jobs in `ts`, where `n` is the ticket of the next job. -/
def omitting (ts : List Nat) (n : Nat) : List (Happening α) → List (Happening α)
  | [] => []
  | e :: es => if e.isOf ts n then omitting ts (e.next n) es else e :: omitting ts (e.next n) es

theorem omitting_append (ts : List Nat) (n : Nat) (es : List (Happening α)) (e : Happening α) :
    omitting ts n (es ++ [e]) =
      omitting ts n es ++ if e.isOf ts (es.foldl next n) then [] else [e] := by
  induction es generalizing n with
  | nil => rfl
  | cons x es ih =>
      simp only [List.cons_append, omitting, List.foldl_cons]
      split
      · exact ih _
      · rw [ih]
        rfl

end Happening

namespace Watch

/-! ### Events of a watched queue without some of its jobs -/

theorem nextTicket_apply (w : Watch α) (e : Happening α) :
    (w.apply e).queue.nextTicket = e.next w.queue.nextTicket := by
  cases e with
  | submit => exact (drain_nextTicket _).trans (enlist_nextTicket _)
  | pause => rfl
  | resume => exact drain_nextTicket _
  | clear => exact clear_nextTicket _
  | cancel t => exact settle_nextTicket _ _ _
  | begin t => rfl
  | finish t r => exact (drain_nextTicket _).trans (leave_nextTicket _ _ _)

theorem Run.nextTicket {w v : Watch α} {es : List (Happening α)} (run : Run w es v) :
    v.queue.nextTicket = es.foldl Happening.next w.queue.nextTicket := by
  induction run with
  | nil => rfl
  | snoc _ _ ih => rw [nextTicket_apply, ih, List.foldl_append, List.foldl_cons, List.foldl_nil]

/-- Nobody joins the waiting jobs but a new one. -/
theorem pending_apply (w : Watch α) (e : Happening α) :
    (w.apply e).queue.pending ⊆ w.queue.pending ++ [w.queue.nextTicket] := by
  cases e with
  | submit => exact pending_drainFrom _ _
  | pause => exact List.subset_append_left _ _
  | resume => exact List.Subset.trans (pending_drainFrom _ _) (List.subset_append_left _ _)
  | clear => exact List.nil_subset _
  | cancel t =>
      show (w.queue.cancel t).pending ⊆ _
      rw [cancel_pending]
      exact List.subset_append_left _ _
  | begin t => exact List.subset_append_left _ _
  | finish t r =>
      have hsub : (w.queue.leave t r).drain.1.pending ⊆ (w.queue.leave t r).pending :=
        pending_drainFrom _ _
      rw [leave_pending] at hsub
      exact List.Subset.trans hsub (List.subset_append_left _ _)

/-- Whoever waits unsettled after an event waited so before, unless he is new. -/
theorem hidden_of_apply {w : Watch α} {e : Happening α} (h : Hidden ts (w.apply e).queue) :
    Hidden ts w.queue := by
  intro t ht hlt
  have hnext : w.queue.nextTicket ≤ (w.apply e).queue.nextTicket := by
    rw [nextTicket_apply]
    cases e <;> simp [Happening.next]
  obtain ⟨hp, hnone⟩ := h t ht (Nat.lt_of_lt_of_le hlt hnext)
  have hp' := pending_apply w e hp
  rw [List.mem_append, List.mem_singleton] at hp'
  refine ⟨hp'.resolve_right (Nat.ne_of_lt hlt), ?_⟩
  cases ho : w.queue.outcome? t with
  | none => rfl
  | some o => simp [outcome?_apply_of_some ho] at hnone

theorem removed_apply {w : Watch α} (h : Removed ts w.queue) (e : Happening α) :
    Removed ts (w.apply e).queue := by
  intro t ht
  obtain ⟨hp, ho⟩ := h t ht
  refine ⟨fun hmem => ?_, outcome?_apply_of_some ho⟩
  have hmem' := pending_apply w e hmem
  rw [List.mem_append, List.mem_singleton] at hmem'
  exact hmem'.elim hp (Nat.ne_of_lt (lt_nextTicket_of_outcome? ho))

theorem Run.removed {w v : Watch α} {es : List (Happening α)} (run : Run w es v)
    (h : Removed ts w.queue) : Removed ts v.queue := by
  induction run with
  | nil => exact h
  | snoc _ _ ih => exact removed_apply ih _

/-- The watched queue `v` is `u` without the jobs in `ts`. -/
structure Without (ts : List Nat) (v u : Watch α) : Prop where
  queue : Queue.Without ts v.queue u.queue
  taken : u.taken = v.taken.map (besides ts)
  begun : u.begun = v.begun.map (besides ts)
  finished : u.finished = v.finished.map (Prod.map (besides ts) id)

namespace Without

variable {v u : Watch α}

theorem gone (h : Without ts v u) : u.gone = v.gone.map (besides ts) := by
  simp [Watch.gone, h.finished]

theorem drained (h : Without ts v u) (hu : u.Kept)
    (hts : Hidden ts u.drained.queue ∨ Removed ts u.queue) :
    Without ts v.drained u.drained := by
  have hn : u.queue.pending.Nodup := hu.pending_ordered.imp Nat.ne_of_lt
  have hstay : ∀ t ∈ u.queue.pending, t ∈ ts →
      t ∈ u.queue.drain.1.pending ∧ u.queue.outcome? t = none := by
    intro t hp ht
    rcases hts with hidden | removed
    · have hlt : t < u.queue.drain.1.nextTicket := by
        rw [drain_nextTicket]
        exact hu.known t (List.mem_append_right _ hp)
      have hafter := hidden t ht hlt
      change t ∈ u.queue.drain.1.pending ∧ u.queue.drain.1.outcome? t = none at hafter
      rwa [drain_outcome?] at hafter
    · exact absurd hp (removed t ht).1
  obtain ⟨hstarted, hqueue⟩ := h.queue.drain hn hstay
  exact { h with
    queue := hqueue
    taken := by
      show u.taken ++ u.queue.drain.2 = (v.taken ++ v.queue.drain.2).map _
      rw [hstarted, h.taken, List.map_append] }

/-- Where no job waits in vain there is nothing to drain. -/
theorem drained_eq (hv : v.Sound) : v.drained = v := by
  have hdrain : v.queue.drain = (v.queue, []) := by
    cases hopen : v.queue.isOpen with
    | false => exact drainFrom_of_closed hopen _
    | true =>
        have hnil := hv.idle hopen
        unfold Queue.drain
        rw [hnil, Queue.drainFrom, ← hnil]
  simp [Watch.drained, starting, hdrain]

/-- An event about a job that is left out is nothing to the queue without it. -/
theorem step_of (h : Without ts v u) (hv : v.Sound) (hu : u.Sound) {e : Happening α}
    (he : u.Allows e) (hts : Hidden ts (u.apply e).queue ∨ Removed ts u.queue)
    (hof : e.isOf ts u.queue.nextTicket = true) : Without ts v (u.apply e) := by
  cases e with
  | submit =>
      have hn : u.queue.nextTicket ∈ ts := by simpa [Happening.isOf] using hof
      have hjoin : Without ts v { u with queue := u.queue.enlist } :=
        { h with queue := h.queue.enlist_right hn }
      have hdrained := hjoin.drained hu.enlist (hts.imp_right Removed.enlist)
      rwa [drained_eq hv] at hdrained
  | cancel t =>
      have ht : t ∈ ts := by simpa [Happening.isOf] using hof
      rcases hts with hidden | removed
      -- it would be settled
      · have hlt : t < (u.apply (.cancel t)).queue.nextTicket := by
          rw [nextTicket_apply]
          exact he
        have hset : (u.queue.cancel t).isSettled t = true := isSettled_settle_self _ he
        have hnone : (u.queue.cancel t).outcome? t = none := (hidden t ht hlt).2
        rw [isSettled_eq_false_iff.mpr hnone] at hset
        exact absurd hset Bool.false_ne_true
      -- it is settled
      · have hset : u.queue.isSettled t = true := isSettled_iff.mpr ⟨_, (removed t ht).2⟩
        have hsame : u.queue.cancel t = u.queue := by simp [Queue.cancel, Queue.settle, hset]
        show Without ts v { u with queue := u.queue.cancel t }
        rw [hsame]
        exact h
  | begin t =>
      have ht : t ∈ ts := by simpa [Happening.isOf] using hof
      have htaken := he.1
      rw [h.taken] at htaken
      obtain ⟨s, -, rfl⟩ := List.mem_map.mp htaken
      exact absurd ht (besides_notMem ts s)
  | finish t r =>
      have ht : t ∈ ts := by simpa [Happening.isOf] using hof
      have hbegun := he.1
      rw [h.begun] at hbegun
      obtain ⟨s, -, rfl⟩ := List.mem_map.mp hbegun
      exact absurd ht (besides_notMem ts s)
  | pause => simp [Happening.isOf] at hof
  | resume => simp [Happening.isOf] at hof
  | clear => simp [Happening.isOf] at hof

/-- Any other event happens to both queues alike. -/
theorem step (h : Without ts v u) (hu : u.Sound) {e : Happening α} (he : u.Allows e)
    (hts : Hidden ts (u.apply e).queue ∨ Removed ts u.queue)
    (hof : e.isOf ts u.queue.nextTicket = false) :
    ∃ e', e'.rename (besides ts) = e ∧ v.Allows e' ∧ Without ts (v.apply e') (u.apply e) := by
  cases e with
  | submit =>
      have hn : u.queue.nextTicket ∉ ts := by simpa [Happening.isOf] using hof
      have hjoin : Without ts { v with queue := v.queue.enlist }
          { u with queue := u.queue.enlist } := { h with queue := h.queue.enlist hn }
      exact ⟨.submit, rfl, trivial, hjoin.drained hu.enlist (hts.imp_right Removed.enlist)⟩
  | pause => exact ⟨.pause, rfl, trivial, { h with queue := h.queue.pause }⟩
  | resume =>
      have hopen : Without ts { v with queue := v.queue.unpause }
          { u with queue := u.queue.unpause } := { h with queue := h.queue.unpause }
      exact ⟨.resume, rfl, trivial, hopen.drained hu.unpause hts⟩
  | clear => exact ⟨.clear, rfl, trivial, { h with queue := h.queue.clear }⟩
  | cancel t =>
      have ht : t ∉ ts := by simpa [Happening.isOf] using hof
      obtain ⟨s, rfl⟩ := exists_besides ht
      exact ⟨.cancel s, rfl, (h.queue.tickets s).mpr he,
        { h with queue := h.queue.settle s .cancelled }⟩
  | begin t =>
      obtain ⟨htaken, hbegun⟩ := he
      rw [h.taken] at htaken
      obtain ⟨s, hs, rfl⟩ := List.mem_map.mp htaken
      rw [h.begun, mem_map_besides] at hbegun
      refine ⟨.begin s, rfl, ⟨hs, hbegun⟩, { h with begun := ?_ }⟩
      show u.begun ++ [besides ts s] = (v.begun ++ [s]).map _
      rw [h.begun, List.map_append, List.map_singleton]
  | finish t r =>
      have hb := he.1
      have hg := he.2
      rw [h.begun] at hb
      obtain ⟨s, hs, rfl⟩ := List.mem_map.mp hb
      have hg' : s ∉ v.gone := by rwa [h.gone, mem_map_besides] at hg
      have hleft : Without ts (v.leaving s r) (u.leaving (besides ts s) r) :=
        { h with
          queue := h.queue.leave s r
          finished := by
            show u.finished ++ [(besides ts s, r)] = (v.finished ++ [(s, r)]).map _
            rw [h.finished, List.map_append, List.map_singleton]
            rfl }
      exact ⟨.finish s r, rfl, ⟨hs, hg'⟩, hleft.drained (hu.leaving he.1 he.2 r)
        (hts.imp_right fun hr => hr.leave _ r)⟩

end Without

/-- A run, without what happened to the jobs in `ts`, is a run of the queue without them. -/
theorem Run.without {v w u : Watch α} {es : List (Happening α)} (run : Run w es u)
    (h : Without ts v w) (hv : v.Sound) (hw : w.Sound)
    (hts : Hidden ts u.queue ∨ Removed ts w.queue) :
    ∃ fs v', Run v fs v' ∧
      fs.map (Happening.rename (besides ts)) = Happening.omitting ts w.queue.nextTicket es ∧
      Without ts v' u := by
  induction run with
  | nil => exact ⟨[], v, .nil, rfl, h⟩
  | @snoc es u e run he ih =>
      obtain ⟨fs, v', run', hfs, h'⟩ := ih (hts.imp_left hidden_of_apply)
      have hu := run.sound hw
      have hts' : Hidden ts (u.apply e).queue ∨ Removed ts u.queue :=
        hts.imp_right run.removed
      rw [Happening.omitting_append, ← run.nextTicket, ← hfs]
      cases hof : e.isOf ts u.queue.nextTicket with
      | true => exact ⟨fs, v', run', by simp, h'.step_of (run'.sound hv) hu he hts' hof⟩
      | false =>
          obtain ⟨e', rfl, he', hstep⟩ := h'.step hu he hts' hof
          exact ⟨fs ++ [e'], v'.apply e', run'.snoc he', by simp, hstep⟩

end Watch

end Queue

end Soundworks
