import Soundworks.Proofs.Queue.Operations
/-!
Courses of a queue: everything that can happen to it, in any order, and what has become of each
job. What every event preserves is that the jobs are divided among those that were taken, wait,
were dropped and were withdrawn, and that the outcomes agree with this division.
-/

namespace Soundworks

namespace Queue

/-- What happens to a queue whose jobs return values or raise errors. -/
inductive Event (ε β : Type) where
  | submit
  | pause
  | resume
  | clear
  | cancel (ticket : Nat)
  | begin (ticket : Nat)
  | returned (ticket : Nat) (value : β)
  | raised (ticket : Nat) (error : ε)

/-- A queue with its history: the jobs that were taken to run, those that have begun, those that
are over with how they ended, those that a clearing dropped, those that left the queue because
they had been cancelled, all that were cancelled, and those that were cancelled while they
waited. -/
structure Course (ε β : Type) where
  queue : Queue (Except ε β)
  taken : List Nat := []
  begun : List Nat := []
  endings : List (Nat × Except ε β) := []
  dropped : List Nat := []
  withdrawn : List Nat := []
  cancelled : List Nat := []
  recalled : List Nat := []

namespace Course

variable {ε β : Type}

def ended (c : Course ε β) : List Nat := c.endings.map Prod.fst

def running (c : Course ε β) : List Nat := c.taken.filter fun t => t ∉ c.ended

def ready (c : Course ε β) : List Nat := c.taken.filter fun t => t ∉ c.begun

/-- Takes over the queue after an operation that lets jobs start. Who waited and neither waits
any longer nor starts is withdrawn. -/
def starting (c : Course ε β) (waiting : List Nat) (s : Queue (Except ε β) × List Nat) :
    Course ε β :=
  { c with
    queue := s.1
    taken := c.taken ++ s.2
    withdrawn := c.withdrawn ++ waiting.filter fun t => t ∉ s.1.pending ∧ t ∉ s.2 }

/-- A job that has begun is over. -/
def ending (c : Course ε β) (t : Nat) (r : Except ε β) : Course ε β :=
  starting { c with endings := c.endings ++ [(t, r)] } c.queue.pending (c.queue.finish t (some r))

/-- A job is cancelled from outside, unless it is settled. -/
def cancelling (c : Course ε β) (t : Nat) : Course ε β :=
  if c.queue.isSettled t then c
  else
    { c with
      queue := c.queue.cancel t
      cancelled := c.cancelled ++ [t]
      recalled := if t ∈ c.queue.pending then c.recalled ++ [t] else c.recalled }

def apply (c : Course ε β) : Event ε β → Course ε β
  | .submit => c.starting (c.queue.pending ++ [c.queue.nextTicket]) c.queue.submit
  | .pause => { c with queue := c.queue.pause }
  | .resume => c.starting c.queue.pending c.queue.resume
  | .clear =>
    { c with
      queue := c.queue.clear.1
      dropped := c.dropped ++ c.queue.unsettledIn c.queue.pending
      withdrawn := c.withdrawn ++ c.queue.settledIn c.queue.pending }
  | .cancel t => c.cancelling t
  | .begin t => { c with begun := c.begun ++ [t] }
  | .returned t b => c.ending t (.ok b)
  | .raised t e => c.ending t (.error e)

/-- What can happen: a job that was submitted is cancelled, one that was taken begins, and one
that has begun comes to its end. -/
def Allows (c : Course ε β) : Event ε β → Prop
  | .cancel t => t < c.queue.nextTicket
  | .begin t => t ∈ c.taken ∧ t ∉ c.begun
  | .returned t _ => t ∈ c.begun ∧ t ∉ c.ended
  | .raised t _ => t ∈ c.begun ∧ t ∉ c.ended
  | _ => True

instance (c : Course ε β) (e : Event ε β) : Decidable (c.Allows e) :=
  match e with
  | .cancel t => inferInstanceAs (Decidable (t < c.queue.nextTicket))
  | .begin t => inferInstanceAs (Decidable (t ∈ c.taken ∧ t ∉ c.begun))
  | .returned t _ | .raised t _ => inferInstanceAs (Decidable (t ∈ c.begun ∧ t ∉ c.ended))
  | .submit | .pause | .resume | .clear => inferInstanceAs (Decidable True)

/-- The same, where the jobs that were taken begin in the order in which they were taken. -/
def AllowsInTurn (c : Course ε β) : Event ε β → Prop
  | .begin t => c.ready.head? = some t
  | e => c.Allows e

instance (c : Course ε β) (e : Event ε β) : Decidable (c.AllowsInTurn e) :=
  match e with
  | .begin t => inferInstanceAs (Decidable (c.ready.head? = some t))
  | .cancel t => inferInstanceAs (Decidable (c.Allows (.cancel t)))
  | .returned t b => inferInstanceAs (Decidable (c.Allows (.returned t b)))
  | .raised t x => inferInstanceAs (Decidable (c.Allows (.raised t x)))
  | .submit | .pause | .resume | .clear => inferInstanceAs (Decidable True)

/-- A run of events, each of them allowed where it happens. -/
inductive Run (allows : Course ε β → Event ε β → Prop) (c : Course ε β) :
    List (Event ε β) → Course ε β → Prop
  | nil : Run allows c [] c
  | snoc {es : List (Event ε β)} {d : Course ε β} {e : Event ε β}
      (run : Run allows c es d) (h : allows d e) : Run allows c (es ++ [e]) (d.apply e)

/-- A course that a fresh queue with the given bound can come to. -/
def Reached (allows : Course ε β → Event ε β → Prop) (limit : Int) (c : Course ε β) : Prop :=
  ∃ q es, Queue.ofLimit? limit = some q ∧ Run allows { queue := q } es c

/-! ### What events preserve -/

/-- The division of the jobs, and the outcomes that go with it. -/
structure Kept (c : Course ε β) : Prop where
  manned : c.queue.Manned c.running
  placed : (c.taken ++ c.queue.pending ++ c.dropped ++ c.withdrawn).Perm
    (List.range c.queue.nextTicket)
  ordered : (c.taken ++ c.queue.pending).Pairwise (· < ·)
  begun_taken : ∀ t ∈ c.begun, t ∈ c.taken
  begun_nodup : c.begun.Nodup
  ended_begun : ∀ t ∈ c.ended, t ∈ c.begun
  ended_nodup : c.ended.Nodup
  ended_settled : ∀ t ∈ c.ended, c.queue.isSettled t = true
  endings_of_ended : ∀ t r, c.queue.outcome? t = some (.ended r) → (t, r) ∈ c.endings
  discarded_iff : ∀ t, c.queue.outcome? t = some .discarded ↔ t ∈ c.dropped
  cancelled_iff : ∀ t, c.queue.outcome? t = some .cancelled ↔ t ∈ c.cancelled
  recalled_cancelled : ∀ t ∈ c.recalled, t ∈ c.cancelled
  recalled_not_taken : ∀ t ∈ c.recalled, t ∉ c.taken
  withdrawn_recalled : ∀ t ∈ c.withdrawn, t ∈ c.recalled
  pending_recalled : ∀ t ∈ c.queue.pending, t ∈ c.cancelled → t ∈ c.recalled

/-- The same, and no job waits while there is room for it. -/
structure Sound (c : Course ε β) : Prop extends Kept c where
  idle : c.queue.isOpen = true → c.queue.pending = []

theorem mem_ended {c : Course ε β} {t : Nat} : t ∈ c.ended ↔ ∃ r, (t, r) ∈ c.endings := by
  simp [ended]

theorem mem_running {c : Course ε β} {t : Nat} :
    t ∈ c.running ↔ t ∈ c.taken ∧ t ∉ c.ended := by
  simp [running]

namespace Kept

variable {c : Course ε β}

theorem taken_nodup (h : c.Kept) : c.taken.Nodup :=
  (h.ordered.imp Nat.ne_of_lt).sublist (List.sublist_append_left _ _)

theorem pending_nodup (h : c.Kept) : c.queue.pending.Nodup :=
  (h.ordered.imp Nat.ne_of_lt).sublist (List.sublist_append_right _ _)

theorem places_nodup (h : c.Kept) :
    (c.taken ++ c.queue.pending ++ c.dropped ++ c.withdrawn).Nodup :=
  h.placed.nodup_iff.mpr List.nodup_range

theorem mem_places (h : c.Kept) {t : Nat} :
    t < c.queue.nextTicket ↔
      ((t ∈ c.taken ∨ t ∈ c.queue.pending) ∨ t ∈ c.dropped) ∨ t ∈ c.withdrawn := by
  rw [← List.mem_range, ← h.placed.mem_iff]
  simp only [List.mem_append]

theorem places_disjoint (h : c.Kept) (t : Nat) :
    (t ∈ c.taken → t ∉ c.queue.pending ∧ t ∉ c.dropped ∧ t ∉ c.withdrawn) ∧
      (t ∈ c.queue.pending → t ∉ c.dropped ∧ t ∉ c.withdrawn) ∧
      (t ∈ c.dropped → t ∉ c.withdrawn) := by
  have hn := h.places_nodup
  rw [List.nodup_append, List.nodup_append, List.nodup_append] at hn
  obtain ⟨⟨⟨-, -, htp⟩, -, htd⟩, -, htw⟩ := hn
  refine ⟨fun ht => ⟨fun hp => htp t ht t hp rfl, fun hd => ?_, fun hw => ?_⟩,
    fun hp => ⟨fun hd => ?_, fun hw => ?_⟩, fun hd hw => ?_⟩
  · exact htd t (List.mem_append_left _ ht) t hd rfl
  · exact htw t (List.mem_append_left _ (List.mem_append_left _ ht)) t hw rfl
  · exact htd t (List.mem_append_right _ hp) t hd rfl
  · exact htw t (List.mem_append_left _ (List.mem_append_right _ hp)) t hw rfl
  · exact htw t (List.mem_append_right _ hd) t hw rfl

theorem not_taken_of_pending (h : c.Kept) {t : Nat} (ht : t ∈ c.queue.pending) :
    t ∉ c.taken :=
  fun ht' => ((h.places_disjoint t).1 ht').1 ht

/-- A waiting job that is settled was cancelled while it waited. -/
theorem recalled_of_pending (h : c.Kept) {t : Nat} (ht : t ∈ c.queue.pending)
    (hs : c.queue.isSettled t = true) : t ∈ c.recalled := by
  obtain ⟨o, ho⟩ := isSettled_iff.mp hs
  cases o with
  | ended r =>
      have hover := h.endings_of_ended t r ho
      have htaken := h.begun_taken t (h.ended_begun t (mem_ended.mpr ⟨r, hover⟩))
      exact absurd htaken (h.not_taken_of_pending ht)
  | discarded =>
      exact absurd ((h.discarded_iff t).mp ho) ((h.places_disjoint t).2.1 ht).1
  | cancelled => exact h.pending_recalled t ht ((h.cancelled_iff t).mp ho)

end Kept

/-! ### Draining keeps the division -/

/-- Takes waiting jobs as long as the queue is open. -/
def drained (c : Course ε β) : Course ε β := c.starting c.queue.pending c.queue.drain

theorem drained_eq {c : Course ε β} {front rest : List Nat}
    (hn : c.queue.pending.Nodup) (hd : c.queue.Drains c.queue.pending front rest) :
    c.drained =
      { c with
        queue := c.queue.advance front rest
        taken := c.taken ++ c.queue.unsettledIn front
        withdrawn := c.withdrawn ++ c.queue.settledIn front } := by
  have hleft : (c.queue.pending.filter fun t => t ∉ rest ∧ t ∉ c.queue.unsettledIn front) =
      c.queue.settledIn front := by
    rw [hd.split] at hn ⊢
    have hdisj := (List.nodup_append.mp hn).2.2
    have hrest : (rest.filter fun t => t ∉ rest ∧ t ∉ c.queue.unsettledIn front) = [] :=
      List.filter_eq_nil_iff.mpr fun t ht => by simp [ht]
    rw [List.filter_append, hrest, List.append_nil, settledIn]
    apply List.filter_congr
    intro t ht
    have htr : t ∉ rest := fun h => hdisj t ht t h rfl
    cases hs : c.queue.isSettled t <;> simp [htr, ht, unsettledIn, hs]
  simp only [drained, starting, drain_eq hd, advance_pending, hleft]

theorem Kept.drained {c : Course ε β} (h : c.Kept) : c.drained.Sound := by
  obtain ⟨front, rest, hd⟩ := c.queue.exists_drains c.queue.pending
  have hpending : ∀ t, t ∈ front ∨ t ∈ rest → t ∈ c.queue.pending :=
    fun t ht => by simpa [hd.split] using ht
  have hserved := h.manned.drain
  rw [drain_eq hd] at hserved
  rw [drained_eq h.pending_nodup hd]
  have hfresh : ∀ t ∈ c.queue.unsettledIn front, t ∉ c.ended := fun t ht hended =>
    h.not_taken_of_pending (hpending t (.inl (mem_unsettledIn.mp ht).1))
      (h.begun_taken t (h.ended_begun t hended))
  have hrunning : (c.taken ++ c.queue.unsettledIn front).filter (fun t => t ∉ c.ended) =
      c.running ++ c.queue.unsettledIn front := by
    rw [List.filter_append, running]
    congr 1
    exact List.filter_eq_self.mpr fun t ht => by simpa using hfresh t ht
  exact { h with
    manned := by
      change (c.queue.advance front rest).Manned
        ((c.taken ++ c.queue.unsettledIn front).filter fun t => t ∉ c.ended)
      rw [hrunning]
      exact hserved.toManned
    placed := by
      -- the front is divided between those who are taken and those who are withdrawn
      have hplaced := h.placed
      rw [hd.split] at hplaced
      have hperm := c.queue.unsettledIn_perm front
      rw [List.perm_iff_count] at hplaced hperm ⊢
      intro t
      have h1 := hplaced t
      have h2 := hperm t
      simp only [List.count_append, advance_pending, advance_nextTicket] at h1 h2 ⊢
      omega
    ordered := by
      have hsub : (c.taken ++ c.queue.unsettledIn front ++ rest).Sublist
          (c.taken ++ c.queue.pending) := by
        rw [hd.split, List.append_assoc]
        exact (List.filter_sublist.append_right rest).append_left c.taken
      exact List.Pairwise.sublist hsub h.ordered
    begun_taken := fun t ht => List.mem_append_left _ (h.begun_taken t ht)
    recalled_not_taken := by
      intro t ht htaken
      rcases List.mem_append.mp htaken with htaken | htaken
      · exact h.recalled_not_taken t ht htaken
      -- who was recalled is settled, and is not taken from the front
      · have hc := (h.cancelled_iff t).mpr (h.recalled_cancelled t ht)
        simp [(mem_unsettledIn.mp htaken).2] at hc
    withdrawn_recalled := by
      intro t ht
      rcases List.mem_append.mp ht with ht | ht
      · exact h.withdrawn_recalled t ht
      · obtain ⟨hf, hs⟩ := mem_settledIn.mp ht
        exact h.recalled_of_pending (hpending t (.inl hf)) (isSettled_iff.mpr hs)
    pending_recalled := fun t ht => h.pending_recalled t (hpending t (.inr ht))
    idle := hserved.idle }

/-! ### Every event keeps the division -/

theorem Kept.enlist {c : Course ε β} (h : c.Kept) :
    Kept { c with queue := c.queue.enlist } :=
  { h with
    manned := h.manned.enlist
    placed := by
      have hplaced := h.placed
      rw [List.perm_iff_count] at hplaced ⊢
      intro t
      have h1 := hplaced t
      change List.count t (c.taken ++ (c.queue.pending ++ [c.queue.nextTicket]) ++ c.dropped ++
        c.withdrawn) = List.count t (List.range c.queue.enlist.nextTicket)
      rw [enlist_nextTicket, List.range_succ]
      simp only [List.count_append] at h1 ⊢
      omega
    ordered := by
      show (c.taken ++ (c.queue.pending ++ [c.queue.nextTicket])).Pairwise (· < ·)
      rw [← List.append_assoc]
      refine List.pairwise_append.mpr ⟨h.ordered, List.pairwise_singleton _ _, ?_⟩
      intro t ht s hs
      rw [List.mem_singleton.mp hs]
      exact h.mem_places.mpr (.inl (.inl (List.mem_append.mp ht)))
    ended_settled := fun t ht => by simpa using h.ended_settled t ht
    endings_of_ended := by simpa using h.endings_of_ended
    discarded_iff := by simpa using h.discarded_iff
    cancelled_iff := by simpa using h.cancelled_iff
    pending_recalled := by
      intro t ht hc
      rcases List.mem_append.mp ht with ht | ht
      · exact h.pending_recalled t ht hc
      · have hlt := lt_nextTicket_of_outcome? ((h.cancelled_iff t).mpr hc)
        rw [List.mem_singleton.mp ht] at hlt
        exact absurd hlt (Nat.lt_irrefl _) }

theorem Kept.unpause {c : Course ε β} (h : c.Kept) :
    Kept { c with queue := c.queue.unpause } :=
  { h with manned := h.manned.unpause }

/-- The end of a job frees its place and settles it, if it is not settled. -/
def closing (c : Course ε β) (t : Nat) (r : Except ε β) : Course ε β :=
  { c with queue := (c.queue.settle t (.ended r)).vacate, endings := c.endings ++ [(t, r)] }

theorem ended_closing (c : Course ε β) (t : Nat) (r : Except ε β) :
    (c.closing t r).ended = c.ended ++ [t] := by
  simp [ended, closing]

theorem Kept.running_closing {c : Course ε β} (h : c.Kept) (t : Nat) (r : Except ε β) :
    (c.closing t r).running = c.running.erase t := by
  have hn : c.running.Nodup := h.taken_nodup.filter _
  rw [hn.erase_eq_filter, running, running, ended_closing, List.filter_filter]
  apply List.filter_congr
  intro s _
  by_cases hst : s = t <;> simp [hst]

theorem Kept.closing {c : Course ε β} (h : c.Kept) {t : Nat} (hb : t ∈ c.begun)
    (he : t ∉ c.ended) (r : Except ε β) : (c.closing t r).Kept := by
  have htaken := h.begun_taken t hb
  have hknown := h.mem_places.mpr (.inl (.inl (.inl htaken)))
  have hstays : ∀ s (o : Outcome (Except ε β)), o ≠ .ended r →
      ((c.closing t r).queue.outcome? s = some o ↔ c.queue.outcome? s = some o) :=
    fun s o ho => outcome?_settle_iff ho
  exact { h with
    manned := by
      rw [h.running_closing]
      exact (h.manned.settle t _).vacate (mem_running.mpr ⟨htaken, he⟩)
    placed := by
      change (c.taken ++ (c.queue.settle t (.ended r)).pending ++ c.dropped ++ c.withdrawn).Perm
        (List.range (c.queue.settle t (.ended r)).nextTicket)
      rw [settle_pending, settle_nextTicket]
      exact h.placed
    ordered := by
      show (c.taken ++ (c.queue.settle t (.ended r)).pending).Pairwise (· < ·)
      rw [settle_pending]
      exact h.ordered
    ended_begun := by
      intro s hs
      rw [ended_closing, List.mem_append, List.mem_singleton] at hs
      rcases hs with hs | rfl
      · exact h.ended_begun s hs
      · exact hb
    ended_nodup := by
      rw [ended_closing]
      exact List.nodup_append_comm.mp (List.nodup_cons.mpr ⟨he, h.ended_nodup⟩)
    ended_settled := by
      intro s hs
      rw [ended_closing, List.mem_append, List.mem_singleton] at hs
      rcases hs with hs | rfl
      · exact isSettled_settle _ (h.ended_settled s hs)
      · exact isSettled_settle_self _ hknown
    endings_of_ended := by
      intro s r' ho
      change (c.queue.settle t (.ended r)).outcome? s = some (.ended r') at ho
      rw [outcome?_settle] at ho
      split at ho
      · rename_i hc
        obtain ⟨rfl, -, -⟩ := hc
        obtain rfl : r = r' := by simpa using ho
        exact List.mem_append_right _ (List.mem_singleton_self _)
      · exact List.mem_append_left _ (h.endings_of_ended s r' ho)
    discarded_iff := fun s => (hstays s _ (by simp)).trans (h.discarded_iff s)
    cancelled_iff := fun s => (hstays s _ (by simp)).trans (h.cancelled_iff s)
    pending_recalled := by
      intro s hs hc
      change s ∈ (c.queue.settle t (.ended r)).pending at hs
      rw [settle_pending] at hs
      exact h.pending_recalled s hs hc }

theorem ending_eq (c : Course ε β) (t : Nat) (r : Except ε β) :
    c.ending t r = (c.closing t r).drained := by
  have hp : (c.queue.settle t (.ended r)).vacate.pending = c.queue.pending :=
    settle_pending c.queue t _
  change starting { c with endings := c.endings ++ [(t, r)] } c.queue.pending
    (c.queue.settle t (.ended r)).vacate.drain = _
  rw [← hp]
  rfl

theorem Sound.clear {c : Course ε β} (h : c.Sound) : (c.apply .clear).Sound := by
  have hstays : ∀ s (o : Outcome (Except ε β)), o ≠ .discarded →
      ((c.apply .clear).queue.outcome? s = some o ↔ c.queue.outcome? s = some o) :=
    fun s o ho => clear_outcome?_iff ho
  exact { h with
    manned := by
      have hserved : c.queue.Served c.running := ⟨h.manned, h.idle⟩
      exact hserved.clear.toManned
    placed := by
      have hplaced := h.placed
      have hperm := c.queue.unsettledIn_perm c.queue.pending
      rw [List.perm_iff_count] at hplaced hperm ⊢
      intro t
      have h1 := hplaced t
      have h2 := hperm t
      simp only [apply, List.count_append, clear_pending, clear_nextTicket,
        List.count_nil] at h1 h2 ⊢
      omega
    ordered := by
      show (c.taken ++ []).Pairwise (· < ·)
      rw [List.append_nil]
      exact (List.pairwise_append.mp h.ordered).1
    ended_settled := by
      intro s hs
      obtain ⟨o, ho⟩ := isSettled_iff.mp (h.ended_settled s hs)
      have hstill : c.queue.clear.1.outcome? s = some o := by simp [clear_outcome?, ho]
      exact isSettled_iff.mpr ⟨o, hstill⟩
    endings_of_ended := fun s r ho => h.endings_of_ended s r ((hstays s _ (by simp)).mp ho)
    discarded_iff := by
      -- the newly discarded are the ones that waited unsettled
      intro s
      have hknown : s ∈ c.queue.pending → s < c.queue.nextTicket :=
        fun hs => h.mem_places.mpr (.inl (.inl (.inr hs)))
      show c.queue.clear.1.outcome? s = _ ↔ s ∈ c.dropped ++ c.queue.unsettledIn c.queue.pending
      rw [clear_outcome?, List.mem_append, mem_unsettledIn, ← h.discarded_iff]
      by_cases hs : s ∈ c.queue.pending ∧ c.queue.outcome? s = none
      · simp [hs, hknown hs.1]
      · have hs' : ¬(s ∈ c.queue.pending ∧ s < c.queue.nextTicket ∧
            c.queue.outcome? s = none) := fun hc => hs ⟨hc.1, hc.2.2⟩
        simp [hs, hs']
    cancelled_iff := fun s => (hstays s _ (by simp)).trans (h.cancelled_iff s)
    withdrawn_recalled := by
      intro t ht
      rcases List.mem_append.mp ht with ht | ht
      · exact h.withdrawn_recalled t ht
      · obtain ⟨hp, hs⟩ := mem_settledIn.mp ht
        exact h.recalled_of_pending hp (isSettled_iff.mpr hs)
    pending_recalled := by simp [apply]
    idle := fun _ => rfl }

theorem Sound.cancel {c : Course ε β} (h : c.Sound) {t : Nat} (ht : t < c.queue.nextTicket) :
    (c.apply (.cancel t)).Sound := by
  show (c.cancelling t).Sound
  unfold cancelling
  split
  · exact h
  · rename_i hs
    have hn : c.queue.outcome? t = none := by simpa [isSettled_eq_false_iff] using hs
    have hout : ∀ s, (c.queue.cancel t).outcome? s =
        if s = t then some .cancelled else c.queue.outcome? s := by
      intro s
      rw [Queue.cancel, outcome?_settle]
      simp [ht, hn]
    have hstays : ∀ s (o : Outcome (Except ε β)), o ≠ .cancelled →
        ((c.queue.cancel t).outcome? s = some o ↔ c.queue.outcome? s = some o) :=
      fun s o ho => outcome?_settle_iff ho
    have hserved : (c.queue.cancel t).Served c.running :=
      Served.cancel ⟨h.manned, h.idle⟩ t
    exact { h with
      manned := hserved.toManned
      placed := by
        change (c.taken ++ (c.queue.cancel t).pending ++ c.dropped ++ c.withdrawn).Perm
          (List.range (c.queue.cancel t).nextTicket)
        rw [cancel_pending, cancel_nextTicket]
        exact h.placed
      ordered := by
        show (c.taken ++ (c.queue.cancel t).pending).Pairwise (· < ·)
        rw [cancel_pending]
        exact h.ordered
      ended_settled := fun s hs => isSettled_settle _ (h.ended_settled s hs)
      endings_of_ended := fun s r ho => h.endings_of_ended s r ((hstays s _ (by simp)).mp ho)
      discarded_iff := fun s => (hstays s _ (by simp)).trans (h.discarded_iff s)
      cancelled_iff := by
        intro s
        show _ ↔ s ∈ c.cancelled ++ [t]
        rw [hout, List.mem_append, ← h.cancelled_iff, List.mem_singleton]
        by_cases hst : s = t <;> simp [hst]
      recalled_cancelled := by
        intro s hs
        dsimp only at hs ⊢
        split at hs
        · rcases List.mem_append.mp hs with hs | hs
          · exact List.mem_append_left _ (h.recalled_cancelled s hs)
          · exact List.mem_append_right _ hs
        · exact List.mem_append_left _ (h.recalled_cancelled s hs)
      recalled_not_taken := by
        intro s hs
        dsimp only at hs ⊢
        split at hs
        · rename_i hp
          rcases List.mem_append.mp hs with hs | hs
          · exact h.recalled_not_taken s hs
          · rw [List.mem_singleton.mp hs]
            exact h.not_taken_of_pending hp
        · exact h.recalled_not_taken s hs
      withdrawn_recalled := by
        intro s hs
        have hr := h.withdrawn_recalled s hs
        dsimp only
        split
        · exact List.mem_append_left _ hr
        · exact hr
      pending_recalled := by
        intro s hs hc
        change s ∈ (c.queue.cancel t).pending at hs
        rw [cancel_pending] at hs
        dsimp only at hc ⊢
        rcases List.mem_append.mp hc with hc | hc
        · have hr := h.pending_recalled s hs hc
          split
          · exact List.mem_append_left _ hr
          · exact hr
        · rw [List.mem_singleton.mp hc] at hs ⊢
          simp [hs]
      idle := hserved.idle }

/-- Every event that is allowed keeps the division, and leaves no job waiting in vain. -/
theorem Sound.apply {c : Course ε β} (h : c.Sound) {e : Event ε β} (he : c.Allows e) :
    (c.apply e).Sound := by
  cases e with
  | submit => exact h.enlist.drained
  | pause =>
      have hserved : c.queue.pause.Served c.running := Served.pause ⟨h.manned, h.idle⟩
      exact { h with manned := hserved.toManned, idle := hserved.idle }
  | resume => exact h.unpause.drained
  | clear => exact h.clear
  | cancel t => exact h.cancel he
  | begin t =>
      exact { h with
        begun_taken := by
          intro s hs
          rcases List.mem_append.mp hs with hs | hs
          · exact h.begun_taken s hs
          · rw [List.mem_singleton.mp hs]
            exact he.1
        begun_nodup := List.nodup_append_comm.mp (List.nodup_cons.mpr ⟨he.2, h.begun_nodup⟩)
        ended_begun := fun s hs => List.mem_append_left _ (h.ended_begun s hs) }
  | returned t b =>
      show (c.ending t (.ok b)).Sound
      rw [ending_eq]
      exact (h.closing he.1 he.2 _).drained
  | raised t e =>
      show (c.ending t (.error e)).Sound
      rw [ending_eq]
      exact (h.closing he.1 he.2 _).drained

theorem sound_fresh {limit : Int} {q : Queue (Except ε β)}
    (h : Queue.ofLimit? limit = some q) : Sound { queue := q : Course ε β } := by
  unfold ofLimit? at h
  split at h
  · cases h
    refine ⟨⟨⟨Nat.zero_le _, rfl, by simp [running], by simp [running]⟩, ?_, ?_, ?_, ?_, ?_, ?_,
      ?_, ?_, ?_, ?_, ?_, ?_, ?_, ?_⟩, fun _ => rfl⟩ <;>
      simp [nextTicket, ended, outcome?]
  · cases h

theorem Allows.of_inTurn {c : Course ε β} {e : Event ε β} (h : c.AllowsInTurn e) :
    c.Allows e := by
  cases e with
  | begin t =>
      have hmem : t ∈ c.ready := List.mem_of_head? h
      simpa [ready, Allows] using hmem
  | _ => exact h

/-- A run keeps what every allowed event keeps. -/
theorem Run.sound {allows : Course ε β → Event ε β → Prop}
    (hallows : ∀ c e, allows c e → c.Allows e) {c d : Course ε β} {es : List (Event ε β)}
    (run : Run allows c es d) (h : c.Sound) : d.Sound := by
  induction run with
  | nil => exact h
  | snoc _ he ih => exact ih.apply (hallows _ _ he)

theorem Reached.sound {limit : Int} {c : Course ε β} (h : Reached Allows limit c) :
    c.Sound := by
  obtain ⟨q, es, hq, run⟩ := h
  exact run.sound (fun _ _ he => he) (sound_fresh hq)

theorem Reached.sound_inTurn {limit : Int} {c : Course ε β}
    (h : Reached AllowsInTurn limit c) : c.Sound := by
  obtain ⟨q, es, hq, run⟩ := h
  exact run.sound (fun _ _ he => Allows.of_inTurn he) (sound_fresh hq)

end Course

end Queue

end Soundworks
