import Soundworks.Proofs.Queue.Without
/-!
What a clearing does. It discards the jobs that wait unsettled and nothing else, and from then on
the queue does to the other jobs what it would do if the discarded ones had never been there.
-/

namespace Soundworks

namespace Queue

namespace Watch

variable {α : Type}

/-- The jobs that wait unsettled are discarded, nobody waits any longer, and nothing else is
changed. -/
structure Cleared (w : Watch α) : Prop where
  count : w.queue.clear.2 = w.queue.unsettled.length
  outcome : ∀ t, (w.apply .clear).queue.outcome? t =
    if t ∈ w.queue.unsettled then some .discarded else w.queue.outcome? t
  pending : (w.apply .clear).queue.pending = []
  active : (w.apply .clear).queue.active = w.queue.active
  paused : (w.apply .clear).queue.paused = w.queue.paused
  limit : (w.apply .clear).queue.limit = w.queue.limit
  running : (w.apply .clear).running = w.running
  history : (w.apply .clear).taken = w.taken ∧ (w.apply .clear).begun = w.begun ∧
    (w.apply .clear).finished = w.finished

theorem Kept.cleared {w : Watch α} (h : w.Kept) : w.Cleared where
  count := rfl
  outcome := by
    intro t
    show w.queue.clear.1.outcome? t = _
    have hmem : t ∈ w.queue.unsettled ↔ t ∈ w.queue.pending ∧ w.queue.outcome? t = none :=
      mem_unsettledIn
    rw [clear_outcome?]
    by_cases ht : t ∈ w.queue.pending
    · have hknown := h.known t (List.mem_append_right _ ht)
      simp [hmem, ht, hknown]
    · simp [hmem, ht]
  pending := rfl
  active := clear_active _
  paused := discardAll_invariant Queue.paused (fun q t => settle_paused q t _) _ _
  limit := clear_limit _
  running := rfl
  history := ⟨rfl, rfl, rfl⟩

theorem Kept.removed_clear {w : Watch α} (h : w.Kept) :
    Removed w.queue.unsettled (w.apply .clear).queue := by
  intro t ht
  rw [h.cleared.outcome t, if_pos ht]
  exact ⟨List.not_mem_nil, rfl⟩

theorem hidden_unsettled (q : Queue α) : Hidden q.unsettled q :=
  fun _ ht _ => mem_unsettledIn.mp ht

theorem without_fresh (ts : List Nat) {limit : Int} {q : Queue α}
    (hq : Queue.ofLimit? limit = some q) :
    Without ts ({ queue := q } : Watch α) { queue := q } := by
  have hnone : ∀ t, q.outcome? t = none := fun t =>
    outcome?_eq_none_of_le (by
      rw [nextTicket_of_ofLimit? hq]
      exact Nat.zero_le t)
  have hpending : q.pending = [] := by
    unfold ofLimit? at hq
    split at hq
    · cases hq
      rfl
    · cases hq
  refine ⟨⟨rfl, rfl, rfl, fun t => ?_, ?_, fun t => ?_⟩, rfl, rfl, rfl⟩
  · rw [nextTicket_of_ofLimit? hq]
    simp
  · rw [hpending]
    rfl
  · rw [hnone, hnone]

/-- Whoever waits unsettled in the one queue waits so in the other, unless he is left out. -/
theorem Without.unsettled {ts : List Nat} {v u : Watch α} (h : Without ts v u) :
    u.queue.unsettled.filter (fun t => t ∉ ts) = v.queue.unsettled.map (besides ts) := by
  have hset : ((fun t => !u.queue.isSettled t) ∘ besides ts) = fun t => !v.queue.isSettled t := by
    funext t
    rw [Function.comp_apply, h.queue.isSettled t]
  rw [Queue.unsettled, List.filter_comm, h.queue.pending, List.filter_map, hset, Queue.unsettled]

/-- Once `w`, which `es` have led to from `q`, is cleared, the jobs in `ts` are never taken, and
everything goes on as for a queue that never held them: one that is reached by the same events
without those about these jobs. -/
def NeverHeld (ts : List Nat) (q : Queue α) (es : List (Happening α)) (w : Watch α) : Prop :=
  ∃ fs v, Run { queue := q } fs v ∧
    fs.map (Happening.rename (besides ts)) = Happening.omitting ts q.nextTicket es ∧
    Without ts v w ∧ v.queue.clear.2 = 0 ∧
    ∀ later u, Run (w.apply .clear) later u →
      (∀ t ∈ ts, t ∉ u.taken ∧ t ∉ u.begun ∧ t ∉ u.queue.pending ∧
        u.queue.outcome? t = some .discarded) ∧
      ∃ gs v', Run (v.apply .clear) gs v' ∧
        gs.map (Happening.rename (besides ts)) =
          Happening.omitting ts w.queue.nextTicket later ∧
        Without ts v' u

theorem Run.neverHeld {limit : Int} {q : Queue α} {es : List (Happening α)} {w : Watch α}
    (hq : Queue.ofLimit? limit = some q) (run : Run { queue := q } es w) :
    NeverHeld w.queue.unsettled q es w := by
  have hfresh := sound_fresh hq
  have hw := run.sound hfresh
  obtain ⟨fs, v, hv, hfs, hwithout⟩ := run.without (without_fresh w.queue.unsettled hq) hfresh
    hfresh (.inl (hidden_unsettled w.queue))
  have hnobody : v.queue.unsettled = [] := by
    have hleft : w.queue.unsettled.filter (fun t => t ∉ w.queue.unsettled) = [] :=
      List.filter_eq_nil_iff.mpr fun t ht => by simpa using ht
    have hmap := hwithout.unsettled
    rw [hleft] at hmap
    exact List.map_eq_nil_iff.mp hmap.symm
  refine ⟨fs, v, hv, hfs, hwithout, by simp [Queue.clear, hnobody], ?_⟩
  intro later u hlater
  have hremoved := hw.removed_clear
  have hcleared : Without w.queue.unsettled (v.apply .clear) (w.apply .clear) :=
    { hwithout with queue := hwithout.queue.clear }
  obtain ⟨gs, v', hgs, homit, hafter⟩ := hlater.without hcleared
    ((hv.sound hfresh).apply (e := .clear) trivial) (hw.apply (e := .clear) trivial)
    (.inr hremoved)
  rw [nextTicket_apply] at homit
  refine ⟨fun t ht => ?_, gs, v', hgs, homit, hafter⟩
  have hother : ∀ l : List Nat, t ∉ l.map (besides w.queue.unsettled) := by
    intro l hmem
    obtain ⟨s, -, rfl⟩ := List.mem_map.mp hmem
    exact besides_notMem _ s ht
  obtain ⟨hpending, hdiscarded⟩ := hlater.removed hremoved t ht
  exact ⟨hafter.taken ▸ hother _, hafter.begun ▸ hother _, hpending, hdiscarded⟩

end Watch

end Queue

end Soundworks
