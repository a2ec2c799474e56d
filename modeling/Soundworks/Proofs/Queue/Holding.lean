import Soundworks.Proofs.Queue.Placed
import Soundworks.Proofs.Queue.Watch
/-!
What a pause holds back and what the next resumption lets go. While a queue is paused no job is
taken, whatever else happens to it, and the jobs that had been taken go on. A resumption takes as
many unsettled jobs as there is room for, the oldest ones first.
-/

namespace Soundworks

namespace Queue

variable {α : Type}

/-! ### How many jobs a draining takes -/

/-- The number of jobs that may start. -/
def room (q : Queue α) : Nat := if q.paused then 0 else q.limit - q.active

/-- Draining takes as many unsettled jobs as there is room for, and leaves the others. -/
theorem drain_room {q : Queue α} (h : q.active ≤ q.limit) :
    q.drain.2 = q.unsettled.take q.room ∧ q.drain.1.unsettled = q.unsettled.drop q.room ∧
      q.drain.1.active = q.active + min q.room q.unsettled.length := by
  obtain ⟨front, rest, hd⟩ := q.exists_drains q.pending
  have hsplit : q.unsettled = q.unsettledIn front ++ q.unsettledIn rest := by
    show q.unsettledIn q.pending = _
    rw [hd.split]
    exact List.filter_append _ _
  have hrest : (q.advance front rest).unsettled = q.unsettledIn rest := rfl
  rw [drain_eq hd, hrest, advance_active, hsplit]
  have hb := hd.bounded h
  rw [advance_active] at hb
  by_cases hopen : (q.advance front rest).isOpen = true
  -- the queue is open still, so nobody is left
  · obtain rfl := hd.idle hopen
    have hpaused : q.paused = false := (isOpen_iff.mp hopen).1
    have hroom : (q.unsettledIn front).length ≤ q.room := by
      rw [room, hpaused, if_neg Bool.false_ne_true]
      omega
    have hnil : q.unsettledIn [] = [] := rfl
    rw [hnil, List.append_nil, List.take_of_length_le hroom, List.drop_of_length_le hroom,
      Nat.min_eq_right hroom]
    exact ⟨rfl, rfl, rfl⟩
  -- the queue is closed: it was paused, or there is no room left
  · have hroom : (q.unsettledIn front).length = q.room := by
      cases hpaused : q.paused with
      | true =>
          have hclosed : q.isOpen = false := by simp [isOpen, hpaused]
          simp [hd.closed hclosed, unsettledIn, room, hpaused]
      | false =>
          have hfull : ¬(q.active + (q.unsettledIn front).length < q.limit) :=
            fun hlt => hopen (isOpen_iff.mpr ⟨hpaused, hlt⟩)
          rw [room, hpaused, if_neg Bool.false_ne_true]
          omega
    rw [← hroom, List.take_left, List.drop_left, List.length_append,
      Nat.min_eq_left (Nat.le_add_right _ _)]
    exact ⟨rfl, rfl, rfl⟩

theorem drain_of_paused {q : Queue α} (h : q.paused = true) : q.drain = (q, []) := by
  obtain ⟨front, rest, hd⟩ := q.exists_drains q.pending
  have hclosed : q.isOpen = false := by simp [isOpen, h]
  obtain rfl := hd.closed hclosed
  have hrest : rest = q.pending := by simpa using hd.split.symm
  rw [drain_eq hd, hrest]
  rfl

namespace Watch

/-! ### One event on a paused queue -/

/-- No event but a resumption lets a paused queue take a job, and none but a clearing takes a
waiting job away. -/
structure Still (v u : Watch α) : Prop where
  paused : u.queue.paused = true
  taken : u.taken = v.taken
  active_le : u.queue.active ≤ v.queue.active

theorem apply_of_paused {v : Watch α} (h : v.queue.paused = true) {e : Happening α}
    (he : e ≠ .resume) :
    Still v (v.apply e) ∧ (e ≠ .clear → v.queue.pending <+: (v.apply e).queue.pending) := by
  cases e with
  | submit =>
      have heq : v.apply .submit = { v with queue := v.queue.enlist } := by
        have hdrain : v.queue.submit = (v.queue.enlist, []) := drain_of_paused h
        simp [apply, starting, hdrain]
      rw [heq]
      exact ⟨⟨h, rfl, Nat.le_refl _⟩, fun _ => List.prefix_append _ _⟩
  | pause => exact ⟨⟨rfl, rfl, Nat.le_refl _⟩, fun _ => List.prefix_rfl⟩
  | resume => exact absurd rfl he
  | clear =>
      refine ⟨⟨?_, rfl, ?_⟩, fun hc => absurd rfl hc⟩
      · exact (discardAll_invariant paused (fun q t => settle_paused q t _) _ _).trans h
      · exact Nat.le_of_eq (clear_active _)
  | cancel t =>
      refine ⟨⟨(settle_paused _ _ _).trans h, rfl, Nat.le_of_eq (settle_active _ _ _)⟩, fun _ => ?_⟩
      show v.queue.pending <+: (v.queue.cancel t).pending
      simp [cancel_pending]
  | begin t => exact ⟨⟨h, rfl, Nat.le_refl _⟩, fun _ => List.prefix_rfl⟩
  | finish t r =>
      have hpaused : (v.queue.leave t r).paused = true := by rw [leave_paused, h]
      have heq : v.apply (.finish t r) = v.leaving t r := by
        simp [apply_finish, drained, starting, leaving, drain_of_paused hpaused]
      rw [heq]
      refine ⟨⟨hpaused, rfl, ?_⟩, fun _ => ?_⟩
      · show (v.queue.leave t r).active ≤ _
        rw [leave_active]
        exact Nat.sub_le _ _
      · show _ <+: (v.queue.leave t r).pending
        simp [leave_pending]

theorem cancelled_of_apply {v : Watch α} {e : Happening α} {t : Nat}
    (h : (v.apply e).queue.outcome? t = some .cancelled) :
    v.queue.outcome? t = some .cancelled ∨ e = .cancel t := by
  cases e with
  | submit =>
      change v.queue.enlist.drain.1.outcome? t = _ at h
      rw [drain_outcome?, enlist_outcome?] at h
      exact .inl h
  | pause => exact .inl h
  | resume =>
      change v.queue.unpause.drain.1.outcome? t = _ at h
      rw [drain_outcome?] at h
      exact .inl h
  | clear => exact .inl ((clear_outcome?_iff (by simp)).mp h)
  | cancel s =>
      change (v.queue.settle s .cancelled).outcome? t = _ at h
      rw [outcome?_settle] at h
      split at h
      · rename_i hc
        exact .inr (by rw [hc.1])
      · exact .inl h
  | begin s => exact .inl h
  | finish s r =>
      change (v.queue.leave s r).drain.1.outcome? t = _ at h
      rw [drain_outcome?, leave_outcome?] at h
      split at h
      · cases r <;> simp at h
      · exact .inl h

theorem Run.cancelled {w v : Watch α} {es : List (Happening α)} (run : Run w es v) {t : Nat}
    (h : v.queue.outcome? t = some .cancelled) :
    w.queue.outcome? t = some .cancelled ∨ .cancel t ∈ es := by
  induction run with
  | nil => exact .inl h
  | snoc _ _ ih =>
      rcases cancelled_of_apply h with h | rfl
      · exact (ih h).imp_right (List.mem_append_left _)
      · exact .inr (List.mem_append_right _ (List.mem_singleton_self _))

/-- Beginnings and ends are added to the ones there are. -/
theorem begun_apply (v : Watch α) (e : Happening α) :
    (v.apply e).begun = v.begun ∨ ∃ t, e = .begin t ∧ (v.apply e).begun = v.begun ++ [t] := by
  cases e with
  | begin t => exact .inr ⟨t, rfl, rfl⟩
  | _ => exact .inl rfl

theorem finished_prefix_apply (v : Watch α) (e : Happening α) :
    v.finished <+: (v.apply e).finished := by
  cases e with
  | finish t r => exact List.prefix_append _ _
  | _ => exact List.prefix_rfl

theorem Run.finished_prefix {w v : Watch α} {es : List (Happening α)} (run : Run w es v) :
    w.finished <+: v.finished := by
  induction run with
  | nil => exact List.prefix_rfl
  | snoc _ _ ih => exact ih.trans (finished_prefix_apply _ _)

/-! ### From a pause to the next resumption -/

/-- What a pause of `w` holds back, once the events `es` have led to `v`. -/
structure Held (w : Watch α) (es : List (Happening α)) (v : Watch α) : Prop where
  /-- The queue is paused, and no job was taken. -/
  still : Still w v
  /-- The jobs counted as active are the ones that run. -/
  counted : w.queue.active = w.running.length ∧ v.queue.active = v.running.length
  /-- The jobs that began are among those that ran. -/
  begun : ∃ later, v.begun = w.begun ++ later ∧ ∀ t ∈ later, t ∈ w.running
  /-- The jobs that waited wait still, unless there was a clearing. -/
  waiting : .clear ∉ es → w.queue.pending <+: v.queue.pending
  /-- No event that can come next takes a job, and only a clearing takes a job away. -/
  next : ∀ e, v.Allows e → e ≠ .resume → Still v (v.apply e) ∧
    (e ≠ .clear → v.queue.pending <+: (v.apply e).queue.pending)
  /-- The jobs that ran are over, or they run and may begin and come to any end. -/
  running : ∀ t ∈ w.running, (∃ r, (t, r) ∈ v.finished) ∨
    t ∈ v.running ∧ (t ∉ v.begun → v.Allows (.begin t)) ∧
      (t ∈ v.begun → ∀ r, v.Allows (.finish t r))
  /-- A job that ran has the outcome of its own end, unless it was cancelled. -/
  outcome : ∀ t ∈ w.running, ∀ r, (t, r) ∈ v.finished → v.queue.outcome? t = r.map .ended ∨
    v.queue.outcome? t = some .cancelled ∧
      (w.queue.outcome? t = some .cancelled ∨ .cancel t ∈ es)

/-- What a resumption of `v` lets go: as many of the unsettled jobs as there is room for, the
oldest ones. -/
structure Released (limit : Int) (v : Watch α) : Prop where
  limit_eq : (v.queue.limit : Int) = limit
  active_le : v.queue.active ≤ v.queue.limit
  ordered : v.queue.unsettled.Pairwise (· < ·)
  taken : (v.apply .resume).taken = v.taken ++
    v.queue.unsettled.take (min (v.queue.limit - v.queue.active) v.queue.unsettled.length)
  active : (v.apply .resume).queue.active =
    v.queue.active + min (v.queue.limit - v.queue.active) v.queue.unsettled.length
  unsettled : (v.apply .resume).queue.unsettled =
    v.queue.unsettled.drop (min (v.queue.limit - v.queue.active) v.queue.unsettled.length)
  unpaused : (v.apply .resume).queue.paused = false

theorem Reached.released {limit : Int} {v : Watch α} (h : Reached limit v) :
    Released limit v := by
  have hbound : v.queue.unpause.active ≤ v.queue.unpause.limit := h.sound.manned.bounded
  have hroom : v.queue.unpause.room = v.queue.limit - v.queue.active := rfl
  have hunsettled : v.queue.unpause.unsettled = v.queue.unsettled := rfl
  obtain ⟨htaken, hleft, hactive⟩ := drain_room hbound
  rw [hroom, hunsettled] at htaken hleft hactive
  exact {
    limit_eq := h.limit_eq
    active_le := hbound
    ordered := h.sound.pending_ordered.sublist List.filter_sublist
    taken := by
      show v.taken ++ v.queue.unpause.drain.2 = _
      rw [htaken, ← List.take_eq_take_min]
    active := hactive
    unsettled := by
      show v.queue.unpause.drain.1.unsettled = _
      rw [hleft]
      rcases Nat.le_total (v.queue.limit - v.queue.active) v.queue.unsettled.length with hle | hle
      · rw [Nat.min_eq_left hle]
      · rw [Nat.min_eq_right hle, List.drop_of_length_le hle, List.drop_length]
    unpaused := drain_paused v.queue.unpause }

/-- What holds along a run on a paused queue. -/
theorem Run.held {w v : Watch α} {es : List (Happening α)} (hw : w.Sound)
    (run : Run (w.apply .pause) es v) (hes : .resume ∉ es) :
    Still w v ∧ (∃ later, v.begun = w.begun ++ later ∧ ∀ t ∈ later, t ∈ w.running) ∧
      (.clear ∉ es → w.queue.pending <+: v.queue.pending) := by
  induction run with
  | nil => exact ⟨⟨rfl, rfl, Nat.le_refl _⟩, ⟨[], by simp [apply], by simp⟩,
      fun _ => List.prefix_rfl⟩
  | @snoc fs u e run he ih =>
      rw [List.mem_append, List.mem_singleton, not_or] at hes
      obtain ⟨hstill, ⟨later, hbegun, hlater⟩, hwait⟩ := ih hes.1
      have hu : u.Sound := run.sound (hw.apply (e := .pause) trivial)
      obtain ⟨hnext, hkeep⟩ := apply_of_paused hstill.paused (Ne.symm hes.2)
      refine ⟨⟨hnext.paused, hnext.taken.trans hstill.taken,
        Nat.le_trans hnext.active_le hstill.active_le⟩, ?_, fun hclear => ?_⟩
      · rcases begun_apply u e with hsame | ⟨t, rfl, hmore⟩
        · exact ⟨later, hsame.trans hbegun, hlater⟩
        -- the job that begins was taken before the pause, and was not over then
        · have hgone : t ∉ w.gone := fun hg => by
            obtain ⟨r, hr⟩ := mem_gone.mp hg
            have hr' := run.finished_prefix.subset hr
            exact he.2 (hu.gone_begun t (mem_gone.mpr ⟨r, hr'⟩))
          have hrun : t ∈ w.running := mem_running.mpr ⟨hstill.taken ▸ he.1, hgone⟩
          refine ⟨later ++ [t], by rw [hmore, hbegun, List.append_assoc], fun s hs => ?_⟩
          rcases List.mem_append.mp hs with hs | hs
          · exact hlater s hs
          · rw [List.mem_singleton.mp hs]
            exact hrun
      · rw [List.mem_append, List.mem_singleton, not_or] at hclear
        exact (hwait hclear.1).trans (hkeep (Ne.symm hclear.2))

/-- From a pause to the next resumption nothing is taken and only a clearing takes waiting jobs
away, while the jobs that ran go on to their own outcomes; and the resumption takes the oldest
unsettled jobs, as many as there is room for. -/
theorem pause_holds_resume_releases {limit : Int} {w v : Watch α} {es : List (Happening α)}
    (hw : Reached limit w) (run : Run (w.apply .pause) es v) (hes : .resume ∉ es) :
    Held w es v ∧ Released limit v := by
  have hpause : Run w [.pause] (w.apply .pause) := Run.nil.snoc trivial
  have hv : Reached limit v := (hw.append hpause).append run
  obtain ⟨hstill, hbegun, hwait⟩ := run.held hw.sound hes
  refine ⟨?_, hv.released⟩
  exact {
    still := hstill
    counted := ⟨hw.sound.manned.active_eq, hv.sound.manned.active_eq⟩
    begun := hbegun
    waiting := hwait
    next := fun e _ he => apply_of_paused hstill.paused he
    running := by
      intro t ht
      by_cases hg : t ∈ v.gone
      · exact .inl (mem_gone.mp hg)
      · have htaken : t ∈ v.taken := by
          rw [hstill.taken]
          exact (mem_running.mp ht).1
        exact .inr ⟨mem_running.mpr ⟨htaken, hg⟩, fun hb => ⟨htaken, hb⟩, fun hb _ => ⟨hb, hg⟩⟩
    outcome := by
      intro t _ r hr
      exact (hv.sound.finished_outcome t r hr).imp_right fun hc => ⟨hc, run.cancelled hc⟩ }

/-- Two jobs run and three wait. During the pause one of the three is cancelled, one job ends and
one is broken off; the resumption takes the two jobs that are left. -/
theorem pause_holds_two_of_five :
    let start : Watch String := { queue := { limit := 2, limit_pos := by decide } }
    let before := [Happening.submit, .submit, .submit, .submit, .submit, .begin 0].foldl apply start
    let between := [Happening.cancel 2, .finish 0 (some "done"), .begin 1, .finish 1 none, .submit]
    let after := between.foldl apply (before.apply .pause)
    Held before between after ∧ Released 2 after ∧
      after.taken = [0, 1] ∧ after.queue.pending = [2, 3, 4, 5] ∧
      (after.apply .resume).taken = [0, 1, 3, 4] := by
  have hrun := run_of_allowsAll ({ queue := { limit := 2, limit_pos := by decide } } : Watch String)
    [.submit, .submit, .submit, .submit, .submit, .begin 0] (by decide)
  have hbetween := run_of_allowsAll
    (([Happening.submit, .submit, .submit, .submit, .submit, .begin 0].foldl apply
      ({ queue := { limit := 2, limit_pos := by decide } } : Watch String)).apply .pause)
    [.cancel 2, .finish 0 (some "done"), .begin 1, .finish 1 none, .submit] (by decide)
  have hreached : Reached 2 _ := ⟨_, _, rfl, hrun⟩
  obtain ⟨hheld, hreleased⟩ := pause_holds_resume_releases hreached hbetween (by simp)
  exact ⟨hheld, hreleased, by decide, by decide, by decide⟩

end Watch

end Queue

end Soundworks
