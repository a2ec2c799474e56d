import Soundworks.Proofs.Studio.Performer
import Soundworks.Proofs.Studio.Seating
/-!
What every move of a studio preserves if calls wait and their outputs last: the jobs of the queue
that run are those that may start and those whose calls wait, and whoever succeeded has left a
file at its output.
-/

namespace Soundworks

namespace Floor

/-- A report of a job tells of a file that is there. -/
def Made (f : Floor) (ticket : Nat) (x : Report) : Prop :=
  ∃ j, f.jobs[ticket]? = some j ∧ x.outputPath = f.studio.place.resolve j.output ∧
    f.tree.isFile x.outputPath = true

/-- What holds on a floor on which the given jobs of the queue run. -/
structure Holds (f : Floor) (running : List Nat) : Prop where
  orderly : f.queue.Orderly running
  numbered : f.queue.nextTicket = f.jobs.length
  shut : f.gates.opened = []
  grounded : f.tree.Grounded
  addressed : ∀ x ∈ f.calling, x.2.2.output = f.studio.place.resolve x.2.1.output
  seated : ∀ t j c, (.queued t, j, c) ∈ f.calling → f.jobs[t]? = some j
  made : ∀ t x, f.queue.outcome? t = some (.ended x) → x.success = true → f.Made t x

/-- The jobs that run are those that may start and those whose calls wait. -/
def Sound (s : Next) : Prop := s.1.Holds (entering s.2 ++ s.1.outstanding)

namespace Holds

variable {f : Floor} {running : List Nat}

/-- Nothing is said of the jobs on their own. -/
theorem onSingles (h : f.Holds running) (singles : List (Option Report)) :
    Holds { f with singles } running :=
  ⟨h.orderly, h.numbered, h.shut, h.grounded, h.addressed, h.seated, h.made⟩

theorem job_of_mem (h : f.Holds running) {t : Nat} (ht : t ∈ running) :
    ∃ j, f.jobs[t]? = some j := by
  have hlt := h.orderly.lt_nextTicket ht
  rw [h.numbered] at hlt
  exact ⟨_, List.getElem?_eq_getElem hlt⟩

end Holds

/-! ### The start of a job -/

/-- A job that starts is over at once, or makes a call that waits. -/
theorem enter_cases {p : Performer} (hp : p.Suspends) {f : Floor} (hf : f.gates.opened = [])
    (r : Seat) (j : Job) :
    (∃ e tree, j.prepare f.studio f.tree = (.error e, tree) ∧
      f.enter p r j = ({ f with tree } : Floor).finish r (j.failed e)) ∨
    ∃ c tree gates most, j.prepare f.studio f.tree = (.ok c, tree) ∧ gates.opened = [] ∧
      f.enter p r j = ({ f with
        tree, gates
        calling := f.calling ++ [(r, j, c)]
        calls := f.calls ++ [c]
        mostCalling := most }, []) := by
  unfold enter
  split
  · rename_i e tree h
    exact .inl ⟨e, tree, h, rfl⟩
  · rename_i c tree h
    obtain ⟨gate, hgate⟩ := Option.isSome_iff_exists.mp (hp c)
    have hwaits : (p.gate? c).filter (fun gate => !f.gates.isOpen gate) = some gate := by
      simp [hgate, Gates.isOpen, hf]
    refine .inr ⟨c, tree, f.gates.wait gate r,
      max f.mostCalling (f.calling ++ [(r, j, c)]).length, h, hf, ?_⟩
    dsimp only
    rw [hwaits]

/-! ### The gates -/

theorem opened_enter (p : Performer) (f : Floor) (r : Seat) (j : Job) :
    (f.enter p r j).1.gates.opened = f.gates.opened := by
  rcases hprep : j.prepare f.studio f.tree with ⟨e | c, tree⟩
  · rw [enter_of_error p r hprep, finish_gates]
  · rcases enter_of_call p r hprep with ⟨gate, -, heq⟩ | heq
    · rw [heq]
      rfl
    · rw [heq, answer_eq, finish_gates]
      rfl

theorem Move.opened {p : Performer} {s s' : Next} (m : Move p s s') :
    s'.1.gates.opened = s.1.gates.opened := by
  cases m with
  | wake f turns r waiting => rfl
  | begin f turns a =>
      cases a with
      | single j answer => exact opened_enter p _ _ j
      | _ => rfl
  | turn f before i after =>
      cases i with
      | enter t =>
          cases hj : f.jobs[t]? with
          | none => simp [step, hj]
          | some j =>
              rw [step_enter hj]
              exact opened_enter p f _ j
      | answer r =>
          rcases step_answer_cases p f r with ⟨j, c, -, heq⟩ | heq
          · rw [heq, answer_eq, finish_gates]
          · rw [heq]

/-! ### The files -/

/-- Everything stands in a directory, and whoever succeeded has left a file. -/
structure Stocked (f : Floor) : Prop where
  grounded : f.tree.Grounded
  made : ∀ t x, f.queue.outcome? t = some (.ended x) → x.success = true → f.Made t x

theorem Made.mono {f f' : Floor} {t : Nat} {x : Report} (h : f.Made t x) (hk : f.Keeps f')
    (hf : ∀ path, f.tree.isFile path = true → f'.tree.isFile path = true) : f'.Made t x := by
  obtain ⟨j, hj, hpath, hfile⟩ := h
  exact ⟨j, hk.job hj, by rw [hk.studio, hpath], hf _ hfile⟩

theorem success_conclude {j : Job} {c : EngineCall} {result : Except Failure Unit} :
    (j.conclude c result).success = true ↔ result = .ok () := by
  cases result <;> simp [Job.conclude, Job.report]

theorem outputPath_conclude (j : Job) (c : EngineCall) (result : Except Failure Unit) :
    (j.conclude c result).outputPath = c.output := by
  cases result <;> rfl

/-- No effect takes away a file or its directory. -/
theorem Effect.grows {p : Performer} (hl : p.Lasting) {adds : Prop} {s s' : Standing}
    (e : Effect p adds s s') (h : s.1.tree.Grounded) :
    s'.1.tree.Grounded ∧ ∀ path, s.1.tree.isFile path = true → s'.1.tree.isFile path = true := by
  rcases e.tree with htree | ⟨j, htree⟩ | ⟨-, -, c, -, htree⟩
  · rw [htree]
    exact ⟨h, fun _ => id⟩
  · have hgrows := j.grows_prepare s.1.studio s.1.tree
    rw [htree]
    exact ⟨hgrows.grounded h, fun _ => hgrows.isFile⟩
  · rw [htree]
    exact ⟨hl.grounded c _ h, fun path => hl.keeps c _ path⟩

theorem Stocked.effect {p : Performer} (hl : p.Lasting) {adds : Prop} {s s' : Standing}
    (hs : s.1.Seated s.2) (h : s.1.Stocked) (e : Effect p adds s s') : s'.1.Stocked where
  grounded := (e.grows hl h.grounded).1
  made := by
    intro t x hx hsuccess
    rcases hs.ended e hx with hx | ⟨j, hj, ⟨setback, tree, -, rfl⟩ | ⟨c, waits, rfl, htree⟩⟩
    · exact (h.made t x hx hsuccess).mono e.keeps (e.grows hl h.grounded).2
    -- success is told only after a call, which has left the file
    · simp [Job.failed, Job.report] at hsuccess
    · refine ⟨j, e.keeps.job hj, ?_, ?_⟩
      · rw [outputPath_conclude, e.keeps.studio]
        exact hs.addressed _ waits
      · rw [outputPath_conclude, htree]
        exact hl.writes c s.1.tree _ (Prod.ext (success_conclude.mp hsuccess) rfl)

/-! ### Every move -/

namespace Sound

variable {p : Performer} {s s' : Next}

theorem standing (h : Sound s) : (standing s).1.Seated (standing s).2 :=
  ⟨h.orderly, h.numbered, h.addressed, h.seated⟩

theorem of_standing (hs : (Floor.standing s).1.Seated (Floor.standing s).2)
    (hf : s.1.Stocked) (hg : s.1.gates.opened = []) : Sound s :=
  ⟨hs.orderly, hs.numbered, hg, hf.grounded, hs.addressed, hs.seated, hf.made⟩

/-- Every move keeps what holds on a floor. -/
theorem move (hl : p.Lasting) (h : Sound s) (m : Move p s s') : Sound s' := by
  have hs := h.standing
  have heffects : Effects p True (Floor.standing s) (Floor.standing s') :=
    hs.move_effects m fun hno => absurd trivial hno
  refine of_standing (hs.effects heffects) ?_ (m.opened.trans h.shut)
  exact hs.induct (I := fun s => s.1.Stocked) (fun _ _ hs hf e => hf.effect hl hs e)
    ⟨h.grounded, h.made⟩ heffects

theorem leads (hl : p.Lasting) (h : Sound s) (run : Leads p s s') : Sound s' := by
  induction run with
  | refl => exact h
  | tail _ m ih => exact ih.move hl m

end Sound

theorem Reached.sound {p : Performer} (hl : p.Lasting) {limit : Int} {s : Next}
    (h : Reached p limit s) : Sound s := by
  obtain ⟨studio, tree, queue, hg, hq, run⟩ := h
  refine Sound.leads hl (s := ({ studio, queue, tree }, [])) ?_ run
  refine Sound.of_standing (seated_fresh studio tree hq) ?_ rfl
  refine ⟨hg, fun t x hx => ?_⟩
  have hlt : t < queue.nextTicket := Queue.lt_nextTicket_of_outcome? hx
  rw [Queue.nextTicket_of_ofLimit? hq] at hlt
  exact absurd hlt (Nat.not_lt_zero t)

end Floor

end Soundworks
