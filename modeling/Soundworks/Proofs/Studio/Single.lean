import Soundworks.Proofs.Job.Run
import Soundworks.Proofs.Studio.Effect
/-!
Jobs on their own. On a floor on which nothing else happens, a job comes to what a run of it comes
to: one report, at most one call, and the files that are left, whether or not its call has to wait.
-/

namespace Soundworks

namespace Floor

def alone (p : Performer) (s : Studio) (q : Queue Report) (t : FileTree) (j : Job) : Floor :=
  complete p (runSingle p { studio := s, queue := q, tree := t } j)

/-! ### Nothing is ready -/

theorem settle_nil (p : Performer) (f : Floor) : settle p (f, []) = f := by
  unfold settle
  cases turnBound f <;> rfl

theorem answerInOrder_of_nobody (p : Performer) (n : Nat) {f : Floor}
    (h : f.gates.waiting = []) : answerInOrder p n f = f := by
  cases n with
  | zero => rfl
  | succ n => simp [answerInOrder, h]

theorem complete_of_nobody (p : Performer) {f : Floor} (h : f.gates.waiting = []) :
    complete p (f, []) = f := by
  unfold complete
  rw [settle_nil]
  exact answerInOrder_of_nobody p _ h

/-! ### One job waits -/

def relieved (f : Floor) : Floor := { f with gates := { f.gates with waiting := [] } }

theorem answer_single (p : Performer) (f : Floor) (n : Nat) (j : Job) (c : EngineCall) :
    f.answer p (.single n) j c =
      ({ f with
        tree := (p.perform c f.tree).2
        calling := f.calling.filter fun x => x.1 ≠ .single n
        singles := f.singles.set n (some (j.conclude c (p.perform c f.tree).1)) }, []) := rfl

theorem settle_answer (p : Performer) {f : Floor} {n : Nat} {j : Job} {c : EngineCall}
    (hc : f.calling = [(.single n, j, c)]) {m : Nat} (hm : f.turnBound = m + 1) :
    settle p (f, [.answer (.single n)]) = (f.answer p (.single n) j c).1 := by
  have hstep : f.step p (.answer (.single n)) = f.answer p (.single n) j c := by
    simp [step, hc]
  unfold settle
  rw [hm, runReady, hstep, answer_single]
  cases m <;> rfl

theorem complete_of_waiting (p : Performer) {f : Floor} {n : Nat} {j : Job} {c : EngineCall}
    (hw : ∃ gate, f.gates.waiting = [(gate, .single n)]) (hc : f.calling = [(.single n, j, c)])
    (hs : f.singles ≠ []) : complete p (f, []) = (f.relieved.answer p (.single n) j c).1 := by
  obtain ⟨gate, hw⟩ := hw
  obtain ⟨m, hm⟩ : ∃ m, f.turnBound = m + 1 := by
    refine Nat.exists_eq_succ_of_ne_zero ?_
    have hpos := List.length_pos_iff.mpr hs
    unfold turnBound
    omega
  have hrelease : f.gates.releaseFirst = (f.relieved.gates, [.single n]) := by
    simp [Gates.releaseFirst, hw, relieved]
  have hanswer : answerInOrder p (m + 1) f =
      answerInOrder p m (settle p (f.relieved, [.answer (.single n)])) := by
    rw [answerInOrder, hw, hrelease]
    rfl
  have hsettle : settle p (f.relieved, [.answer (.single n)]) =
      (f.relieved.answer p (.single n) j c).1 := settle_answer p hc hm
  show answerInOrder p (settle p (f, [])).turnBound (settle p (f, [])) = _
  rw [settle_nil, hm, hanswer, hsettle]
  exact answerInOrder_of_nobody p m rfl

/-! ### The whole job -/

theorem complete_enter (p : Performer) {f : Floor} (hw : f.gates.waiting = [])
    (hc : f.calling = []) (hs : f.singles = [none]) (j : Job) :
    (complete p (f.enter p (.single 0) j)).singles = [some (j.run p f.studio f.tree).report] ∧
      (complete p (f.enter p (.single 0) j)).calls = f.calls ++ (j.run p f.studio f.tree).calls ∧
      (complete p (f.enter p (.single 0) j)).tree = (j.run p f.studio f.tree).tree := by
  rcases hprep : j.prepare f.studio f.tree with ⟨e | c, t⟩
  · rw [enter_of_error p _ hprep, finish_single, complete_of_nobody p (by exact hw),
      Job.run_of_error hprep]
    simp [hs]
  · rw [Job.run_of_call hprep]
    rcases enter_of_call p (.single 0) hprep with ⟨gate, -, heq⟩ | heq
    -- the call waits, and the answer comes when nothing else is left to do
    · rw [heq, complete_of_waiting p (n := 0) (j := j) (c := c)]
      · simp [answer_single, relieved, called, hs]
      · exact ⟨gate, by simp [Gates.wait, hw]⟩
      · simp [called, hc]
      · simp [called, hs]
    · rw [heq, answer_single, complete_of_nobody p (by exact hw)]
      simp [called, hs]

/-- A job on its own comes to what a run of it comes to. -/
theorem alone_eq_run (p : Performer) (s : Studio) (q : Queue Report) (t : FileTree) (j : Job) :
    (alone p s q t j).singles = [some (j.run p s t).report] ∧
      (alone p s q t j).calls = (j.run p s t).calls ∧
      (alone p s q t j).tree = (j.run p s t).tree :=
  complete_enter p (f := { studio := s, queue := q, tree := t, singles := [none] }) rfl rfl rfl j

/-- A job on its own gives one report, which names its inputs and operations and tells of success
if it names no error. It calls the engine at most once, and exactly if it is admitted; it succeeds
exactly if the call does. If it is refused there is no call, and the files stay as they are. -/
theorem job_done_alone (p : Performer) (s : Studio) (q : Queue Report) (t : FileTree)
    (j : Job) :
    ∃ x, (alone p s q t j).singles = [some x] ∧ j.Reports x ∧
      (alone p s q t j).calls.length ≤ 1 ∧
      ((alone p s q t j).calls ≠ [] ↔ j.Admitted s t) ∧
      (x.success = true ↔ ∃ c ∈ (alone p s q t j).calls,
        (p.perform c (j.withDirectory s t)).1 = .ok ()) ∧
      (j.Refused s t → (alone p s q t j).calls = [] ∧ (alone p s q t j).tree = t) := by
  obtain ⟨hsingles, hcalls, htree⟩ := alone_eq_run p s q t j
  rw [hcalls, htree]
  exact ⟨_, hsingles, j.reports_run p s t, j.length_calls_run p s t, Job.calls_run_ne_nil_iff,
    Job.success_run_iff, fun h => h.run p⟩

end Floor

end Soundworks
