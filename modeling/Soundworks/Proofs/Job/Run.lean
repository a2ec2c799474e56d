import Soundworks.Proofs.Files.Directories
import Soundworks.Proofs.Files.Discovery
import Soundworks.Proofs.Job.Preparation
import Soundworks.Studio.Floor
/-!
A job from its start to its report. It calls the engine exactly if it is admitted, and at most
once; its report tells of success exactly if the call succeeded. A job with an input that is
refused, or with an output that may not be replaced, leaves the files as they are.
-/

namespace Soundworks

namespace FileTree

theorem eq_resolve_of_input {t : FileTree} {w : Workplace} {path input : String}
    (h : t.input w path = .ok input) : input = w.resolve path :=
  (FileTree.input_eq_ok.mp h).1

/-- The inputs of a job, once they are found, are their absolute paths. -/
theorem inputs_eq_ok {t : FileTree} {w : Workplace} {paths inputs : List String} :
    paths.mapM (t.input w) = .ok inputs ↔
      inputs = paths.map w.resolve ∧ ∀ path ∈ paths, ∃ input, t.input w path = .ok input := by
  rw [Fallible.mapM_eq_ok]
  constructor
  · intro h
    induction h with
    | nil => exact ⟨rfl, fun path hpath => absurd hpath List.not_mem_nil⟩
    | @cons path input paths inputs hinput _ ih =>
        refine ⟨by rw [List.map_cons, ← eq_resolve_of_input hinput, ← ih.1], ?_⟩
        intro path' hpath'
        rcases List.mem_cons.mp hpath' with rfl | hpath'
        · exact ⟨input, hinput⟩
        · exact ih.2 path' hpath'
  · rintro ⟨rfl, hinputs⟩
    rw [List.forall₂_map_right_iff, List.forall₂_same]
    intro path hpath
    obtain ⟨input, hinput⟩ := hinputs path hpath
    rw [hinput, eq_resolve_of_input hinput]

theorem output_of_none {t : FileTree} {w : Workplace} {path : String}
    (h : (t.outputDirectory w (Path.parent (w.resolve path))).1 = none) :
    t.output w path =
      (.ok (w.resolve path), (t.outputDirectory w (Path.parent (w.resolve path))).2) := by
  unfold output
  dsimp only
  split
  · rename_i heq
    rw [heq]
  · rename_i heq
    rw [heq] at h
    cases h

theorem output_of_some {t : FileTree} {w : Workplace} {path : String} {e : OutputError}
    (h : (t.outputDirectory w (Path.parent (w.resolve path))).1 = some e) :
    t.output w path = (.error e, (t.outputDirectory w (Path.parent (w.resolve path))).2) := by
  unfold output
  dsimp only
  split
  · rename_i heq
    rw [heq] at h
    cases h
  · rename_i heq
    rw [heq] at h
    cases h
    rw [heq]

theorem vacant_eq_ok {t : FileTree} {w : Workplace} {path : String} {overwrite : Bool} :
    t.vacant w path overwrite = .ok () ↔
      t.present w.directory path = false ∨ overwrite = true := by
  unfold vacant
  cases t.present w.directory path <;> cases overwrite <;> simp

end FileTree

namespace Job

/-- The files after the directory of the output was made, as far as that is possible. -/
def withDirectory (j : Job) (s : Studio) (t : FileTree) : FileTree :=
  (t.outputDirectory s.place (Path.parent (s.place.resolve j.output))).2

/-- What a job needs to call the engine: its inputs are files that can be read, the directory of
its output is there or can be made, and can be written, its output is not there or may be replaced,
and its operations have a plan. -/
structure Admitted (j : Job) (s : Studio) (t : FileTree) : Prop where
  inputs : ∀ path ∈ j.inputs, t.Accepts s.place path
  directory : (t.makeDirectories s.place.rights (Path.parent (s.place.resolve j.output))).1 = none
  writable : s.place.rights.mayWrite (Path.parts (Path.parent (s.place.resolve j.output))) = true
  vacant : (j.withDirectory s t).present s.place.directory (s.place.resolve j.output) = false ∨
    j.overwrite = true
  plan : ∃ plan, j.operations.plan s.capability
    (j.engineInputs s.capability (j.inputs.map s.place.resolve)).length = .ok plan

/-- An input is refused, or the output is there and may not be replaced. -/
def Refused (j : Job) (s : Studio) (t : FileTree) : Prop :=
  (∃ path ∈ j.inputs, ¬t.Accepts s.place path) ∨
    t.present s.place.directory (s.place.resolve j.output) = true ∧ j.overwrite = false

/-! ### The call of a job -/

theorem call_eq_ok {j : Job} {s : Studio} {t : FileTree} {inputs : List String}
    {output : String} {c : EngineCall} :
    j.call s t inputs output = .ok c ↔
      (t.present s.place.directory output = false ∨ j.overwrite = true) ∧
      j.operations.plan s.capability (j.engineInputs s.capability inputs).length = .ok c.plan ∧
      c.inputs = j.engineInputs s.capability inputs ∧ c.output = output := by
  unfold call
  simp only [Fallible.bind_eq_ok, Fallible.mapError_eq_ok, Fallible.pure_eq_ok]
  constructor
  · rintro ⟨_, hvacant, plan, hplan, rfl⟩
    exact ⟨FileTree.vacant_eq_ok.mp hvacant, hplan, rfl, rfl⟩
  · rintro ⟨hvacant, hplan, hinputs, houtput⟩
    refine ⟨(), FileTree.vacant_eq_ok.mpr hvacant, c.plan, hplan, ?_⟩
    cases c
    simp_all

/-- How a job is prepared: an input is refused, nothing can be written in the directory, or all
depends on its call. -/
theorem prepare_cases (j : Job) (s : Studio) (t : FileTree) :
    (∃ e, j.inputs.mapM (t.input s.place) = .error e ∧
      j.prepare s t = (.error ⟨j.output, .input e⟩, t)) ∨
    j.inputs.mapM (t.input s.place) = .ok (j.inputs.map s.place.resolve) ∧
      ((∃ e, (t.outputDirectory s.place (Path.parent (s.place.resolve j.output))).1 = some e ∧
        j.prepare s t = (.error ⟨j.output, .output e⟩, j.withDirectory s t)) ∨
      (t.outputDirectory s.place (Path.parent (s.place.resolve j.output))).1 = none ∧
        j.prepare s t = ((j.call s (j.withDirectory s t) (j.inputs.map s.place.resolve)
          (s.place.resolve j.output)).mapError fun e => ⟨s.place.resolve j.output, e⟩,
          j.withDirectory s t)) := by
  cases hinputs : j.inputs.mapM (t.input s.place) with
  | error e => exact .inl ⟨e, rfl, by rw [prepare, hinputs]⟩
  | ok inputs =>
      obtain ⟨rfl, -⟩ := FileTree.inputs_eq_ok.mp hinputs
      refine .inr ⟨rfl, ?_⟩
      cases hdir : (t.outputDirectory s.place (Path.parent (s.place.resolve j.output))).1 with
      | some e =>
          refine .inl ⟨e, rfl, ?_⟩
          rw [prepare, hinputs, FileTree.output_of_some hdir]
          rfl
      | none =>
          refine .inr ⟨rfl, ?_⟩
          rw [prepare, hinputs, FileTree.output_of_none hdir]
          rfl

/-- A job is admitted if its inputs, the directory of its output and its output pass their tests. -/
theorem admitted_iff {j : Job} {s : Studio} {t : FileTree} : j.Admitted s t ↔
    (∀ path ∈ j.inputs, ∃ input, t.input s.place path = .ok input) ∧
      (t.outputDirectory s.place (Path.parent (s.place.resolve j.output))).1 = none ∧
      ((j.withDirectory s t).present s.place.directory (s.place.resolve j.output) = false ∨
        j.overwrite = true) ∧
      ∃ plan, j.operations.plan s.capability
        (j.engineInputs s.capability (j.inputs.map s.place.resolve)).length = .ok plan := by
  simp only [FileTree.exists_input_iff, FileTree.outputDirectory_eq_none]
  constructor
  · exact fun h => ⟨h.inputs, ⟨h.directory, h.writable⟩, h.vacant, h.plan⟩
  · rintro ⟨hinputs, ⟨hdirectory, hwritable⟩, hvacant, hplan⟩
    exact ⟨hinputs, hdirectory, hwritable, hvacant, hplan⟩

/-- A job gets to its call exactly if it is admitted. -/
theorem prepare_eq_ok_iff {j : Job} {s : Studio} {t : FileTree} :
    (∃ c, (j.prepare s t).1 = .ok c) ↔ j.Admitted s t := by
  rw [admitted_iff]
  rcases j.prepare_cases s t with ⟨e, hinputs, hprep⟩ | ⟨hinputs, ⟨e, hdir, hprep⟩ | ⟨hdir, hprep⟩⟩
  · rw [hprep]
    refine ⟨fun ⟨c, hc⟩ => (nomatch hc), fun ⟨hall, _⟩ => ?_⟩
    rw [FileTree.inputs_eq_ok.mpr ⟨rfl, hall⟩] at hinputs
    cases hinputs
  · rw [hprep]
    refine ⟨fun ⟨c, hc⟩ => (nomatch hc), fun ⟨_, hnone, _⟩ => ?_⟩
    rw [hnone] at hdir
    cases hdir
  · rw [hprep]
    simp only [Fallible.mapError_eq_ok, call_eq_ok]
    constructor
    · rintro ⟨c, hvacant, hplan, -⟩
      exact ⟨(FileTree.inputs_eq_ok.mp hinputs).2, hdir, hvacant, c.plan, hplan⟩
    · rintro ⟨-, -, hvacant, plan, hplan⟩
      exact ⟨⟨plan, _, _⟩, hvacant, hplan, rfl, rfl⟩

/-- A call is made when the directory of its output is there. -/
theorem tree_of_prepare {j : Job} {s : Studio} {t t' : FileTree} {c : EngineCall}
    (h : j.prepare s t = (.ok c, t')) : t' = j.withDirectory s t := by
  rcases j.prepare_cases s t with ⟨e, -, hprep⟩ | ⟨-, ⟨e, -, hprep⟩ | ⟨-, hprep⟩⟩
  · rw [hprep] at h
    cases h
  · rw [hprep] at h
    cases h
  · rw [hprep] at h
    exact (Prod.mk.inj h).2.symm

theorem prepare_of_call {j : Job} {s : Studio} {t : FileTree} {c : EngineCall}
    (h : (j.prepare s t).1 = .ok c) : j.prepare s t = (.ok c, j.withDirectory s t) := by
  rcases hprep : j.prepare s t with ⟨result, tree⟩
  rw [hprep] at h
  cases h
  rw [tree_of_prepare hprep]

theorem Refused.prepare {j : Job} {s : Studio} {t : FileTree} (h : j.Refused s t) :
    ∃ e, j.prepare s t = (.error e, t) := by
  rcases j.prepare_cases s t with ⟨e, hinputs, hprep⟩ | ⟨hinputs, hrest⟩
  · exact ⟨_, hprep⟩
  rcases h with ⟨path, hpath, hrefused⟩ | ⟨hpresent, hkeep⟩
  · have hinput := (FileTree.inputs_eq_ok.mp hinputs).2 path hpath
    exact absurd (FileTree.exists_input_iff.mp hinput) hrefused
  -- the output stands in a directory, so there is none to be made
  · have hdir := FileTree.isDirectory_parent_of_present
      (s.place.isAbsolute_resolve j.output) hpresent
    have hsame : t.makeDirectories s.place.rights (Path.parent (s.place.resolve j.output)) =
        (none, t) := if_pos hdir
    have htree : j.withDirectory s t = t := by
      rw [withDirectory, FileTree.snd_outputDirectory, hsame]
    rw [htree] at hrest
    rcases hrest with ⟨e, -, hprep⟩ | ⟨-, hprep⟩
    · exact ⟨_, hprep⟩
    · have hfails : ∀ c, j.call s t (j.inputs.map s.place.resolve)
          (s.place.resolve j.output) ≠ .ok c := by
        intro c hc
        rcases (call_eq_ok.mp hc).1 with habsent | hover
        · rw [hpresent] at habsent
          cases habsent
        · rw [hkeep] at hover
          cases hover
      cases hcall : j.call s t (j.inputs.map s.place.resolve) (s.place.resolve j.output) with
      | ok c => exact absurd hcall (hfails c)
      | error e =>
          rw [hcall] at hprep
          exact ⟨_, hprep⟩

/-! ### A whole run -/

/-- What comes of a job: its report, the calls that were made, and the files that are left. -/
structure Run where
  report : Report
  calls : List EngineCall
  tree : FileTree

def run (j : Job) (p : Performer) (s : Studio) (t : FileTree) : Run :=
  match j.prepare s t with
  | (.error e, t) => { report := j.failed e, calls := [], tree := t }
  | (.ok c, t) =>
    { report := j.conclude c (p.perform c t).1, calls := [c], tree := (p.perform c t).2 }

theorem run_of_error {j : Job} {s : Studio} {t t' : FileTree} {e : Setback}
    (h : j.prepare s t = (.error e, t')) (p : Performer) :
    j.run p s t = { report := j.failed e, calls := [], tree := t' } := by
  rw [run, h]

theorem run_of_call {j : Job} {s : Studio} {t t' : FileTree} {c : EngineCall}
    (h : j.prepare s t = (.ok c, t')) (p : Performer) :
    j.run p s t =
      { report := j.conclude c (p.perform c t').1, calls := [c], tree := (p.perform c t').2 } := by
  rw [run, h]

theorem report_run_of_error {j : Job} {s : Studio} {t : FileTree} {e : Setback} {p : Performer}
    (h : (j.prepare s t).1 = .error e) : (j.run p s t).report = j.failed e := by
  rcases hprep : j.prepare s t with ⟨result, tree⟩
  rw [hprep] at h
  cases h
  rw [run_of_error hprep]

/-- A report of a job that is done. -/
structure Reports (j : Job) (x : Report) : Prop where
  input : x.inputPath = ", ".intercalate j.inputs
  operations : x.operations = j.operations
  success : x.success = true ↔ x.error = none

theorem reports_report (j : Job) (output : String) (error : Option String) :
    j.Reports (j.report output error) := ⟨rfl, rfl, Option.isNone_iff_eq_none⟩

theorem reports_run (j : Job) (p : Performer) (s : Studio) (t : FileTree) :
    j.Reports (j.run p s t).report := by
  rcases hprep : j.prepare s t with ⟨e | c, t'⟩
  · rw [run_of_error hprep]
    exact j.reports_report _ _
  · rw [run_of_call hprep]
    cases (p.perform c t').1 <;> exact j.reports_report _ _

theorem length_calls_run (j : Job) (p : Performer) (s : Studio) (t : FileTree) :
    (j.run p s t).calls.length ≤ 1 := by
  rcases hprep : j.prepare s t with ⟨e | c, t'⟩
  · rw [run_of_error hprep]
    exact Nat.zero_le 1
  · rw [run_of_call hprep]
    exact Nat.le_refl 1

theorem calls_run_ne_nil_iff {j : Job} {p : Performer} {s : Studio} {t : FileTree} :
    (j.run p s t).calls ≠ [] ↔ j.Admitted s t := by
  rw [← prepare_eq_ok_iff]
  rcases hprep : j.prepare s t with ⟨e | c, t'⟩
  · rw [run_of_error hprep]
    simp
  · rw [run_of_call hprep]
    simp

/-- A job succeeds exactly if it has made a call that succeeded. -/
theorem success_run_iff {j : Job} {p : Performer} {s : Studio} {t : FileTree} :
    (j.run p s t).report.success = true ↔
      ∃ c ∈ (j.run p s t).calls, (p.perform c (j.withDirectory s t)).1 = .ok () := by
  rcases hprep : j.prepare s t with ⟨e | c, t'⟩
  · rw [run_of_error hprep]
    simp [failed, report]
  · rw [run_of_call hprep, ← tree_of_prepare hprep]
    cases hresult : (p.perform c t').1 <;> simp [conclude, report, hresult]

theorem Refused.run {j : Job} {s : Studio} {t : FileTree} (h : j.Refused s t) (p : Performer) :
    (j.run p s t).calls = [] ∧ (j.run p s t).tree = t := by
  obtain ⟨e, hprep⟩ := h.prepare
  rw [run_of_error hprep]
  exact ⟨rfl, rfl⟩

end Job

end Soundworks
