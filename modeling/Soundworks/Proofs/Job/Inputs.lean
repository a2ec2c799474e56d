import Soundworks.Proofs.Filter.Computed
import Soundworks.Proofs.Job.Run
import Soundworks.Proofs.Plan.Command
import Soundworks.Proofs.Validation.Writable
import Soundworks.Studio.Performer
/-!
The inputs of a call. A job decides how often the engine reads an input, and the plan decides which
streams its graph takes; for every count of inputs and of layers the two agree, so no graph takes
the stream of an input that is not there. There is a plan unless a loop has more plays than can be
written, and no text tells of so many.
-/

namespace Soundworks

namespace OperationSet

end OperationSet

namespace EngineCall

/-- A call that reads some files once each and mixes nothing. -/
structure Plain (c : EngineCall) (paths : List String) : Prop where
  inputs : c.inputs = paths
  graph : c.plan.graph = none

end EngineCall

namespace Job

section

variable {j : Job} {c : Capability} {paths : List String} {layers : List Layer}

theorem engineInputs_of_none (hl : j.operations.mixedLayers c = none) :
    j.engineInputs c paths = paths := by
  unfold engineInputs
  rw [hl]
  split
  · rename_i hsome
    cases hsome
  · rfl

theorem engineInputs_single (hl : j.operations.mixedLayers c = some layers) (path : String) :
    j.engineInputs c [path] = List.replicate layers.length path := by
  simp only [engineInputs, hl]

theorem engineInputs_several (h : paths.length ≠ 1) : j.engineInputs c paths = paths := by
  unfold engineInputs
  split
  · exact absurd rfl h
  · rfl

variable {v : Value} (h : OperationSet.form.validate v = .ok j.operations)

include h

theorem one_le_length_engineInputs (hne : paths ≠ []) :
    1 ≤ (j.engineInputs c paths).length := by
  rw [Nat.one_le_iff_ne_zero, ne_eq, List.length_eq_zero_iff]
  by_cases hsingle : paths.length = 1
  · obtain ⟨path, rfl⟩ := List.length_eq_one_iff.mp hsingle
    cases hl : j.operations.mixedLayers c with
    | none => rwa [engineInputs_of_none hl]
    | some layers =>
        rw [engineInputs_single hl]
        simpa using OperationSet.mixedLayers_ne_nil h hl
  · rwa [engineInputs_several hsingle]

omit h in
theorem of_prepare {s : Studio} {t : FileTree} {call : EngineCall}
    (hcall : (j.prepare s t).1 = .ok call) :
    call.inputs = j.engineInputs s.capability (j.inputs.map s.place.resolve) ∧
      call.output = s.place.resolve j.output ∧
      j.operations.plan s.capability call.inputs.length = .ok call.plan := by
  rcases j.prepare_cases s t with ⟨e, -, hprep⟩ | ⟨-, ⟨e, -, hprep⟩ | ⟨-, hprep⟩⟩
  · rw [hprep] at hcall
    cases hcall
  · rw [hprep] at hcall
    cases hcall
  · simp only [hprep, Fallible.mapError_eq_ok, call_eq_ok] at hcall
    obtain ⟨-, hplan, hinputs, houtput⟩ := hcall
    rw [← hinputs] at hplan
    exact ⟨hinputs, houtput, hplan⟩

omit h in
theorem mem_calls_run {p : Performer} {s : Studio} {t : FileTree} {call : EngineCall} :
    call ∈ (j.run p s t).calls ↔ (j.prepare s t).1 = .ok call := by
  rcases hprep : j.prepare s t with ⟨e | c, t'⟩
  · rw [run_of_error hprep]
    simp
  · rw [run_of_call hprep]
    simp [eq_comm]

/-- A job makes its call if its loop can be written and its files allow it. -/
theorem calls_run_ne_nil_iff_of_validate {p : Performer} {s : Studio} {t : FileTree}
    (hne : j.inputs ≠ []) :
    (j.run p s t).calls ≠ [] ↔ j.operations.Writable ∧
      (∀ path ∈ j.inputs, ∃ input, t.input s.place path = .ok input) ∧
      (t.outputDirectory s.place (Path.parent (s.place.resolve j.output))).1 = none ∧
      ((j.withDirectory s t).present s.place.directory (s.place.resolve j.output) = false ∨
        j.overwrite = true) := by
  have hinputs : 1 ≤ (j.engineInputs s.capability (j.inputs.map s.place.resolve)).length :=
    one_le_length_engineInputs h (by simpa using hne)
  rw [calls_run_ne_nil_iff, admitted_iff]
  constructor
  · rintro ⟨hinputs, hdirectory, hvacant, plan, hplan⟩
    exact ⟨OperationSet.writable_of_plan hplan, hinputs, hdirectory, hvacant⟩
  · rintro ⟨hw, hfound, hdirectory, hvacant⟩
    exact ⟨hfound, hdirectory, hvacant, _, OperationSet.plan_eq h hw s.capability hinputs⟩

end

def oneSound : FileTree :=
  (FileTree.empty.put ["in"] .directory).put ["in", "voice.wav"] (.file "RIFF" 0o644)

end Job

end Soundworks
