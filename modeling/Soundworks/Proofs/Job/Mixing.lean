import Soundworks.Proofs.Job.Inputs
import Soundworks.Proofs.Plan.Flow
import Soundworks.Proofs.Validation.Operations
/-!
Jobs that do nothing but mix. Their plan is the graph of the mix alone; an input of the engine goes
into the mix if there is a layer for it, and is left out if there is none.
-/

namespace Soundworks

namespace EngineCall

/-- The graph of a call takes the input of a number into what it yields. -/
def Carries (c : EngineCall) (i : Nat) : Prop :=
  ∃ text target segments, c.plan.graph = some text ∧ c.plan.graphOutput = some target ∧
    readGraph text = some segments ∧ Reaches segments (Mix.inputLabel i) target

/-- No segment in the graph of a call reads the input of a number. -/
def LeavesOut (c : EngineCall) (i : Nat) : Prop :=
  ∃ text segments, c.plan.graph = some text ∧ readGraph text = some segments ∧
    Mix.inputLabel i ∉ segments.flatMap (·.reads)

/-- A call whose graph mixes layers, and whose mix goes through no filters. -/
def Joins (c : EngineCall) (usable : List Layer) : Prop :=
  ∃ text, c.plan.graph = some text ∧ c.plan.graphOutput = some OperationSet.mixLabel ∧
    readGraph text = some (OperationSet.mixSegments usable [])

variable {c : EngineCall} {usable : List Layer}

/-- The inputs that go into a mix are those with a layer. -/
theorem Joins.carries_iff (h : c.Joins usable) {i : Nat} :
    c.Carries i ↔ i < usable.length := by
  obtain ⟨text, hgraph, htarget, hread⟩ := h
  rw [← OperationSet.reaches_outputLabel_iff []]
  constructor
  · rintro ⟨text', target, segments, hgraph', htarget', hread', hreaches⟩
    obtain rfl := Option.some.inj (hgraph.symm.trans hgraph')
    obtain rfl := Option.some.inj (htarget.symm.trans htarget')
    obtain rfl := Option.some.inj (hread.symm.trans hread')
    exact hreaches
  · exact fun hreaches => ⟨text, _, _, hgraph, htarget, hread, hreaches⟩

/-- The inputs that are left out are those without a layer. -/
theorem Joins.leavesOut_iff (h : c.Joins usable) {i : Nat} :
    c.LeavesOut i ↔ usable.length ≤ i := by
  obtain ⟨text, hgraph, -, hread⟩ := h
  rw [← not_lt, ← OperationSet.inputLabel_mem_reads_iff []]
  constructor
  · rintro ⟨text', segments, hgraph', hread', hnot⟩
    obtain rfl := Option.some.inj (hgraph.symm.trans hgraph')
    obtain rfl := Option.some.inj (hread.symm.trans hread')
    exact hnot
  · exact fun hnot => ⟨text, _, hgraph, hread, hnot⟩

end EngineCall

/-- A job that mixes the layers of an accepted operation, and does nothing else. -/
structure Job.Mixing (j : Job) (l : Layering) : Prop where
  operations : j.operations = { advanced := some { layering := some l } }
  valid : l.Valid
  inputs : j.inputs ≠ []

namespace Job.Mixing

variable {j : Job} {l : Layering} (h : j.Mixing l)

include h

theorem exists_validate : ∃ v, OperationSet.form.validate v = .ok j.operations := by
  rw [h.operations]
  exact ⟨_, Form.accept_eq_ok OperationSet.form_exact (OperationSet.valid_layering h.valid)⟩

theorem mixedLayers : j.operations.mixedLayers .advanced = some l.layers := by
  rw [h.operations]
  rfl

/-- A mix has no loop. -/
theorem writable : j.operations.Writable := by
  rw [h.operations]
  exact fun e he => (nomatch he)

/-- The plan of a mix is its graph. -/
theorem plan_operations {inputs : Nat} (hi : 1 ≤ inputs) :
    j.operations.plan .advanced inputs = .ok
      { graph := some (graphText (OperationSet.mixSegments (l.layers.take inputs) []))
        graphOutput := some OperationSet.mixLabel } := by
  obtain ⟨v, hv⟩ := h.exists_validate
  rw [OperationSet.plan_eq hv h.writable .advanced hi, h.mixedLayers, h.operations]
  rfl

variable {p : Performer} {s : Studio} {t : FileTree}

/-- A mix is made if its inputs are found and its output can be written. -/
theorem calls_run_ne_nil_iff :
    (j.run p s t).calls ≠ [] ↔
      (∀ path ∈ j.inputs, ∃ input, t.input s.place path = .ok input) ∧
      (t.outputDirectory s.place (Path.parent (s.place.resolve j.output))).1 = none ∧
      ((j.withDirectory s t).present s.place.directory (s.place.resolve j.output) = false ∨
        j.overwrite = true) := by
  obtain ⟨v, hv⟩ := h.exists_validate
  rw [Job.calls_run_ne_nil_iff_of_validate hv h.inputs]
  exact and_iff_right h.writable

variable (hs : s.capability = .advanced) {call : EngineCall} (hcall : call ∈ (j.run p s t).calls)

include hs hcall

omit h in
theorem inputs_eq : call.inputs = j.engineInputs .advanced (j.inputs.map s.place.resolve) := by
  rw [← hs]
  exact (of_prepare (mem_calls_run.mp hcall)).1

theorem one_le_length_inputs : 1 ≤ call.inputs.length := by
  obtain ⟨v, hv⟩ := h.exists_validate
  rw [inputs_eq hs hcall]
  exact one_le_length_engineInputs hv (by simpa using h.inputs)

/-- The plan of the call of a mix. -/
theorem plan_eq :
    call.plan =
      { graph := some (graphText
          (OperationSet.mixSegments (l.layers.take call.inputs.length) []))
        graphOutput := some OperationSet.mixLabel } := by
  obtain ⟨-, -, hplan⟩ := of_prepare (mem_calls_run.mp hcall)
  rw [hs, h.plan_operations (h.one_le_length_inputs hs hcall), Except.ok.injEq] at hplan
  exact hplan.symm

theorem joins : call.Joins (l.layers.take call.inputs.length) := by
  have husable : l.layers.take call.inputs.length ≠ [] := by
    have hlayers := h.valid.nonempty
    have hinputs := h.one_le_length_inputs hs hcall
    rw [← List.length_pos_iff, List.length_take]
    omega
  rw [EngineCall.Joins, h.plan_eq hs hcall]
  refine ⟨_, rfl, rfl, readGraph_graphText (by simp [OperationSet.mixSegments]) fun s hs => ?_⟩
  exact @OperationSet.clean_mixSegments _ husable [] s hs

/-- The inputs of a job are those of its call, in their places. -/
theorem getElem?_inputs {i : Nat} {path : String} (hpath : j.inputs[i]? = some path) :
    call.inputs[i]? = some (s.place.resolve path) := by
  rw [inputs_eq hs hcall]
  rcases Nat.eq_or_lt_of_le (List.length_pos_iff.mpr h.inputs) with hsingle | hseveral
  -- a single input is the first of its copies
  · obtain ⟨path', hpath'⟩ := List.length_eq_one_iff.mp hsingle.symm
    rw [hpath'] at hpath ⊢
    obtain ⟨rfl, rfl⟩ : i = 0 ∧ path' = path := by
      simpa [List.getElem?_singleton] using hpath
    rw [List.map_singleton, engineInputs_single h.mixedLayers,
      List.getElem?_replicate_of_lt h.valid.nonempty]
  · rw [engineInputs_several (by simpa using hseveral.ne'), List.getElem?_map, hpath]
    rfl

end Job.Mixing

end Soundworks
