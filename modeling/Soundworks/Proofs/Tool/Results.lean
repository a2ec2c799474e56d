import Soundworks.Proofs.Expansion.Variation
import Soundworks.Proofs.Studio.Harmonics
import Soundworks.Proofs.Studio.Layered
import Soundworks.Proofs.Validation.Reports
import Soundworks.Proofs.Validation.Requests
/-!
The actions of the tools. Whatever a tool reads, its action ends in a result of the kind that the
tool promises, and the result passes its own check. The jobs of the action have valid operations,
and nothing that the tool puts together from its request is rejected on the way.
-/

namespace Soundworks

/-! ### What the tools promise -/

/-- A result of the kind that a tool promises. -/
inductive Tool.Gives : Tool → Response → Prop
  | processFile (x : Report) : Gives .processFile (.report x)
  | batchProcess (x : BatchReport) : Gives .batchProcess (.batch x)
  | applyPreset (x : PresetReport) : Gives .applyPreset (.preset x)
  | listPresets (x : PresetList) : Gives .listPresets (.presets x)
  | queueStatus (x : QueueStatus) : Gives .queueStatus (.status x)
  | pauseQueue (x : QueueControl) : Gives .pauseQueue (.control x)
  | resumeQueue (x : QueueControl) : Gives .resumeQueue (.control x)
  | clearQueue (x : QueueControl) : Gives .clearQueue (.control x)
  | generateVariations (x : VariationsReport) : Gives .generateVariations (.variations x)
  | createHarmonics (x : HarmonicsReport) : Gives .createHarmonics (.harmonics x)
  | advancedProcess (x : Report) : Gives .advancedProcess (.report x)
  | layerSounds (x : Report) : Gives .layerSounds (.report x)

/-- A response passes its own check as it is. -/
def Response.Accepted : Response → Prop
  | .report r => Report.form.accept r = .ok r
  | .batch r => BatchReport.form.accept r = .ok r
  | .preset r => PresetReport.form.accept r = .ok r
  | .presets r => PresetList.form.accept r = .ok r
  | .variations r => VariationsReport.form.accept r = .ok r
  | .harmonics r => HarmonicsReport.form.accept r = .ok r
  | .control r => QueueControl.form.accept r = .ok r
  | .status r => QueueStatus.form.accept r = .ok r
  | .failed name f => ToolError.form.accept (f.toolError name) = .ok (f.toolError name)

/-- A result as a tool promises it. -/
structure Tool.Returns (t : Tool) (r : Response) : Prop where
  kind : t.Gives r
  accepted : r.Accepted

/-- The tools whose jobs go through the queue. -/
def Tool.fansOut : List Tool := [.batchProcess, .generateVariations, .createHarmonics]

/-- An action with valid jobs, which ends in a result of the tool whatever comes of them. -/
def Action.Serves (t : Tool) : Action → Prop
  | .reply r => t.Returns r
  | .single j answer =>
    j.operations.Valid ∧ ∀ x : Report, x.Valid → t.Returns (answer x)
  | .queued jobs answer =>
    t ∈ Tool.fansOut ∧ (∀ j ∈ jobs, j.operations.Valid) ∧
      ∀ xs : List Report, (∀ x ∈ xs, x.Valid) → t.Returns (answer xs)
  | .pause => t = .pauseQueue
  | .resume => t = .resumeQueue
  | .clear => t = .clearQueue
  | .status => t = .queueStatus

theorem ToolError.accept_eq_ok (e : ToolError) : form.accept e = .ok e :=
  Form.accept_eq_ok
    (P := fun _ => True)
    (Form.exact_ofFields <| Fields.Exact.build ToolError.mk
      |>.field (.required Schema.exact_text) |>.field (.required Schema.exact_text)
      |>.field (.required Schema.exact_text)) trivial

theorem Fault.accepted (f : Fault) (name : String) : (Response.failed name f).Accepted :=
  ToolError.accept_eq_ok _

theorem Report.Valid.accept {x : Report} (h : x.Valid) : form.accept x = .ok x :=
  Form.accept_eq_ok form_exact h

theorem OperationSet.Valid.accept {o : OperationSet} (h : o.Valid) : form.accept o = .ok o :=
  Form.accept_eq_ok form_exact h

/-! ### The requests of the tools -/

namespace Tool

variable {t : Tool} {a : Option Argument}

theorem withRequest_eq_ok {α : Type} {f : Form α} {k : α → Except Refusal Action} {x : Action}
    (h : t.withRequest f a k = .ok x) :
    ∃ v r, a = some v ∧ f.request v = .ok r ∧ k r = .ok x := by
  cases a with
  | none => cases h
  | some v =>
      obtain ⟨r, hr, hk⟩ := Fallible.bind_eq_ok.mp h
      exact ⟨v, r, rfl, hr, Fallible.mapError_eq_ok.mp hk⟩

theorem without_eq_ok {x y : Action} (h : t.without a x = .ok y) : x = y := by
  cases a with
  | none => exact Except.ok.inj h
  | some v => cases h

end Tool

/-! ### What is put together from a request -/

/-- Whatever a tool puts together from the parts of its request passes its own check as it is. -/
structure Argument.Composes (a : Argument) : Prop where
  variations : ∀ r, VariationsRequest.form.request a = .ok r →
    VariationRanges.form.accept r.ranges = .ok r.ranges ∧
    ∀ seed, ∃ sets, r.ranges.expand (r.base.getD {}) seed = .ok sets ∧
      (sets.length : Int) = r.count ∧ ∀ o ∈ sets, OperationSet.form.accept o = .ok o
  harmonics : ∀ r, HarmonicsRequest.form.request a = .ok r →
    Harmonics.form.accept r.harmonics = .ok r.harmonics ∧
    ∀ i ∈ r.harmonics.intervals, ∃ o, i.operations = .ok o ∧ OperationSet.form.accept o = .ok o
  advanced : ∀ r, AdvancedRequest.form.request a = .ok r →
    OperationSet.form.accept r.operations = .ok r.operations
  layers : ∀ r, LayerRequest.form.request a = .ok r →
    Layering.form.accept { layers := r.layers } = .ok { layers := r.layers } ∧
    OperationSet.form.accept { advanced := some { layering := some { layers := r.layers } } } =
      .ok { advanced := some { layering := some { layers := r.layers } } }

theorem Argument.composes (a : Argument) : a.Composes where
  variations r hr := by
    have h := Form.valid_of_request VariationsRequest.form_exact hr
    refine ⟨Form.accept_eq_ok VariationRanges.form_exact h.ranges, fun seed => ?_⟩
    obtain ⟨sets, hsets, hlength, hvalid⟩ := h.ranges.exists_expand h.base_getD seed
    exact ⟨sets, hsets, hlength, fun o ho => (hvalid o ho).accept⟩
  harmonics r hr := by
    have h := Form.valid_of_request HarmonicsRequest.form_exact hr
    refine ⟨Form.accept_eq_ok Harmonics.form_exact h.harmonics, fun i hi => ?_⟩
    obtain ⟨o, ho, hvalid⟩ := (h.harmonics.intervals i hi).exists_operations
    exact ⟨o, ho, hvalid.accept⟩
  advanced r hr := (Form.valid_of_request AdvancedRequest.form_exact hr).operations.accept
  layers r hr := by
    have h := Form.valid_of_request LayerRequest.form_exact hr
    exact ⟨Form.accept_eq_ok Layering.form_exact h.layering,
      (OperationSet.valid_layering h.layering).accept⟩

/-! ### The actions -/

namespace Action

variable {t : Tool}

theorem serves_ofJob (ht : ∀ x, t.Gives (.report x)) {j : Job} (h : j.operations.Valid) :
    (ofJob j).Serves t := ⟨h, fun x hx => ⟨ht x, hx.accept⟩⟩

theorem serves_ofBatch {jobs : List Job} (h : ∀ j ∈ jobs, j.operations.Valid) :
    (ofBatch jobs).Serves .batchProcess :=
  ⟨by decide, h, fun _ hx =>
    ⟨.batchProcess _, BatchReport.accept_eq_ok (BatchReport.valid_ofResults hx)⟩⟩

theorem serves_ofVariations {set : Int × List Job} (h : ∀ j ∈ set.2, j.operations.Valid) :
    (ofVariations set).Serves .generateVariations :=
  ⟨by decide, h, fun _ hx =>
    ⟨.generateVariations _, Form.accept_eq_ok VariationsReport.form_exact ⟨hx⟩⟩⟩

theorem serves_ofHarmonics {jobs : List Job} (h : ∀ j ∈ jobs, j.operations.Valid) :
    (ofHarmonics jobs).Serves .createHarmonics :=
  ⟨by decide, h, fun _ hx =>
    ⟨.createHarmonics _, Form.accept_eq_ok HarmonicsReport.form_exact ⟨hx⟩⟩⟩

end Action

theorem Batch.operations_of_jobs {b : Batch} {w : Workplace} {tree : FileTree}
    {jobs : List Job} (h : b.jobs w tree = .ok jobs) : ∀ j ∈ jobs, j.operations = b.operations := by
  unfold Batch.jobs at h
  simp only [Fallible.bind_eq_ok, Fallible.pure_eq_ok] at h
  obtain ⟨files, -, destination, -, rfl⟩ := h
  intro j hj
  obtain ⟨path, -, rfl⟩ := List.mem_map.mp hj
  rfl

namespace Studio

variable {s : Studio} {tree : FileTree} {input directory : String} {overwrite : Bool}

theorem operations_of_variations {seed : Int} {ranges : VariationRanges} {base : OperationSet}
    (hranges : ranges.Valid) (hbase : base.Valid) {set : Int × List Job}
    (h : s.variations tree seed input directory ranges base overwrite = .ok set) :
    ∀ j ∈ set.2, j.operations.Valid := by
  simp only [variations, Fallible.bind_eq_ok, Fallible.pure_eq_ok, Fallible.mapError_eq_ok] at h
  obtain ⟨-, -, -, -, ⟨seed', sets⟩, hsets, rfl⟩ := h
  obtain ⟨sets', hsets', -, hvalid⟩ := hranges.exists_generate hbase seed
  obtain ⟨rfl, rfl⟩ := Prod.mk.inj (Except.ok.inj (hsets'.symm.trans hsets))
  intro j hj
  obtain ⟨⟨o, i⟩, hmem, rfl⟩ := List.mem_map.mp hj
  exact hvalid o (List.fst_mem_of_mem_zipIdx hmem)

theorem operations_of_harmonics {h : Harmonics} (hv : h.Valid) {jobs : List Job}
    (hj : s.harmonics tree input directory h overwrite = .ok jobs) :
    ∀ j ∈ jobs, j.operations.Valid := by
  simp only [harmonics, harmonicJobs_eq input directory overwrite hv, Fallible.bind_eq_ok,
    Fallible.mapError_eq_ok] at hj
  obtain ⟨-, -, -, -, hj⟩ := hj
  split at hj
  · cases hj
  · cases hj
    intro j hj
    obtain ⟨i, hi, rfl⟩ := List.mem_map.mp hj
    exact OperationSet.valid_layering (hv.intervals i hi).layering

end Studio

theorem Tool.returns_presetList {presets : List Preset} (h : presets ⊆ Preset.table) :
    Tool.Returns .listPresets (presetList presets) :=
  ⟨.listPresets _, Form.accept_eq_ok PresetList.form_exact
    ⟨Int.natCast_nonneg _, fun _ hp => Preset.valid_of_mem (h hp)⟩⟩

/-- Every action of a tool has valid jobs, and ends in a result of the tool. -/
theorem Tool.serves_of_action {t : Tool} {s : Studio} {tree : FileTree} {seed : Int}
    {a : Option Argument} {x : Action} (h : t.action s tree seed a = .ok x) : x.Serves t := by
  cases t with
  | processFile =>
      obtain ⟨v, r, -, hr, hk⟩ := withRequest_eq_ok h
      cases hk
      exact Action.serves_ofJob .processFile
        (Form.valid_of_request ProcessRequest.form_exact hr).operations
  | batchProcess =>
      obtain ⟨v, r, -, hr, hk⟩ := withRequest_eq_ok h
      obtain ⟨jobs, hjobs, rfl⟩ := Fallible.map_eq_ok.mp hk
      refine Action.serves_ofBatch fun j hj => ?_
      rw [Batch.operations_of_jobs hjobs j hj]
      exact (Form.valid_of_request BatchRequest.form_exact hr).operations
  | applyPreset =>
      obtain ⟨v, r, -, hr, hk⟩ := withRequest_eq_ok h
      unfold PresetRequest.action at hk
      split at hk
      · cases hk
      · rename_i preset hfind
        cases hk
        exact ⟨(Preset.valid_of_find hfind).operations, fun x hx =>
          ⟨.applyPreset _, Form.accept_eq_ok PresetReport.form_exact ⟨hx⟩⟩⟩
  | listPresets =>
      cases h
      refine returns_presetList ?_
      split
      · exact Preset.inCategory_subset _
      · exact Preset.inCategory_subset _
      · exact Preset.inCategory_subset _
      · exact List.nil_subset _
  | queueStatus => exact without_eq_ok h ▸ rfl
  | pauseQueue => exact without_eq_ok h ▸ rfl
  | resumeQueue => exact without_eq_ok h ▸ rfl
  | clearQueue => exact without_eq_ok h ▸ rfl
  | generateVariations =>
      obtain ⟨v, r, -, hr, hk⟩ := withRequest_eq_ok h
      obtain ⟨set, hset, rfl⟩ := Fallible.map_eq_ok.mp hk
      have hvalid := Form.valid_of_request VariationsRequest.form_exact hr
      exact Action.serves_ofVariations
        (Studio.operations_of_variations hvalid.ranges hvalid.base_getD hset)
  | createHarmonics =>
      obtain ⟨v, r, -, hr, hk⟩ := withRequest_eq_ok h
      obtain ⟨jobs, hjobs, rfl⟩ := Fallible.map_eq_ok.mp hk
      have hvalid := Form.valid_of_request HarmonicsRequest.form_exact hr
      exact Action.serves_ofHarmonics (Studio.operations_of_harmonics hvalid.harmonics hjobs)
  | advancedProcess =>
      obtain ⟨v, r, -, hr, hk⟩ := withRequest_eq_ok h
      obtain ⟨-, -, hk⟩ := Fallible.bind_eq_ok.mp hk
      cases hk
      exact Action.serves_ofJob .advancedProcess
        (Form.valid_of_request AdvancedRequest.form_exact hr).operations
  | layerSounds =>
      obtain ⟨v, r, -, hr, hk⟩ := withRequest_eq_ok h
      obtain ⟨j, hj, rfl⟩ := Fallible.map_eq_ok.mp hk
      refine Action.serves_ofJob .layerSounds ?_
      obtain ⟨-, -, -, rfl⟩ := Studio.layered_eq_ok.mp hj
      exact OperationSet.valid_layering
        (Form.valid_of_request LayerRequest.form_exact hr).layering

end Soundworks
