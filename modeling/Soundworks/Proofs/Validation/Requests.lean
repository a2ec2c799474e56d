import Soundworks.Proofs.Validation.Operations
import Soundworks.Tool.Action
/-!
The requests that are accepted. What a tool reads from a value, or from a record that was read
before, is valid; and what it puts together from the parts of a request is accepted as it is.
-/

namespace Soundworks

open Schema

structure ProcessRequest.Valid (r : ProcessRequest) : Prop where
  operations : r.operations.Valid

theorem ProcessRequest.form_exact : ProcessRequest.form.toSchema.Exact ProcessRequest.Valid :=
  Form.exact_ofFields <| Fields.Exact.build ProcessRequest.mk
    |>.field (.required exact_text) |>.field (.required exact_text)
    |>.field (.withDefault OperationSet.form_exact OperationSet.valid_empty)
    |>.field (.withDefault exact_bool trivial)

structure BatchRequest.Valid (r : BatchRequest) : Prop where
  operations : r.operations.Valid

theorem BatchRequest.form_exact : BatchRequest.form.toSchema.Exact BatchRequest.Valid :=
  Form.exact_ofFields <| Fields.Exact.build BatchRequest.mk
    |>.field (.required exact_text) |>.field (.required exact_text)
    |>.field (.withDefault OperationSet.form_exact OperationSet.valid_empty)
    |>.field (.optional exact_text) |>.field (.withDefault exact_bool trivial)
    |>.field (.withDefault exact_text trivial)
    |>.field (.optional (exact_word (by rintro ⟨⟩ <;> rfl)))

structure VariationsRequest.Valid (r : VariationsRequest) : Prop where
  count : 1 ≤ r.count ∧ r.count ≤ 20
  pitchRange : 0 ≤ r.pitchRange ∧ r.pitchRange ≤ 12
  volumeRange : 0 ≤ r.volumeRange ∧ r.volumeRange ≤ 10
  spectralRange : 0 ≤ r.spectralRange ∧ r.spectralRange ≤ 6
  timingRange : ∀ x ∈ r.timingRange, 0 ≤ x
  base : ∀ o ∈ r.base, o.Valid

theorem VariationsRequest.form_exact :
    VariationsRequest.form.toSchema.Exact VariationsRequest.Valid :=
  Form.exact_ofFields <| Fields.Exact.build VariationsRequest.mk
    |>.field (.required exact_text) |>.field (.required exact_text)
    |>.field (.withDefault (exact_integerBetween _ _) (by decide))
    |>.field (.withDefault (exact_between _ _) (by decide))
    |>.field (.withDefault (exact_between _ _) (by decide))
    |>.field (.withDefault (exact_between _ _) (by decide))
    |>.field (.optional (exact_atLeast _)) |>.field (.optional exact_unlimited)
    |>.field (.optional OperationSet.form_exact) |>.field (.withDefault exact_bool trivial)

structure HarmonicsRequest.Valid (r : HarmonicsRequest) : Prop where
  octaveUp : ∀ x ∈ r.octaveUp, 0 ≤ x ∧ x ≤ 1
  octaveDown : ∀ x ∈ r.octaveDown, 0 ≤ x ∧ x ≤ 1
  fifthUp : ∀ x ∈ r.fifthUp, 0 ≤ x ∧ x ≤ 1
  thirdUp : ∀ x ∈ r.thirdUp, 0 ≤ x ∧ x ≤ 1

theorem HarmonicsRequest.form_exact :
    HarmonicsRequest.form.toSchema.Exact HarmonicsRequest.Valid :=
  Form.exact_ofFields <| Fields.Exact.build HarmonicsRequest.mk
    |>.field (.required exact_text) |>.field (.required exact_text)
    |>.field (.optional (exact_between _ _)) |>.field (.optional (exact_between _ _))
    |>.field (.optional (exact_between _ _)) |>.field (.optional (exact_between _ _))
    |>.field (.withDefault exact_bool trivial)

structure AdvancedRequest.Valid (r : AdvancedRequest) : Prop where
  pitch : ∀ x ∈ r.pitch, x.Valid
  tempo : ∀ x ∈ r.tempo, x.Valid
  spectral : ∀ x ∈ r.spectral, x.Valid
  dynamics : ∀ x ∈ r.dynamics, x.Valid
  spatial : ∀ x ∈ r.spatial, x.Valid
  modulation : ∀ x ∈ r.modulation, x.Valid

theorem AdvancedRequest.form_exact :
    AdvancedRequest.form.toSchema.Exact AdvancedRequest.Valid :=
  Form.exact_ofFields <| Fields.Exact.build AdvancedRequest.mk
    |>.field (.required exact_text) |>.field (.required exact_text)
    |>.field (.optional Pitch.form_exact) |>.field (.optional Tempo.form_exact)
    |>.field (.optional Spectral.form_exact) |>.field (.optional Dynamics.form_exact)
    |>.field (.optional Spatial.form_exact) |>.field (.optional Modulation.form_exact)
    |>.field (.withDefault exact_bool trivial)

structure LayerRequest.Valid (r : LayerRequest) : Prop where
  inputs : 1 ≤ r.inputPaths.length ∧ r.inputPaths.length ≤ maxLayers
  layering : Layering.Valid { layers := r.layers }

theorem LayerRequest.form_exact : LayerRequest.form.toSchema.Exact LayerRequest.Valid :=
  Form.exact_ofFields
    (Fields.Exact.build LayerRequest.mk
      |>.field (.required (exact_list exact_text 1 (some maxLayers)))
      |>.field (.required exact_text)
      |>.field (.required (exact_list Layer.form_exact 1 (some maxLayers)))
      |>.field (.withDefault exact_bool trivial))
    (fun _ => rfl)
    (fun _ ⟨_, hleast, hmost⟩ _ _ _ ⟨hlayers, hnonempty, hshort⟩ _ _ =>
      ⟨⟨hleast, hmost _ rfl⟩, ⟨hlayers, hnonempty, hshort _ rfl⟩⟩)
    fun _ h => ⟨⟨⟨⟨trivial, fun _ _ => trivial, h.inputs.1,
      fun _ hm => Option.some.inj hm ▸ h.inputs.2⟩, trivial⟩, h.layering.layers,
      h.layering.nonempty, fun _ hm => Option.some.inj hm ▸ h.layering.short⟩, trivial⟩

/-! ### What a tool reads -/

/-- What a tool reads is valid. -/
theorem Form.valid_of_request {α : Type} {f : Form α} {P : α → Prop}
    (h : f.toSchema.Exact P) {a : Argument} {r : α} (hr : f.request a = .ok r) : P r := by
  cases a with
  | value v => exact valid_of_validate h (Fallible.mapError_eq_ok.mp hr)
  | record title v =>
      simp only [request] at hr
      split at hr
      · exact valid_of_validate h (Fallible.mapError_eq_ok.mp hr)
      · cases hr

/-! ### What is put together from a request -/

theorem VariationsRequest.Valid.ranges {r : VariationsRequest} (h : r.Valid) :
    r.ranges.Valid where
  count := h.count
  pitchRange := Fallible.forall_mem_some h.pitchRange
  volumeRange := Fallible.forall_mem_some h.volumeRange
  spectralRange := Fallible.forall_mem_some h.spectralRange
  timingRange := h.timingRange

theorem VariationsRequest.Valid.base_getD {r : VariationsRequest} (h : r.Valid) :
    (r.base.getD {}).Valid := by
  cases hb : r.base with
  | none => exact OperationSet.valid_empty
  | some o => exact h.base o hb

theorem HarmonicsRequest.Valid.harmonics {r : HarmonicsRequest} (h : r.Valid) :
    r.harmonics.Valid := ⟨h.octaveUp, h.octaveDown, h.fifthUp, h.thirdUp⟩

theorem AdvancedRequest.Valid.operations {r : AdvancedRequest} (h : r.Valid) :
    r.operations.Valid :=
  { OperationSet.valid_empty with
    advanced := Fallible.forall_mem_some
      { Advanced.valid_empty with
        pitch := h.pitch
        tempo := h.tempo
        spectral := h.spectral
        dynamics := h.dynamics
        spatial := h.spatial
        modulation := h.modulation } }

end Soundworks
