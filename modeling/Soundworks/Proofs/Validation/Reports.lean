import Soundworks.Preset.Table
import Soundworks.Proofs.Validation.Operations
import Soundworks.Queue.Basic
import Soundworks.Tool.Response
/-!
The reports that are accepted. A report that is put together from valid parts passes its own check
as it is; so do the table of presets and the state of a queue.
-/

namespace Soundworks

open Schema

structure Report.Valid (x : Report) : Prop where
  elapsedMs : 0 ≤ x.elapsedMs
  operations : x.operations.Valid

theorem Report.form_exact : Report.form.toSchema.Exact Report.Valid :=
  Form.exact_ofFields <| Fields.Exact.build Report.mk
    |>.field (.required exact_bool) |>.field (.required exact_text)
    |>.field (.required exact_text) |>.field (.required (exact_integerAtLeast _))
    |>.field (.required OperationSet.form_exact) |>.field (.optional exact_text)

/-! ### Sets of reports -/

/-- The results are valid, and each of them is counted once. -/
structure BatchReport.Valid (b : BatchReport) : Prop where
  results : ∀ x ∈ b.results, x.Valid
  sum : b.successful + b.failed = b.total

theorem BatchReport.accept_eq_ok {b : BatchReport} (h : b.Valid) : form.accept b = .ok b :=
  Form.accept_of_review
    (Fields.Exact.build BatchReport.mk
      |>.field (.required exact_unlimited) |>.field (.required exact_unlimited)
      |>.field (.required exact_unlimited)
      |>.field (.required (exact_items Report.form_exact)) |>.field (.required exact_unlimited))
    (fun _ => rfl)
    ⟨⟨⟨⟨⟨trivial, trivial⟩, trivial⟩, trivial⟩, h.results⟩, trivial⟩ (if_pos h.sum)

theorem BatchReport.valid_ofResults {results : List Report} (h : ∀ x ∈ results, x.Valid) :
    (ofResults results).Valid where
  results := h
  sum := by
    simp only [ofResults]
    omega

structure VariationsReport.Valid (r : VariationsReport) : Prop where
  results : ∀ x ∈ r.results, x.Valid

theorem VariationsReport.form_exact :
    VariationsReport.form.toSchema.Exact VariationsReport.Valid :=
  Form.exact_ofFields <| Fields.Exact.build VariationsReport.mk
    |>.field (.required exact_unlimited) |>.field (.required (exact_items Report.form_exact))

structure HarmonicsReport.Valid (r : HarmonicsReport) : Prop where
  results : ∀ x ∈ r.results, x.Valid

theorem HarmonicsReport.form_exact : HarmonicsReport.form.toSchema.Exact HarmonicsReport.Valid :=
  Form.exact_ofFields <| Fields.Exact.build HarmonicsReport.mk
    |>.field (.required (exact_items Report.form_exact))

/-! ### Presets -/

structure PresetReport.Valid (r : PresetReport) : Prop where
  result : r.result.Valid

theorem PresetReport.form_exact : PresetReport.form.toSchema.Exact PresetReport.Valid :=
  Form.exact_ofFields <| Fields.Exact.build PresetReport.mk
    |>.field (.required Report.form_exact) |>.field (.required exact_text)
    |>.field (.required exact_text)

structure Preset.Valid (p : Preset) : Prop where
  operations : p.operations.Valid

theorem Preset.form_exact : Preset.form.toSchema.Exact Preset.Valid :=
  Form.exact_ofFields <| Fields.Exact.build Preset.mk
    |>.field (.required exact_text) |>.field (.required exact_text)
    |>.field (.required (exact_word (by rintro ⟨⟩ <;> rfl)))
    |>.field (.required (exact_word (by rintro ⟨⟩ <;> rfl)))
    |>.field (.required OperationSet.form_exact)

/-- Every preset passes its own check as it is. -/
theorem Preset.table_accepted : ∀ p ∈ table, form.accept p = .ok p := by
  decide +kernel

theorem Preset.valid_of_mem {p : Preset} (h : p ∈ table) : p.Valid :=
  Form.valid_of_accept form_exact (table_accepted p h)

theorem Preset.valid_of_find {name : String} {p : Preset} (h : find? name = some p) : p.Valid :=
  valid_of_mem (List.mem_of_find?_eq_some h)

theorem Preset.inCategory_subset (category : Option String) : inCategory category ⊆ table := by
  cases category with
  | none => exact List.Subset.refl _
  | some c => exact List.filter_sublist.subset

structure PresetList.Valid (l : PresetList) : Prop where
  count : 0 ≤ l.count
  presets : ∀ p ∈ l.presets, p.Valid

theorem PresetList.form_exact : PresetList.form.toSchema.Exact PresetList.Valid :=
  Form.exact_ofFields <| Fields.Exact.build PresetList.mk
    |>.field (.required (exact_integerAtLeast _))
    |>.field (.required (exact_items Preset.form_exact))

/-! ### The queue -/

structure QueueStatus.Valid (s : QueueStatus) : Prop where
  pending : 0 ≤ s.pending
  active : 0 ≤ s.active
  concurrency : 1 ≤ s.concurrency

theorem QueueStatus.form_exact : QueueStatus.form.toSchema.Exact QueueStatus.Valid :=
  Form.exact_ofFields <| Fields.Exact.build QueueStatus.mk
    |>.field (.required (exact_integerAtLeast _)) |>.field (.required (exact_integerAtLeast _))
    |>.field (.required exact_bool) |>.field (.required (exact_integerAtLeast _))

theorem Queue.valid_status {α : Type} (q : Queue α) : q.status.Valid :=
  ⟨Int.natCast_nonneg _, Int.natCast_nonneg _, Int.ofNat_le.mpr q.limit_pos⟩

structure QueueControl.Valid (c : QueueControl) : Prop where
  discarded : 0 ≤ c.discarded
  status : c.status.Valid

theorem QueueControl.form_exact : QueueControl.form.toSchema.Exact QueueControl.Valid :=
  Form.exact_ofFields <| Fields.Exact.build QueueControl.mk
    |>.field (.required exact_text)
    |>.field (.withDefault (exact_integerAtLeast _) (Int.le_refl _))
    |>.field (.required QueueStatus.form_exact)

end Soundworks
