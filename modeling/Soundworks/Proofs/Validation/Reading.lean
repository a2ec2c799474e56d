import Mathlib.Data.List.Basic
import Soundworks.Plan.Basic
/-!
What an accepted value tells. A record is accepted when each of its fields is, so an accepted
operation set with a mix has at least one layer.
-/

namespace Soundworks

theorem Checked.apply_eq_ok {α β : Type} {f : Checked (α → β)} {x : Checked α} {b : β} :
    Checked.apply f x = .ok b ↔ ∃ g a, f = .ok g ∧ x = .ok a ∧ g a = b := by
  cases f <;> cases x <;> simp [Checked.apply]

theorem Checked.under_eq_ok {α : Type} {step : Step} {x : Checked α} {a : α} :
    x.under step = .ok a ↔ x = .ok a := by
  cases x <;> simp [Checked.under]

theorem Fields.read_field_eq_ok {ρ α β : Type} {fs : Fields ρ (α → β)} {f : Field ρ α}
    {source : Source} {values : List (String × Value)} {b : β} :
    (fs.field f).read source values = .ok b ↔
      ∃ g a, fs.read source values = .ok g ∧
        f.read source (Value.lookup values f.name) = .ok a ∧ g a = b := by
  unfold Fields.field
  rw [Checked.apply_eq_ok]
  simp only [Checked.under_eq_ok]

theorem Field.read_optional {ρ α : Type} {name : String} {s : Schema α} {get : ρ → Option α}
    {source : Source} {v : Option Value} {a : α}
    (h : (Field.optional name s get).read source v = .ok (some a)) :
    ∃ w, v = some w ∧ s.read source w = .ok a := by
  cases v with
  | none => cases h
  | some w =>
      refine ⟨w, rfl, ?_⟩
      change s.nullable.read source w = .ok (some a) at h
      unfold Schema.nullable at h
      dsimp only at h
      split at h
      · cases h
      · cases hread : s.read source w with
        | error e =>
            rw [hread] at h
            cases h
        | ok b =>
            rw [hread] at h
            cases h
            rfl

/-- An optional field is left out by nothing and by null. -/
theorem Field.read_optional_none {ρ α : Type} {name : String} {s : Schema α}
    {get : ρ → Option α} {source : Source} {v : Option Value}
    (h : (Field.optional name s get).read source v = .ok none) : v = none ∨ v = some .null := by
  cases v with
  | none => exact .inl rfl
  | some w =>
      change s.nullable.read source w = .ok none at h
      unfold Schema.nullable at h
      dsimp only at h
      split at h
      · exact .inr rfl
      · cases hread : s.read source w with
        | error e =>
            rw [hread] at h
            cases h
        | ok b =>
            rw [hread] at h
            cases h

theorem Field.read_required {ρ α : Type} {name : String} {s : Schema α} {get : ρ → α}
    {source : Source} {v : Option Value} {a : α}
    (h : (Field.required name s get).read source v = .ok a) :
    ∃ w, v = some w ∧ s.read source w = .ok a := by
  cases v with
  | none => cases h
  | some w => exact ⟨w, rfl, h⟩

theorem Form.read_ofFields {α : Type} {title : String} {fs : Fields α α}
    {review : α → List Reason} {source : Source} {v : Value} {a : α}
    (h : (Form.ofFields title fs review).read source v = .ok a) :
    ∃ values, v = .object values ∧ fs.read source values = .ok a := by
  unfold Form.ofFields at h
  dsimp only at h
  split at h
  · rename_i values
    refine ⟨values, rfl, ?_⟩
    split at h
    · cases h
    · rename_i b hb
      split at h
      · cases h
      · split at h
        · cases h
          exact hb
        · cases h
  · cases h

theorem Form.read_of_validate {α : Type} {f : Form α} {v : Value} {a : α}
    (h : f.validate v = .ok a) : f.read .value v = .ok a := by
  unfold Form.validate at h
  cases hread : f.read .value v with
  | error e =>
      rw [hread] at h
      cases h
  | ok b =>
      rw [hread] at h
      cases h
      rfl

theorem Schema.least_le_of_read {α : Type} {s : Schema α} {least : Nat} {most : Option Nat}
    {source : Source} {v : Value} {xs : List α}
    (h : (Schema.list s least most).read source v = .ok xs) : least ≤ xs.length := by
  unfold Schema.list at h
  dsimp only at h
  split at h
  · split at h
    · cases h
    · split at h
      · cases h
      · split at h
        · cases h
        · rename_i hlen
          cases h
          exact Nat.le_of_not_lt hlen
  · cases h

/-! ### The layers of a mix -/

theorem Layering.layers_ne_nil_of_read {source : Source} {v : Value} {l : Layering}
    (h : Layering.form.read source v = .ok l) : l.layers ≠ [] := by
  obtain ⟨values, -, hfields⟩ := Form.read_ofFields h
  obtain ⟨build, layers, hbuild, hlayers, rfl⟩ := Fields.read_field_eq_ok.mp hfields
  obtain rfl : Layering.mk = build := by
    cases hbuild
    rfl
  obtain ⟨w, -, hlist⟩ := Field.read_required hlayers
  have hlen : 1 ≤ layers.length := Schema.least_le_of_read hlist
  exact List.ne_nil_of_length_pos hlen

theorem Advanced.layering_of_read {source : Source} {v : Value} {a : Advanced} {l : Layering}
    (h : Advanced.form.read source v = .ok a) (hl : a.layering = some l) :
    ∃ w, Layering.form.read source w = .ok l := by
  obtain ⟨values, -, h₉⟩ := Form.read_ofFields h
  obtain ⟨_, layering, h₈, hlayering, rfl⟩ := Fields.read_field_eq_ok.mp h₉
  obtain ⟨_, variations, h₇, -, rfl⟩ := Fields.read_field_eq_ok.mp h₈
  obtain ⟨_, modulation, h₆, -, rfl⟩ := Fields.read_field_eq_ok.mp h₇
  obtain ⟨_, spatial, h₅, -, rfl⟩ := Fields.read_field_eq_ok.mp h₆
  obtain ⟨_, dynamics, h₄, -, rfl⟩ := Fields.read_field_eq_ok.mp h₅
  obtain ⟨_, spectral, h₃, -, rfl⟩ := Fields.read_field_eq_ok.mp h₄
  obtain ⟨_, harmonics, h₂, -, rfl⟩ := Fields.read_field_eq_ok.mp h₃
  obtain ⟨_, tempo, h₁, -, rfl⟩ := Fields.read_field_eq_ok.mp h₂
  obtain ⟨_, pitch, h₀, -, rfl⟩ := Fields.read_field_eq_ok.mp h₁
  cases h₀
  obtain rfl : layering = some l := hl
  obtain ⟨w, -, hread⟩ := Field.read_optional hlayering
  exact ⟨w, hread⟩

theorem OperationSet.advanced_of_read {source : Source} {v : Value} {o : OperationSet}
    {a : Advanced} (h : OperationSet.form.read source v = .ok o) (ha : o.advanced = some a) :
    ∃ w, Advanced.form.read source w = .ok a := by
  obtain ⟨values, -, h₄⟩ := Form.read_ofFields h
  obtain ⟨_, advanced, h₃, hadvanced, rfl⟩ := Fields.read_field_eq_ok.mp h₄
  obtain ⟨_, effects, h₂, -, rfl⟩ := Fields.read_field_eq_ok.mp h₃
  obtain ⟨_, format, h₁, -, rfl⟩ := Fields.read_field_eq_ok.mp h₂
  obtain ⟨_, volume, h₀, -, rfl⟩ := Fields.read_field_eq_ok.mp h₁
  cases h₀
  obtain rfl : advanced = some a := ha
  obtain ⟨w, -, hread⟩ := Field.read_optional hadvanced
  exact ⟨w, hread⟩

theorem OperationSet.layers_ne_nil_of_validate {v : Value} {o : OperationSet}
    (h : OperationSet.form.validate v = .ok o) {layers : List Layer}
    (hl : o.mixedLayers .advanced = some layers) : layers ≠ [] := by
  obtain ⟨l, hlayering, rfl⟩ := Option.map_eq_some_iff.mp hl
  obtain ⟨a, ha, hal⟩ := Option.bind_eq_some_iff.mp hlayering
  obtain ⟨w, hw⟩ := OperationSet.advanced_of_read (Form.read_of_validate h) ha
  obtain ⟨w', hw'⟩ := Advanced.layering_of_read hw hal
  exact Layering.layers_ne_nil_of_read hw'

end Soundworks
