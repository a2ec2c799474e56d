import Soundworks.Proofs.Fallible
import Soundworks.Proofs.Validation.Reading
import Soundworks.Validation.Document
/-!
Schemas with an exact account of what they accept. What is read satisfies a property, and what
satisfies the property is read back from what is written of it. What is written in short is the
full text without its nulls. A record has such an account when its fields have one and their names
differ.
-/

namespace Soundworks

namespace Value

mutual

/-- A value without the fields that are null, at every depth. A null in a list stays. -/
def withoutNulls : Value → Value
  | .list items => .list (itemsWithoutNulls items)
  | .object fields => .object (fieldsWithoutNulls fields)
  | v => v

def itemsWithoutNulls : List Value → List Value
  | [] => []
  | v :: vs => v.withoutNulls :: itemsWithoutNulls vs

def fieldsWithoutNulls : List (String × Value) → List (String × Value)
  | [] => []
  | (k, v) :: rest =>
    match v with
    | .null => fieldsWithoutNulls rest
    | v => (k, v.withoutNulls) :: fieldsWithoutNulls rest

end

@[simp] theorem itemsWithoutNulls_eq_map (vs : List Value) :
    itemsWithoutNulls vs = vs.map withoutNulls := by
  induction vs with
  | nil => rfl
  | cons v vs ih => rw [itemsWithoutNulls, ih, List.map_cons]

theorem fieldsWithoutNulls_append (xs ys : List (String × Value)) :
    fieldsWithoutNulls (xs ++ ys) = fieldsWithoutNulls xs ++ fieldsWithoutNulls ys := by
  induction xs with
  | nil => rfl
  | cons x xs ih =>
      obtain ⟨k, v⟩ := x
      cases v <;> simp [fieldsWithoutNulls, ih]

theorem fieldsWithoutNulls_of_ne_null {v : Value} (h : v ≠ .null) (k : String) :
    fieldsWithoutNulls [(k, v)] = [(k, v.withoutNulls)] := by
  cases v with
  | null => exact absurd rfl h
  | _ => rfl

end Value

/-- A schema reads only what satisfies a property, and reads that back after it was written. What
it writes is never null, and in short it is the full text without its nulls. -/
structure Schema.Exact {α : Type} (s : Schema α) (P : α → Prop) : Prop where
  sound : ∀ {source : Source} {v : Value} {a : α}, s.read source v = .ok a → P a
  back : ∀ {a : α}, P a → ∀ full source, s.read source (s.write full a) = .ok a
  solid : ∀ full a, s.write full a ≠ .null
  short : ∀ a, (s.write true a).withoutNulls = s.write false a

/-- The entry of a record that a field writes, if it writes one. -/
def Field.entry {ρ α : Type} (f : Field ρ α) (full : Bool) (r : ρ) : List (String × Value) :=
  ((f.write full r).map fun v => (f.name, v)).toList

/-- A field reads only what satisfies a property, and reads that back after it was written. -/
structure Field.Exact {ρ α : Type} (f : Field ρ α) (get : ρ → α) (P : α → Prop) : Prop where
  sound : ∀ {source : Source} {v : Option Value} {a : α}, f.read source v = .ok a → P a
  back : ∀ {r : ρ}, P (get r) → ∀ full source, f.read source (f.write full r) = .ok (get r)
  short : ∀ r, Value.fieldsWithoutNulls (f.entry true r) = f.entry false r

/-- The first fields of a record. Everything that can be `made` from accepted values has a
property if what is read has it; the part `get` of a record that is `valid` in these fields is
read back. -/
structure Fields.Exact {ρ α : Type} (fs : Fields ρ α) (get : ρ → α) (valid : ρ → Prop)
    (made : (α → Prop) → Prop) : Prop where
  written : ∀ full r, ∀ p ∈ fs.write full r, p.1 ∈ fs.names
  sound : ∀ {source : Source} {values : List (String × Value)} {a : α},
    fs.read source values = .ok a → ∀ {Q : α → Prop}, made Q → Q a
  back : ∀ {r : ρ}, valid r → ∀ (full : Bool) (values : List (String × Value)),
    (∀ n ∈ fs.names, Value.lookup values n = Value.lookup (fs.write full r) n) →
    ∀ source, fs.read source values = .ok (get r)
  short : ∀ r, Value.fieldsWithoutNulls (fs.write true r) = fs.write false r

/-! ### Single values -/

/-- A number that lies within bounds. -/
def Bounds.Admits (b : Bounds) (x : Binary64) : Prop :=
  (∀ m ∈ b.most, x ≤ m) ∧ ∀ l ∈ b.least, l ≤ x

/-- An integer that lies within limits. -/
def Limits.Admits (b : Limits) (n : Int) : Prop :=
  (∀ m ∈ b.most, n ≤ m) ∧ ∀ l ∈ b.least, l ≤ n

theorem Bounds.check_eq_ok {b : Bounds} {x y : Binary64} :
    b.check x = .ok y ↔ x = y ∧ b.Admits x := by
  obtain ⟨least, most⟩ := b
  have hmost : most.filter (fun m => !decide (x ≤ m)) = none ↔ ∀ m ∈ most, x ≤ m := by
    simp [Option.filter_eq_none_iff]
  have hleast : least.filter (fun l => !decide (l ≤ x)) = none ↔ ∀ l ∈ least, l ≤ x := by
    simp [Option.filter_eq_none_iff]
  unfold check Admits
  rw [← hmost, ← hleast]
  dsimp only
  cases most.filter fun m => !decide (x ≤ m) <;> cases least.filter fun l => !decide (l ≤ x) <;>
    simp [Checked.fail]

theorem Limits.check_eq_ok {b : Limits} {n k : Int} :
    b.check n = .ok k ↔ n = k ∧ b.Admits n := by
  obtain ⟨least, most⟩ := b
  have hmost : most.filter (· < n) = none ↔ ∀ m ∈ most, n ≤ m := by
    simp [Option.filter_eq_none_iff]
  have hleast : least.filter (n < ·) = none ↔ ∀ l ∈ least, l ≤ n := by
    simp [Option.filter_eq_none_iff]
  unfold check Admits
  rw [← hmost, ← hleast]
  dsimp only
  cases most.filter (· < n) <;> cases least.filter (n < ·) <;> simp [Checked.fail]

namespace Schema

variable {α : Type}

theorem Exact.congr {s : Schema α} {P Q : α → Prop} (h : s.Exact P) (hPQ : ∀ a, P a ↔ Q a) :
    s.Exact Q :=
  ⟨fun hread => (hPQ _).mp (h.sound hread), fun ha => h.back ((hPQ _).mpr ha), h.solid, h.short⟩

theorem exact_number (b : Bounds) : (number b).Exact b.Admits where
  sound h := by
    obtain ⟨x, -, hx⟩ := Fallible.bind_eq_ok.mp h
    obtain ⟨rfl, hadmits⟩ := Bounds.check_eq_ok.mp hx
    exact hadmits
  back ha full source := Bounds.check_eq_ok.mpr ⟨rfl, ha⟩
  solid full a := Value.noConfusion
  short a := rfl

theorem exact_unbounded : (number .unbounded).Exact fun _ => True :=
  (exact_number _).congr fun x => by simp [Bounds.Admits, Bounds.unbounded]

theorem exact_atLeast (least : Binary64) : (number (.atLeast least)).Exact (least ≤ ·) :=
  (exact_number _).congr fun x => by simp [Bounds.Admits, Bounds.atLeast]

theorem exact_between (least most : Binary64) :
    (number (.between least most)).Exact fun x => least ≤ x ∧ x ≤ most :=
  (exact_number _).congr fun x => by simp [Bounds.Admits, Bounds.between, and_comm]

theorem exact_integer (b : Limits) : (integer b).Exact b.Admits where
  sound h := by
    obtain ⟨n, -, hn⟩ := Fallible.bind_eq_ok.mp h
    obtain ⟨rfl, hadmits⟩ := Limits.check_eq_ok.mp hn
    exact hadmits
  back ha full source := Limits.check_eq_ok.mpr ⟨rfl, ha⟩
  solid full a := Value.noConfusion
  short a := rfl

theorem exact_unlimited : (integer .unlimited).Exact fun _ => True :=
  (exact_integer _).congr fun n => by simp [Limits.Admits, Limits.unlimited]

theorem exact_integerAtLeast (least : Int) : (integer (.atLeast least)).Exact (least ≤ ·) :=
  (exact_integer _).congr fun n => by simp [Limits.Admits, Limits.atLeast]

theorem exact_integerBetween (least most : Int) :
    (integer (.between least most)).Exact fun n => least ≤ n ∧ n ≤ most :=
  (exact_integer _).congr fun n => by simp [Limits.Admits, Limits.between, and_comm]

theorem exact_bool : bool.Exact fun _ => True :=
  ⟨fun _ => trivial, fun _ _ _ => rfl, fun _ _ => Value.noConfusion, fun _ => rfl⟩

theorem exact_text : text.Exact fun _ => True :=
  ⟨fun _ => trivial, fun _ _ _ => rfl, fun _ _ => Value.noConfusion, fun _ => rfl⟩

/-- One of several words, of which each one is found by its name. -/
theorem exact_word {members : List α} {name : α → String}
    (h : ∀ a, (members.find? fun b => name b = name a) = some a) :
    (word members name).Exact fun _ => True where
  sound _ := trivial
  back {a} _ full source := by simp [word, h a]
  solid full a := Value.noConfusion
  short a := rfl

theorem exact_magnitude {members : List α} {size : α → Int}
    (h : ∀ a, (members.find? fun b => size b = size a) = some a)
    (hrange : ∀ a, -Coercion.wordLimit ≤ size a ∧ size a < Coercion.wordLimit) :
    (magnitude members size).Exact fun _ => True where
  sound _ := trivial
  back {a} _ full source := by simp [magnitude, h a, hrange a]
  solid full a := Value.noConfusion
  short a := rfl

/-! ### Lists -/

theorem readItems_eq_ok {s : Schema α} {source : Source} {i : Nat} {vs : List Value}
    {xs : List α} :
    readItems s source i vs = .ok xs ↔
      List.Forall₂ (fun v a => s.read source v = .ok a) vs xs := by
  induction vs generalizing i xs with
  | nil =>
      rw [readItems, List.forall₂_nil_left_iff, Except.ok.injEq]
      exact eq_comm
  | cons v vs ih =>
      rw [readItems, Checked.apply_eq_ok, List.forall₂_cons_left_iff]
      constructor
      · rintro ⟨g, rest, hg, hrest, rfl⟩
        obtain ⟨a, ha, rfl⟩ := Fallible.map_eq_ok.mp hg
        exact ⟨a, rest, Checked.under_eq_ok.mp ha, ih.mp hrest, rfl⟩
      · rintro ⟨a, rest, ha, hrest, rfl⟩
        exact ⟨_, rest, Fallible.map_eq_ok.mpr ⟨a, Checked.under_eq_ok.mpr ha, rfl⟩,
          ih.mpr hrest, rfl⟩

theorem read_list {s : Schema α} {least : Nat} {most : Option Nat} {source : Source} {v : Value}
    {xs : List α} (h : (list s least most).read source v = .ok xs) :
    ∃ items, v = .list items ∧ List.Forall₂ (fun v a => s.read source v = .ok a) items xs ∧
      least ≤ xs.length ∧ ∀ m ∈ most, xs.length ≤ m := by
  dsimp only [list] at h
  split at h
  case h_2 => cases h
  case h_1 items =>
    split at h
    case h_1 => cases h
    case h_2 hmost =>
      split at h
      case h_1 => cases h
      case h_2 values hvalues =>
        split at h
        · cases h
        · rename_i hleast
          cases h
          have hitems := readItems_eq_ok.mp hvalues
          refine ⟨items, rfl, hitems, Nat.le_of_not_lt hleast, fun m hm => ?_⟩
          rw [← hitems.length_eq]
          by_contra hlong
          have hfilter : most.filter (fun m => decide (m < items.length)) = some m := by
            rw [Option.mem_def.mp hm]
            simp [Nat.lt_of_not_le hlong]
          rw [hfilter] at hmost
          cases hmost

theorem exact_list {s : Schema α} {P : α → Prop} (h : s.Exact P) (least : Nat)
    (most : Option Nat) :
    (list s least most).Exact fun xs =>
      (∀ a ∈ xs, P a) ∧ least ≤ xs.length ∧ ∀ m ∈ most, xs.length ≤ m where
  sound {source v xs} hread := by
    obtain ⟨items, -, hitems, hlength⟩ := read_list hread
    refine ⟨fun a ha => ?_, hlength⟩
    obtain ⟨i, hi, rfl⟩ := List.mem_iff_getElem.mp ha
    have hlen := hitems.length_eq
    exact h.sound (List.forall₂_iff_get.mp hitems |>.2 i (by omega) hi)
  back {xs} ha full source := by
    obtain ⟨hall, hleast, hmost⟩ := ha
    have hitems : readItems s source 0 (xs.map (s.write full)) = .ok xs :=
      readItems_eq_ok.mpr <| List.forall₂_map_left_iff.mpr <| List.forall₂_same.mpr
        fun a ha => h.back (hall a ha) full source
    have hshort : most.filter (fun m => decide (m < xs.length)) = none := by
      rw [Option.filter_eq_none_iff]
      intro m hm
      simp [Nat.not_lt.mpr (hmost m hm)]
    simp only [list, List.length_map, hshort, hitems, Nat.not_lt.mpr hleast, if_false]
  solid full a := Value.noConfusion
  short xs := by simp [list, Value.withoutNulls, Function.comp_def, h.short]

theorem exact_items {s : Schema α} {P : α → Prop} (h : s.Exact P) :
    (list s).Exact fun xs => ∀ a ∈ xs, P a :=
  (exact_list h 0 none).congr fun xs => by simp

end Schema

/-! ### Fields -/

namespace Field

variable {ρ α : Type} {s : Schema α} {P : α → Prop} {name : String}

theorem short_of_always (h : s.Exact P) {f : Field ρ α} {get : ρ → α}
    (hwrite : ∀ full r, f.write full r = some (s.write full (get r))) (r : ρ) :
    Value.fieldsWithoutNulls (f.entry true r) = f.entry false r := by
  simp only [entry, hwrite, Option.map_some, Option.toList_some]
  rw [Value.fieldsWithoutNulls_of_ne_null (h.solid true (get r)), h.short]

theorem Exact.required (h : s.Exact P) {get : ρ → α} : (required name s get).Exact get P where
  sound {source v a} hread := by
    obtain ⟨w, -, hw⟩ := Field.read_required hread
    exact h.sound hw
  back hr full source := h.back hr full source
  short := short_of_always h fun _ _ => rfl

theorem Exact.withDefault (h : s.Exact P) {get : ρ → α} {value : α} (hvalue : P value) :
    (withDefault name s get value).Exact get P where
  sound {source v a} hread := by
    cases v with
    | none =>
        cases hread
        exact hvalue
    | some v => exact h.sound hread
  back hr full source := h.back hr full source
  short := short_of_always h fun _ _ => rfl

theorem Exact.optional (h : s.Exact P) {get : ρ → Option α} :
    (optional name s get).Exact get fun x => ∀ a ∈ x, P a where
  sound {source v x} hread := by
    intro a ha
    obtain rfl := Option.mem_def.mp ha
    obtain ⟨w, -, hw⟩ := Field.read_optional hread
    exact h.sound hw
  back {r} hr full source := by
    dsimp only [Field.optional]
    cases hget : get r with
    | none => cases full <;> rfl
    | some a =>
        have hread := h.back (hr a hget) full source
        have hsolid := h.solid full a
        show s.nullable.read source (s.write full a) = .ok (some a)
        unfold Schema.nullable
        dsimp only
        split
        · exact absurd ‹_› hsolid
        · rw [hread]
          rfl
  short r := by
    cases hget : get r with
    | none => simp [entry, Field.optional, hget, Value.fieldsWithoutNulls]
    | some a =>
        simp only [entry, Field.optional, hget, Option.map_some, Option.toList_some]
        rw [Value.fieldsWithoutNulls_of_ne_null (h.solid true a), h.short]

end Field

theorem Value.lookup_append (xs ys : List (String × Value)) (key : String) :
    lookup (xs ++ ys) key = (lookup ys key).or (lookup xs key) := by
  simp [lookup, List.reverse_append, List.find?_append, Option.map_or]

theorem Value.lookup_eq_none {fields : List (String × Value)} {key : String}
    (h : ∀ p ∈ fields, p.1 ≠ key) : lookup fields key = none := by
  simp only [lookup, Option.map_eq_none_iff, List.find?_eq_none, List.mem_reverse]
  intro p hp
  simpa using h p hp

theorem Field.lookup_entry {ρ α : Type} (f : Field ρ α) (full : Bool) (r : ρ) (key : String) :
    Value.lookup (f.entry full r) key = if key = f.name then f.write full r else none := by
  unfold entry
  by_cases h : key = f.name
  · cases f.write full r <;> simp [Value.lookup, h]
  · cases f.write full r <;> simp [Value.lookup, h, Ne.symm h]

namespace Fields

variable {ρ α β : Type}

theorem Exact.build (a : α) :
    (Fields.build a : Fields ρ α).Exact (fun _ => a) (fun _ => True) (fun Q => Q a) where
  written full r p hp := absurd hp List.not_mem_nil
  sound hread Q hQ := by
    cases hread
    exact hQ
  back _ _ _ _ _ := rfl
  short _ := rfl

@[simp] theorem lookup_field (fs : Fields ρ (α → β)) (f : Field ρ α) (full : Bool) (r : ρ)
    (key : String) :
    Value.lookup ((fs.field f).write full r) key =
      (if key = f.name then f.write full r else none).or (Value.lookup (fs.write full r) key) := by
  rw [← Field.lookup_entry, ← Value.lookup_append]
  rfl

/-- One more field, of another name. -/
theorem Exact.field {fs : Fields ρ (α → β)} {get : ρ → α → β} {valid : ρ → Prop}
    {made : ((α → β) → Prop) → Prop} {f : Field ρ α} {part : ρ → α} {P : α → Prop}
    (hfs : fs.Exact get valid made) (hf : f.Exact part P)
    (hname : f.name ∉ fs.names := by decide) :
    (fs.field f).Exact (fun r => get r (part r)) (fun r => valid r ∧ P (part r))
      (fun Q => made fun g => ∀ a, P a → Q (g a)) where
  written full r p hp := by
    simp only [Fields.field, List.mem_append, Option.mem_toList, Option.map_eq_some_iff] at hp ⊢
    rcases hp with hp | ⟨v, -, rfl⟩
    · exact .inl (hfs.written full r p hp)
    · exact .inr List.mem_cons_self
  sound hread Q hQ := by
    obtain ⟨g, a, hg, ha, rfl⟩ := Fields.read_field_eq_ok.mp hread
    exact hfs.sound hg hQ a (hf.sound ha)
  back {r} hr full values hvalues source := by
    have hfront : Value.lookup (fs.write full r) f.name = none :=
      Value.lookup_eq_none fun p hp heq => hname (heq ▸ hfs.written full r p hp)
    refine Fields.read_field_eq_ok.mpr
      ⟨get r, part r, hfs.back hr.1 full values ?_ source, ?_, rfl⟩
    · intro n hn
      have hother : n ≠ f.name := fun heq => hname (heq ▸ hn)
      rw [hvalues n (List.mem_append_left _ hn), lookup_field, if_neg hother, Option.none_or]
    · rw [hvalues f.name (List.mem_append_right _ List.mem_cons_self), lookup_field, if_pos rfl,
        hfront, Option.or_none]
      exact hf.back hr.2 full source
  short r := by
    show Value.fieldsWithoutNulls (fs.write true r ++ f.entry true r) =
      fs.write false r ++ f.entry false r
    rw [Value.fieldsWithoutNulls_append, hfs.short, hf.short]

end Fields

namespace Form

variable {α : Type} {title : String} {fs : Fields α α} {review : α → List Reason} {get : α → α}
  {valid P : α → Prop} {made : (α → Prop) → Prop}

/-- A record that is valid in its fields and passes its review is read back. -/
theorem read_write (h : fs.Exact get valid made) (hget : ∀ a, get a = a) {a : α} (ha : valid a)
    (hreview : review a = []) (full : Bool) (source : Source) :
    (ofFields title fs review).read source ((ofFields title fs review).write full a) = .ok a := by
  have hknown : unknownKeys fs.names (fs.write full a) = [] := by
    simp only [unknownKeys, List.map_eq_nil_iff, List.filter_eq_nil_iff]
    intro p hp
    simp [h.written full a p hp]
  have hread := h.back ha full _ (fun _ _ => rfl) source
  rw [hget] at hread
  simp only [ofFields, hknown, hread, hreview, ne_eq, not_true_eq_false, if_false]

/-- A record whose fields have an exact account, and that is valid when its fields are. -/
theorem exact_ofFields (h : fs.Exact get valid made)
    (hget : ∀ a, get a = a := by exact fun _ => rfl)
    (hmade : made P := by beta_reduce; intros; constructor <;> assumption)
    (hvalid : ∀ a, P a → valid a := by
      rintro _ ⟨⟩
      repeat' first | assumption | trivial | exact fun _ _ => trivial | apply And.intro) :
    (ofFields title fs).toSchema.Exact P where
  sound hread := by
    obtain ⟨values, -, hfields⟩ := read_ofFields hread
    exact h.sound hfields hmade
  back ha full source := read_write h hget (hvalid _ ha) rfl full source
  solid full a := Value.noConfusion
  short a := by
    show Value.withoutNulls (.object (fs.write true a)) = .object (fs.write false a)
    rw [Value.withoutNulls, h.short]

/-- A record that was put together from parts is accepted as it is, if its fields are valid and it
passes its review. -/
theorem accept_of_review (h : fs.Exact get valid made) (hget : ∀ a, get a = a) {a : α}
    (ha : valid a) (hreview : review a = []) :
    (ofFields title fs review).accept a = .ok a := by
  have hread : (ofFields title fs review).read .value
      ((ofFields title fs review).write false a) = .ok a :=
    read_write h hget ha hreview false .value
  simp only [accept, validate, dump, hread, Except.mapError]

variable {f : Form α} {P : α → Prop}

theorem valid_of_validate (h : f.toSchema.Exact P) {v : Value} {a : α}
    (hv : f.validate v = .ok a) : P a := h.sound (read_of_validate hv)

/-- A record is read from some value at hand, or from some JSON text. -/
def Reads (f : Form α) (a : α) : Prop :=
  (∃ v, f.validate v = .ok a) ∨ ∃ s, f.validateDocument s = .ok a

/-- What is read from any value or text is valid. -/
theorem valid_of_reads (h : f.toSchema.Exact P) {a : α} (hread : f.Reads a) : P a := by
  rcases hread with ⟨v, hv⟩ | ⟨s, hs⟩
  · exact valid_of_validate h hv
  · unfold validateDocument at hs
    split at hs
    · cases hs
    · exact h.sound (Fallible.mapError_eq_ok.mp hs)

/-- A record that was put together from parts is accepted as it is, if it is valid. -/
theorem accept_eq_ok (h : f.toSchema.Exact P) {a : α} (ha : P a) : f.accept a = .ok a := by
  have hread : f.read .value (f.write false a) = .ok a := h.back ha false .value
  simp [accept, validate, dump, hread, Except.mapError]

/-- What is read from some JSON text is read from some value as well. -/
theorem validate_of_reads (h : f.toSchema.Exact P) {a : α} (hread : f.Reads a) :
    ∃ v, f.validate v = .ok a :=
  ⟨f.dump a, accept_eq_ok h (valid_of_reads h hread)⟩

theorem valid_of_accept (h : f.toSchema.Exact P) {a b : α} (ha : f.accept a = .ok b) : P b :=
  valid_of_validate h ha

end Form

end Soundworks
