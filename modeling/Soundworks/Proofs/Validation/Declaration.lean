import Soundworks.Proofs.Validation.Exact
/-!
Declarations, and what keeps to them. A declaration is a tree: the bounds of a number, the members
of a literal, the fields of a record with how each one may be missing. A value keeps to it, held as
another value, if at every place the raw value is one that the declaration allows there and the held
value is what it stands for. A form declares a tree if whatever it reads keeps to the tree.

A record is built one field after the other, so its first fields yield a function of those that are
still to come, and what is held for them is known only once all of them are there. Until then the
values that were read so far are carried along as what can be `made` of them. For a record of a
given type this becomes, after its last field, an equation that holds by definition.
-/

namespace Soundworks

/-- How a field may be missing. -/
inductive Presence where
  | required
  | optional
  | withDefault (held : Value)

/-- What is declared of a value. -/
inductive Declaration where
  | number (b : Bounds)
  | integer (b : Limits)
  | truth
  | word (members : List String)
  | magnitude (members : List Int)
  | items (least most : Nat) (item : Declaration)
  | record (fields : List (String × Presence × Declaration))

/-- A raw value, or none, is held for a field: it keeps to what is declared, or it is missing and
may be. -/
def Presence.Keeps (p : Presence) (keeps : Value → Value → Prop) (raw : Option Value)
    (held : Value) : Prop :=
  (∃ v, raw = some v ∧ keeps v held) ∨
    match p with
    | .required => False
    | .optional => (raw = none ∨ raw = some .null) ∧ held = .null
    | .withDefault value => raw = none ∧ held = value

/-- An integer or a number of equal value stands for an integer, and so does a truth value for zero
or one. -/
def Value.StandsFor (n : Int) : Value → Prop
  | .integer k => k = n
  | .number x => x.toInt? = some n
  | .bool b => (if b then 1 else 0) = n
  | _ => False

namespace Declaration

mutual

/-- A raw value keeps to a declaration, held as another value. -/
def Keeps : Declaration → Value → Value → Prop
  | .number b, raw, held => ∃ x, Coercion.number raw = .ok x ∧ held = .number x ∧ b.Admits x ∧
      (b.least.isSome ∨ b.most.isSome → x.isNaN = false)
  | .integer b, raw, held => ∃ n, Coercion.integer raw = .ok n ∧ held = .integer n ∧ b.Admits n
  | .truth, raw, held => ∃ b, Coercion.bool raw = .ok b ∧ held = .bool b
  | .word members, raw, held => ∃ s ∈ members, raw = .text s ∧ held = .text s
  | .magnitude members, raw, held => ∃ n ∈ members, raw.StandsFor n ∧ held = .integer n
  | .items least most item, raw, held => ∃ raws helds, raw = .list raws ∧ held = .list helds ∧
      (least ≤ helds.length ∧ helds.length ≤ most) ∧ List.Forall₂ item.Keeps raws helds
  | .record fields, raw, held => ∃ values parts, raw = .object values ∧ held = .object parts ∧
      (∀ p ∈ values, p.1 ∈ fields.map (·.1)) ∧ FieldsKeep fields values parts

/-- The fields of a record keep to their declarations, held in their order. -/
def FieldsKeep : List (String × Presence × Declaration) → List (String × Value) →
    List (String × Value) → Prop
  | [], _, parts => parts = []
  | (name, presence, d) :: rest, values, parts => ∃ held others, parts = (name, held) :: others ∧
      presence.Keeps d.Keeps (Value.lookup values name) held ∧ FieldsKeep rest values others

end

end Declaration

/-- Whatever a schema reads keeps to a declaration, held as the schema writes it in full. -/
structure Schema.Declares {α : Type} (s : Schema α) (d : Declaration) : Prop where
  keeps : ∀ {source : Source} {v : Value} {a : α}, s.read source v = .ok a →
    d.Keeps v (s.write true a)

/-- Whatever a field reads keeps to a declaration, held as it is written. -/
structure Field.Declares {ρ α : Type} (f : Field ρ α) (write : α → Option Value) (p : Presence)
    (d : Declaration) : Prop where
  keeps : ∀ {source : Source} {raw : Option Value} {a : α}, f.read source raw = .ok a →
    ∃ held, write a = some held ∧ p.Keeps d.Keeps raw held

/-- The first fields of a record. Whatever they read is held as some fields that keep to their
declarations, and everything that is `made` in this way has a property together with the fields
that it is held as. -/
structure Fields.Declares {ρ α : Type} (fs : Fields ρ α)
    (ds : List (String × Presence × Declaration))
    (made : (α → List (String × Value) → Prop) → Prop) : Prop where
  names : fs.names = ds.map (·.1)
  keeps : ∀ {source : Source} {values : List (String × Value)} {a : α},
    fs.read source values = .ok a → ∀ {Q : α → List (String × Value) → Prop}, made Q →
      ∃ parts, Declaration.FieldsKeep ds values parts ∧ Q a parts

/-! ### Single values -/

theorem Bounds.Admits.isNaN_eq_false {b : Bounds} {x : Binary64} (h : b.Admits x)
    (hb : b.least.isSome ∨ b.most.isSome) : x.isNaN = false := by
  cases x with
  | nan =>
      rcases hb with hb | hb
      · obtain ⟨l, hl⟩ := Option.isSome_iff_exists.mp hb
        have hle := h.2 l hl
        cases l <;> cases hle
      · obtain ⟨m, hm⟩ := Option.isSome_iff_exists.mp hb
        cases h.1 m hm
  | infinite s => rfl
  | finite s m e hc => rfl

namespace Schema

variable {α : Type}

theorem declares_number (b : Bounds) : (number b).Declares (.number b) where
  keeps h := by
    obtain ⟨x, hx, hcheck⟩ := Fallible.bind_eq_ok.mp h
    obtain ⟨rfl, hadmits⟩ := Bounds.check_eq_ok.mp hcheck
    exact ⟨x, hx, rfl, hadmits, hadmits.isNaN_eq_false⟩

theorem declares_integer (b : Limits) : (integer b).Declares (.integer b) where
  keeps h := by
    obtain ⟨n, hn, hcheck⟩ := Fallible.bind_eq_ok.mp h
    obtain ⟨rfl, hadmits⟩ := Limits.check_eq_ok.mp hcheck
    exact ⟨n, hn, rfl, hadmits⟩

theorem declares_bool : bool.Declares .truth where
  keeps h := ⟨_, h, rfl⟩

theorem find?_of_getD {β : Type} [DecidableEq β] {members : List α} {key : α → β} {b : β} {a : α}
    {r : Reason}
    (h : ((members.find? fun a => key a = b).map Except.ok).getD (Checked.fail r) = .ok a) :
    a ∈ members ∧ key a = b := by
  cases hfind : members.find? fun a => key a = b with
  | none =>
      rw [hfind] at h
      cases h
  | some c =>
      rw [hfind] at h
      cases h
      exact ⟨List.mem_of_find?_eq_some hfind, by simpa using List.find?_some hfind⟩

theorem declares_word (members : List α) (name : α → String) :
    (word members name).Declares (.word (members.map name)) where
  keeps {source v a} h := by
    cases v with
    | text s =>
        obtain ⟨hmem, rfl⟩ := find?_of_getD h
        exact ⟨name a, List.mem_map_of_mem hmem, rfl, rfl⟩
    | _ => cases h

theorem declares_magnitude (members : List α) (size : α → Int) :
    (magnitude members size).Declares (.magnitude (members.map size)) where
  keeps {source v a} h := by
    dsimp only [magnitude] at h
    cases v with
    | integer n =>
        dsimp only at h
        split at h
        · obtain ⟨hmem, rfl⟩ := find?_of_getD h
          exact ⟨size a, List.mem_map_of_mem hmem, rfl, rfl⟩
        · cases h
    | number x =>
        cases hx : x.toInt? with
        | none => simp [hx, Checked.fail] at h
        | some n =>
            simp only [hx, Option.map_some, Option.getD_some] at h
            obtain ⟨hmem, rfl⟩ := find?_of_getD h
            exact ⟨size a, List.mem_map_of_mem hmem, hx, rfl⟩
    | bool b =>
        obtain ⟨hmem, hsize⟩ := find?_of_getD h
        exact ⟨size a, List.mem_map_of_mem hmem, hsize.symm, rfl⟩
    | _ => cases h

theorem Declares.list {s : Schema α} {d : Declaration} (h : s.Declares d) (least most : Nat) :
    (Schema.list s least (some most)).Declares (.items least most d) where
  keeps {source v xs} hread := by
    obtain ⟨items, rfl, hitems, hleast, hmost⟩ := read_list hread
    refine ⟨items, _, rfl, rfl, ⟨by simpa using hleast, by simpa using hmost most rfl⟩, ?_⟩
    rw [List.forall₂_map_right_iff]
    exact hitems.imp fun _ _ hitem => h.keeps hitem

end Schema

/-! ### Fields -/

namespace Field.Declares

variable {ρ α : Type} {s : Schema α} {d : Declaration} {name : String}

theorem required (h : s.Declares d) {get : ρ → α} :
    (Field.required name s get).Declares (fun a => some (s.write true a)) .required d where
  keeps hread := by
    obtain ⟨w, rfl, hw⟩ := Field.read_required hread
    exact ⟨_, rfl, .inl ⟨w, rfl, h.keeps hw⟩⟩

theorem withDefault (h : s.Declares d) {get : ρ → α} {value : α} :
    (Field.withDefault name s get value).Declares (fun a => some (s.write true a))
      (.withDefault (s.write true value)) d where
  keeps {source raw a} hread := by
    refine ⟨_, rfl, ?_⟩
    cases raw with
    | none =>
        cases hread
        exact .inr ⟨rfl, rfl⟩
    | some v => exact .inl ⟨v, rfl, h.keeps hread⟩

/-- In full, a field that is left out is written as null. -/
theorem optional (h : s.Declares d) {get : ρ → Option α} :
    (Field.optional name s get).Declares ((Field.optional name s id).write true) .optional d where
  keeps {source raw x} hread := by
    cases x with
    | some a =>
        obtain ⟨w, rfl, hw⟩ := Field.read_optional hread
        exact ⟨_, rfl, .inl ⟨w, rfl, h.keeps hw⟩⟩
    | none => exact ⟨_, rfl, .inr ⟨Field.read_optional_none hread, rfl⟩⟩

end Field.Declares

namespace Declaration

theorem fieldsKeep_concat {ds : List (String × Presence × Declaration)}
    {values parts : List (String × Value)} {name : String} {p : Presence} {d : Declaration}
    {held : Value} (h : FieldsKeep ds values parts)
    (hheld : p.Keeps d.Keeps (Value.lookup values name) held) :
    FieldsKeep (ds ++ [(name, p, d)]) values (parts ++ [(name, held)]) := by
  induction ds generalizing parts with
  | nil =>
      obtain rfl : parts = [] := h
      exact ⟨held, [], rfl, hheld, rfl⟩
  | cons e ds ih =>
      obtain ⟨name', p', d'⟩ := e
      obtain ⟨held', others, rfl, hheld', hothers⟩ := h
      exact ⟨held', _, rfl, hheld', ih hothers⟩

end Declaration

namespace Fields.Declares

variable {ρ α β : Type}

theorem build (a : α) : (Fields.build a : Fields ρ α).Declares [] (fun Q => Q a []) where
  names := rfl
  keeps hread Q hQ := by
    cases hread
    exact ⟨[], rfl, hQ⟩

theorem field {fs : Fields ρ (α → β)} {ds : List (String × Presence × Declaration)}
    {made : ((α → β) → List (String × Value) → Prop) → Prop} {f : Field ρ α}
    {write : α → Option Value} {p : Presence} {d : Declaration} (hfs : fs.Declares ds made)
    (hf : f.Declares write p d) :
    (fs.field f).Declares (ds ++ [(f.name, p, d)])
      (fun Q => made fun g parts =>
        ∀ a, Q (g a) (parts ++ ((write a).map fun v => (f.name, v)).toList)) where
  names := by
    show fs.names ++ [f.name] = _
    rw [hfs.names, List.map_append, List.map_singleton]
  keeps hread Q hQ := by
    obtain ⟨g, a, hg, ha, rfl⟩ := Fields.read_field_eq_ok.mp hread
    obtain ⟨parts, hparts, hmade⟩ := hfs.keeps hg hQ
    obtain ⟨held, hwrite, hheld⟩ := hf.keeps ha
    have hQa := hmade a
    rw [hwrite] at hQa
    exact ⟨_, Declaration.fieldsKeep_concat hparts hheld, hQa⟩

end Fields.Declares

namespace Form

variable {α : Type} {title : String} {fs : Fields α α} {review : α → List Reason}
  {ds : List (String × Presence × Declaration)} {made : (α → List (String × Value) → Prop) → Prop}

/-- A record that is read has no key but those of its fields. -/
theorem known_of_read {source : Source} {values : List (String × Value)} {a : α}
    (h : (ofFields title fs review).read source (.object values) = .ok a) :
    ∀ p ∈ values, p.1 ∈ fs.names := by
  have hextra : unknownKeys fs.names values = [] := by
    unfold ofFields at h
    dsimp only at h
    split at h
    · cases h
    · split at h
      · cases h
      · rename_i hextra
        exact not_not.mp hextra
  intro p hp
  simp only [unknownKeys, List.map_eq_nil_iff, List.filter_eq_nil_iff] at hextra
  simpa using hextra p hp

theorem declares_ofFields (h : fs.Declares ds made)
    (hmade : made fun a parts => fs.write true a = parts) :
    (ofFields title fs review).toSchema.Declares (.record ds) where
  keeps {source v a} hread := by
    obtain ⟨values, rfl, hfields⟩ := read_ofFields hread
    obtain ⟨parts, hparts, rfl⟩ := h.keeps hfields hmade
    exact ⟨values, _, rfl, rfl, h.names ▸ known_of_read hread, hparts⟩

end Form

/-! ### The objects in a value -/

/-- A value occurs in another one: it is the value itself, or it occurs in an item, or in what
stands for a key. -/
inductive Value.Occurs (w : Value) : Value → Prop where
  | self : Occurs w w
  | item {items : List Value} {v : Value} : v ∈ items → Occurs w v → Occurs w (.list items)
  | entry {values : List (String × Value)} {key : String} {v : Value} :
      Value.lookup values key = some v → Occurs w v → Occurs w (.object values)

theorem Value.mem_of_lookup {values : List (String × Value)} {key : String} {v : Value}
    (h : lookup values key = some v) : (key, v) ∈ values := by
  obtain ⟨f, hf, rfl⟩ := Option.map_eq_some_iff.mp h
  have hkey : f.1 = key := by simpa using List.find?_some hf
  rw [← hkey]
  exact List.mem_reverse.mp (List.mem_of_find?_eq_some hf)

namespace Declaration

/-- A declaration is part of another one. -/
inductive Part (d : Declaration) : Declaration → Prop where
  | self : Part d d
  | item {least most : Nat} {item : Declaration} : Part d item → Part d (.items least most item)
  | field {fields : List (String × Presence × Declaration)} {name : String} {p : Presence}
      {d' : Declaration} : (name, p, d') ∈ fields → Part d d' → Part d (.record fields)

/-- The keys of an object are those of a record that is part of a declaration. -/
def Allows (d : Declaration) (values : List (String × Value)) : Prop :=
  ∃ fields, Part (.record fields) d ∧ ∀ p ∈ values, p.1 ∈ fields.map (·.1)

theorem exists_keeps_of_mem {fields : List (String × Presence × Declaration)}
    {values parts : List (String × Value)} (h : FieldsKeep fields values parts) {name : String}
    {p : Presence} {d : Declaration} (hmem : (name, p, d) ∈ fields) :
    ∃ held, p.Keeps d.Keeps (Value.lookup values name) held := by
  induction fields generalizing parts with
  | nil => cases hmem
  | cons e fields ih =>
      obtain ⟨name', p', d'⟩ := e
      obtain ⟨held, others, -, hheld, hothers⟩ := h
      rcases List.mem_cons.mp hmem with heq | hmem
      · cases heq
        exact ⟨held, hheld⟩
      · exact ih hothers hmem

theorem exists_record_of_keeps {d : Declaration} {values : List (String × Value)} {held : Value}
    (h : d.Keeps (.object values) held) :
    ∃ fields parts, d = .record fields ∧ (∀ p ∈ values, p.1 ∈ fields.map (·.1)) ∧
      FieldsKeep fields values parts := by
  cases d with
  | record fields =>
      obtain ⟨_, parts, heq, -, hnames, hfields⟩ := h
      cases heq
      exact ⟨fields, parts, rfl, hnames, hfields⟩
  | items => obtain ⟨_, _, heq, -⟩ := h; cases heq
  | word => obtain ⟨_, -, heq, -⟩ := h; cases heq
  | magnitude => obtain ⟨_, -, heq, -⟩ := h; cases heq
  | _ => obtain ⟨_, hread, -⟩ := h; cases hread

theorem exists_items_of_keeps {d : Declaration} {raws : List Value} {held : Value}
    (h : d.Keeps (.list raws) held) :
    ∃ least most item helds, d = .items least most item ∧
      List.Forall₂ item.Keeps raws helds := by
  cases d with
  | items least most item =>
      obtain ⟨_, helds, heq, -, -, hitems⟩ := h
      cases heq
      exact ⟨least, most, item, helds, rfl, hitems⟩
  | record => obtain ⟨_, _, heq, -⟩ := h; cases heq
  | word => obtain ⟨_, -, heq, -⟩ := h; cases heq
  | magnitude => obtain ⟨_, -, heq, -⟩ := h; cases heq
  | _ => obtain ⟨_, hread, -⟩ := h; cases hread

/-- Every object in a value that keeps to a declaration has only keys that are declared there. -/
theorem allows_of_occurs {values : List (String × Value)} {v : Value}
    (h : (Value.object values).Occurs v) {d : Declaration} {held : Value}
    (hkeeps : d.Keeps v held) : d.Allows values := by
  induction h generalizing d held with
  | self =>
      obtain ⟨fields, -, rfl, hnames, -⟩ := exists_record_of_keeps hkeeps
      exact ⟨fields, .self, hnames⟩
  | item hmem _ ih =>
      obtain ⟨least, most, item, helds, rfl, hitems⟩ := exists_items_of_keeps hkeeps
      obtain ⟨i, hi, rfl⟩ := List.mem_iff_getElem.mp hmem
      have hheld := (List.forall₂_iff_get.mp hitems).2 i hi (hitems.length_eq ▸ hi)
      obtain ⟨fields, hpart, hnames⟩ := ih hheld
      exact ⟨fields, .item hpart, hnames⟩
  | @entry outer key w hlookup hoccurs ih =>
      obtain ⟨fields, parts, rfl, hnames, hfields⟩ := exists_record_of_keeps hkeeps
      obtain ⟨⟨name, p, d⟩, hmem, rfl⟩ := List.mem_map.mp (hnames _ (Value.mem_of_lookup hlookup))
      obtain ⟨held, hheld⟩ := exists_keeps_of_mem hfields hmem
      rw [hlookup] at hheld
      rcases hheld with ⟨w, heq, hheld⟩ | hmissing
      · cases heq
        obtain ⟨fields', hpart, hnames'⟩ := ih hheld
        exact ⟨fields', .field hmem hpart, hnames'⟩
      -- what stands for a field that is missing is null, and nothing occurs in that
      · cases p with
        | required => exact hmissing.elim
        | withDefault value => cases hmissing.1
        | optional =>
            obtain rfl := Option.some.inj (hmissing.1.resolve_left (Option.some_ne_none _))
            cases hoccurs

end Declaration

end Soundworks
