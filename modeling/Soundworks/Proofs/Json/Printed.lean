import Soundworks.Proofs.Json.Scalars
/-!
A printed document and its readers. A reader takes the text of a value for this value and for
nothing else, if its dialect holds the value; otherwise it refuses the text. So a printed text is
one document to every reader, as long as all numbers in it are finite: there are readers that have
no words for the other ones.
-/

namespace Soundworks

/-- A property of all values, by way of the values that stand in them. -/
@[elab_as_elim]
theorem Value.induction {P : Value → Prop} (null : P .null) (bool : ∀ b, P (.bool b))
    (integer : ∀ n, P (.integer n)) (number : ∀ x, P (.number x)) (text : ∀ s, P (.text s))
    (list : ∀ items, (∀ v ∈ items, P v) → P (.list items))
    (object : ∀ fields, (∀ f ∈ fields, P f.2) → P (.object fields)) : ∀ v, P v
  | .null => null
  | .bool b => bool b
  | .integer n => integer n
  | .number x => number x
  | .text s => text s
  | .list items => list items fun v hv =>
      have := List.sizeOf_lt_of_mem hv
      Value.induction null bool integer number text list object v
  | .object fields => object fields fun f hf =>
      have := List.sizeOf_lt_of_mem hf
      Value.induction null bool integer number text list object f.2
termination_by v => sizeOf v
decreasing_by
  · simp_wf
    omega
  · rcases f with ⟨key, v⟩
    simp_wf
    simp only [Prod.mk.sizeOf_spec] at this
    omega

/-- All numbers in a value are finite. -/
inductive Value.Finite : Value → Prop
  | null : Finite .null
  | bool {b : Bool} : Finite (.bool b)
  | integer {n : ℤ} : Finite (.integer n)
  | number {x : Binary64} : x.isFinite = true → Finite (.number x)
  | text {s : String} : Finite (.text s)
  | list {items : List Value} : (∀ v ∈ items, Finite v) → Finite (.list items)
  | object {fields : List (String × Value)} : (∀ f ∈ fields, Finite f.2) → Finite (.object fields)

theorem Value.finite_list_iff {items : List Value} :
    (Value.list items).Finite ↔ ∀ v ∈ items, v.Finite :=
  ⟨fun h => by cases h; assumption, .list⟩

theorem Value.finite_object_iff {fields : List (String × Value)} :
    (Value.object fields).Finite ↔ ∀ f ∈ fields, f.2.Finite :=
  ⟨fun h => by cases h; assumption, .object⟩

namespace Json

/-- A style whose marks are commas, colons and gaps. -/
structure Style.Regular (st : Style) : Prop where
  line : ∀ level, ∀ c ∈ (st.line level).toList, isGap c = true
  comma : st.comma = ","
  colon : ∃ gap, st.colon.toList = ':' :: gap ∧ ∀ c ∈ gap, isGap c = true

theorem regular_indented (width : ℕ) : (Style.indented width).Regular where
  line := by
    intro level c hc
    simp only [Style.indented, String.toList_append, String.toList_ofList, List.mem_append,
      List.mem_replicate] at hc
    rcases hc with hc | ⟨-, rfl⟩
    · rw [List.mem_singleton.mp hc]
      rfl
    · rfl
  comma := rfl
  colon := ⟨[' '], by simp [Style.indented], by simp [isGap]⟩

section

variable {st : Style} {d : Dialect} {level fuel depth : ℕ} {rest : List Char}
  {r : Value × List Char}

/-- The text of a value starts with neither a gap nor a bracket that closes. -/
theorem exists_value_eq_cons (st : Style) (level : ℕ) (v : Value) :
    ∃ c cs, (st.value level v).toList = c :: cs ∧ isGap c = false ∧ c ≠ ']' := by
  have hdigits : ∀ {ds : List Char} (negative : Bool), Decimal.Digits ds → ∀ rest,
      ∃ c cs, Decimal.withSign negative (ds ++ rest) = c :: cs ∧ isGap c = false ∧ c ≠ ']' := by
    intro ds negative hds rest
    obtain ⟨c, cs, hcons, hc⟩ := exists_cons_of_digits hds rest
    rw [hcons]
    cases negative with
    | true => exact ⟨'-', _, rfl, by decide, by decide⟩
    | false =>
        refine ⟨c, cs, rfl, ?_, ?_⟩
        · rw [Bool.eq_false_iff]
          intro hgap
          simp only [isGap, Bool.or_eq_true, decide_eq_true_eq] at hgap
          rcases hgap with ((rfl | rfl) | rfl) | rfl <;> cases hc
        · rintro rfl
          cases hc
  cases v with
  | null =>
      rw [Style.value]
      exact ⟨'n', _, rfl, by decide⟩
  | bool b =>
      rw [Style.value]
      cases b with
      | true => exact ⟨'t', _, rfl, by decide⟩
      | false => exact ⟨'f', _, rfl, by decide⟩
  | integer n =>
      have h := hdigits (n < 0) (Decimal.digits_toDigits n.natAbs) []
      rw [List.append_nil] at h
      rw [Style.value, String.toList_ofList]
      exact h
  | number x =>
      rw [Style.value]
      cases x with
      | nan => exact ⟨'N', _, rfl, by decide⟩
      | infinite s =>
          cases s with
          | true => exact ⟨'-', _, rfl, by decide⟩
          | false => exact ⟨'I', _, rfl, by decide⟩
      | finite s m e hc =>
          obtain ⟨_, ⟨whole, _, fraction, power, _, hchars, hwhole, -⟩, -⟩ :=
            Binary64.exists_standard (x := .finite s m e hc) rfl
          have htext : (numberText (.finite s m e hc)).toList =
              (Binary64.finite s m e hc).chars := String.toList_ofList
          rw [htext, hchars]
          exact hdigits _ hwhole.1 _
  | text s =>
      rw [Style.value, toList_quote]
      exact ⟨'"', _, rfl, by decide⟩
  | list items =>
      cases items with
      | nil =>
          rw [Style.value]
          exact ⟨'[', _, rfl, by decide⟩
      | cons v vs =>
          simp only [Style.value, String.toList_append]
          exact ⟨'[', _, rfl, by decide⟩
  | object fields =>
      cases fields with
      | nil =>
          rw [Style.value]
          exact ⟨'{', _, rfl, by decide⟩
      | cons f fs =>
          obtain ⟨k, v⟩ := f
          simp only [Style.value, String.toList_append]
          exact ⟨'{', _, rfl, by decide⟩

theorem skipGap_value (st : Style) {gap : List Char} (h : ∀ c ∈ gap, isGap c = true) (level : ℕ)
    (v : Value) (rest : List Char) : skipGap (gap ++ ((st.value level v).toList ++ rest)) =
      (st.value level v).toList ++ rest := by
  obtain ⟨c, cs, hcons, hc, -⟩ := exists_value_eq_cons st level v
  rw [skipGap_append h, hcons]
  exact skipGap_cons hc _

/-! ### Lists and objects -/

/-- The text of a value is read as the value by the readers whose dialect holds it. -/
def ReadsBack (st : Style) (d : Dialect) (v : Value) : Prop :=
  -- an item takes a step of its list and a step of its own, and it has at least one character
  ∀ (level fuel depth : ℕ) (rest : List Char) (r : Value × List Char),
    2 * (st.value level v).toList.length ≤ fuel → Ends rest →
    (d.readValue fuel depth ((st.value level v).toList ++ rest) = some r ↔
      d.Holds depth v ∧ r = (v, rest))

theorem ReadsBack.eq_some {v : Value} (h : ReadsBack st d v)
    (hfuel : 2 * (st.value level v).toList.length ≤ fuel) (hrest : Ends rest)
    (hv : d.Holds depth v) :
    d.readValue fuel depth ((st.value level v).toList ++ rest) = some (v, rest) :=
  (h _ _ _ _ _ hfuel hrest).mpr ⟨hv, rfl⟩

theorem ReadsBack.eq_none {v : Value} (h : ReadsBack st d v)
    (hfuel : 2 * (st.value level v).toList.length ≤ fuel) (hrest : Ends rest)
    (hv : ¬d.Holds depth v) :
    d.readValue fuel depth ((st.value level v).toList ++ rest) = none :=
  Option.eq_none_iff_forall_ne_some.mpr fun _ hr => hv ((h _ _ _ _ _ hfuel hrest).mp hr).1

theorem ends_of_gap {gap : List Char} (h : ∀ c ∈ gap, isGap c = true) {c : Char}
    (hc : c = ',' ∨ c = ']' ∨ c = '}') (rest : List Char) : Ends (gap ++ c :: rest) := by
  intro c' hc'
  cases gap with
  | nil =>
      obtain rfl : c = c' := by simpa using hc'
      exact .inr hc
  | cons g gap =>
      obtain rfl : g = c' := by simpa using hc'
      exact .inl (h g List.mem_cons_self)

theorem toList_items_cons (hst : st.Regular) (level : ℕ) (v : Value) (vs : List Value) :
    (st.items level (v :: vs)).toList = ',' :: ((st.line level).toList ++
      ((st.value level v).toList ++ (st.items level vs).toList)) := by
  simp [Style.items, hst.comma]

/-- The items of a list are read one after the other. The induction is on the items after the
first one. -/
theorem readItems_items (hst : st.Regular) {v : Value} {vs : List Value}
    (hall : ∀ w ∈ v :: vs, ReadsBack st d w) (read : List Value) {gap : List Char}
    (hgap : ∀ c ∈ gap, isGap c = true)
    (hfuel : 2 * ((st.value level v).toList.length + (st.items level vs).toList.length) + 1 ≤
      fuel) :
    d.readItems fuel depth read ((st.value level v).toList ++
        ((st.items level vs).toList ++ (gap ++ ']' :: rest))) = some r ↔
      (∀ w ∈ v :: vs, d.Holds depth w) ∧ r = (.list (read.reverse ++ v :: vs), rest) := by
  induction vs generalizing v read fuel with
  | nil =>
      obtain ⟨fuel, rfl⟩ : ∃ n, fuel = n + 1 := ⟨fuel - 1, by omega⟩
      have hnil : (st.items level []).toList = [] := by simp [Style.items]
      have hends : Ends (gap ++ ']' :: rest) := ends_of_gap hgap (.inr (.inl rfl)) rest
      have hskip : skipGap (gap ++ ']' :: rest) = ']' :: rest := by
        rw [skipGap_append hgap]
        exact skipGap_cons rfl rest
      rw [hnil] at hfuel ⊢
      rw [List.nil_append, Dialect.readItems, List.forall_mem_singleton]
      by_cases hv : d.Holds depth v
      · rw [(hall v List.mem_cons_self).eq_some (by omega) hends hv]
        simp [hskip, hv, eq_comm]
      · rw [(hall v List.mem_cons_self).eq_none (by omega) hends hv]
        simp [hv]
  | cons w vs ih =>
      obtain ⟨fuel, rfl⟩ : ∃ n, fuel = n + 1 := ⟨fuel - 1, by omega⟩
      have hcons := toList_items_cons hst level w vs
      rw [hcons] at hfuel ⊢
      simp only [List.length_cons, List.length_append] at hfuel
      have hlater : ∀ u ∈ w :: vs, ReadsBack st d u :=
        fun u hu => hall u (List.mem_cons_of_mem _ hu)
      have hskip := skipGap_value st (hst.line level) level w
        ((st.items level vs).toList ++ (gap ++ ']' :: rest))
      simp only [List.cons_append, List.append_assoc]
      rw [Dialect.readItems]
      by_cases hv : d.Holds depth v
      · rw [(hall v List.mem_cons_self).eq_some (by omega) (by simp [Ends]) hv]
        simp only [skipGap_cons (rfl : isGap ',' = false), hskip]
        rw [ih hlater (v :: read) (by omega)]
        simp [hv]
      · rw [(hall v List.mem_cons_self).eq_none (by omega) (by simp [Ends]) hv]
        simp [hv]

theorem toList_fields_cons (hst : st.Regular) (level : ℕ) (k : String) (v : Value)
    (fs : List (String × Value)) :
    (st.fields level ((k, v) :: fs)).toList = ',' :: ((st.line level).toList ++
      ((quote k).toList ++ (st.colon.toList ++
        ((st.value level v).toList ++ (st.fields level fs).toList)))) := by
  simp [Style.fields, hst.comma]

/-- Of a field the key is read first; what its value is read as decides how it goes on. -/
theorem readFields_key (hst : st.Regular) (read : List (String × Value)) {k : String} {v : Value}
    (hfuel : (quote k).toList.length ≤ fuel + 1) :
    d.readFields (fuel + 1) depth read
        ((quote k).toList ++ (st.colon.toList ++ ((st.value level v).toList ++ rest))) =
      match d.readValue fuel depth ((st.value level v).toList ++ rest) with
      | none => none
      | some (w, rest) =>
        match skipGap rest with
        | ',' :: rest => d.readFields fuel depth ((k, w) :: read) (skipGap rest)
        | '}' :: rest => some (.object ((k, w) :: read).reverse, rest)
        | _ => none := by
  obtain ⟨gap, hcolon, hgap⟩ := hst.colon
  obtain ⟨cs, hquote, hkey⟩ := readString_quote hfuel
    (st.colon.toList ++ ((st.value level v).toList ++ rest))
  rw [hcolon] at hkey
  have hstep := Dialect.readFields.eq_def d (fuel + 1) depth read ('"' :: cs)
  simp only [hkey, List.cons_append, skipGap_cons (rfl : isGap ':' = false),
    skipGap_value st hgap] at hstep
  rw [hquote]
  exact hstep

/-- The fields of an object are read one after the other. -/
theorem readFields_fields (hst : st.Regular) {k : String} {v : Value}
    {fs : List (String × Value)} (hall : ∀ f ∈ (k, v) :: fs, ReadsBack st d f.2)
    (read : List (String × Value)) {gap : List Char} (hgap : ∀ c ∈ gap, isGap c = true)
    (hfuel : 2 * ((quote k).toList.length + (st.value level v).toList.length +
      (st.fields level fs).toList.length) + 1 ≤ fuel) :
    d.readFields fuel depth read ((quote k).toList ++ (st.colon.toList ++
        ((st.value level v).toList ++ ((st.fields level fs).toList ++ (gap ++ '}' :: rest))))) =
      some r ↔
      (∀ f ∈ (k, v) :: fs, d.Holds depth f.2) ∧
        r = (.object (read.reverse ++ (k, v) :: fs), rest) := by
  induction fs generalizing k v read fuel with
  | nil =>
      obtain ⟨fuel, rfl⟩ : ∃ n, fuel = n + 1 := ⟨fuel - 1, by omega⟩
      have hback : ReadsBack st d v := hall (k, v) List.mem_cons_self
      have hnil : (st.fields level []).toList = [] := by simp [Style.fields]
      have hends : Ends (gap ++ '}' :: rest) := ends_of_gap hgap (.inr (.inr rfl)) rest
      have hskip : skipGap (gap ++ '}' :: rest) = '}' :: rest := by
        rw [skipGap_append hgap]
        exact skipGap_cons rfl rest
      rw [hnil, List.nil_append, List.forall_mem_singleton]
      by_cases hv : d.Holds depth v
      · rw [readFields_key hst read (by omega), hback.eq_some (by omega) hends hv]
        simp [hskip, hv, eq_comm]
      · rw [readFields_key hst read (by omega), hback.eq_none (by omega) hends hv]
        simp [hv]
  | cons f fs ih =>
      obtain ⟨fuel, rfl⟩ : ∃ n, fuel = n + 1 := ⟨fuel - 1, by omega⟩
      obtain ⟨k', v'⟩ := f
      have hback : ReadsBack st d v := hall (k, v) List.mem_cons_self
      have hcons := toList_fields_cons hst level k' v' fs
      rw [hcons] at hfuel ⊢
      simp only [List.length_cons, List.length_append] at hfuel
      have hlater : ∀ f ∈ (k', v') :: fs, ReadsBack st d f.2 :=
        fun f hf => hall f (List.mem_cons_of_mem _ hf)
      have hskip : ∀ cs, skipGap ((st.line level).toList ++ ((quote k').toList ++ cs)) =
          (quote k').toList ++ cs := by
        intro cs
        rw [skipGap_append (hst.line level), toList_quote]
        exact skipGap_cons rfl _
      simp only [List.cons_append, List.append_assoc]
      by_cases hv : d.Holds depth v
      · rw [readFields_key hst read (by omega), hback.eq_some (by omega) (by simp [Ends]) hv]
        simp only [skipGap_cons (rfl : isGap ',' = false), hskip]
        rw [ih hlater ((k, v) :: read) (by omega)]
        simp [hv]
      · rw [readFields_key hst read (by omega), hback.eq_none (by omega) (by simp [Ends]) hv]
        simp [hv]

/-! ### Values -/

theorem holds_list_iff {items : List Value} : d.Holds depth (.list items) ↔
    ∃ below, depth = below + 1 ∧ ∀ v ∈ items, d.Holds below v := by
  constructor
  · intro h
    cases h with
    | list h => exact ⟨_, rfl, h⟩
  · rintro ⟨below, rfl, h⟩
    exact .list h

theorem holds_object_iff {fields : List (String × Value)} : d.Holds depth (.object fields) ↔
    ∃ below, depth = below + 1 ∧ ∀ f ∈ fields, d.Holds below f.2 := by
  constructor
  · intro h
    cases h with
    | object h => exact ⟨_, rfl, h⟩
  · rintro ⟨below, rfl, h⟩
    exact .object h

theorem readValue_bracket {cs : List Char} (h : (skipGap cs).head? ≠ some ']') :
    d.readValue (fuel + 1) (depth + 1) ('[' :: cs) = d.readItems fuel depth [] (skipGap cs) := by
  simp only [Dialect.readValue]
  split
  · rename_i heq
    rw [heq] at h
    exact absurd rfl h
  · rfl

theorem readValue_brace {cs : List Char} (h : (skipGap cs).head? ≠ some '}') :
    d.readValue (fuel + 1) (depth + 1) ('{' :: cs) = d.readFields fuel depth [] (skipGap cs) := by
  simp only [Dialect.readValue]
  split
  · rename_i heq
    rw [heq] at h
    exact absurd rfl h
  · rfl

theorem readsBack_list (hst : st.Regular) {items : List Value}
    (hall : ∀ v ∈ items, ReadsBack st d v) : ReadsBack st d (.list items) := by
  intro level fuel depth rest r hfuel hrest
  rw [holds_list_iff]
  cases items with
  | nil =>
      rw [Style.value] at hfuel ⊢
      obtain ⟨fuel, rfl⟩ : ∃ n, fuel = n + 1 := ⟨fuel - 1, by simp at hfuel; omega⟩
      show d.readValue (fuel + 1) depth ('[' :: ']' :: rest) = some r ↔ _
      cases depth <;> simp [Dialect.readValue, skipGap_cons (rfl : isGap ']' = false), eq_comm]
  | cons v vs =>
      have htext : (st.value level (.list (v :: vs))).toList ++ rest =
          '[' :: ((st.line (level + 1)).toList ++ ((st.value (level + 1) v).toList ++
            ((st.items (level + 1) vs).toList ++ ((st.line level).toList ++ ']' :: rest)))) := by
        simp [Style.value]
      have hlength := congrArg List.length htext
      simp only [List.length_cons, List.length_append] at hlength
      obtain ⟨fuel, rfl⟩ : ∃ n, fuel = n + 1 := ⟨fuel - 1, by omega⟩
      rw [htext]
      cases depth with
      | zero => simp [Dialect.readValue]
      | succ depth =>
          obtain ⟨c, cs, hcons, -, hc⟩ := exists_value_eq_cons st (level + 1) v
          have hskip := skipGap_value st (hst.line (level + 1)) (level + 1) v
            ((st.items (level + 1) vs).toList ++ ((st.line level).toList ++ ']' :: rest))
          rw [readValue_bracket (by rw [hskip, hcons]; simpa using hc), hskip,
            readItems_items hst hall [] (hst.line level) (by omega)]
          simp

theorem readsBack_object (hst : st.Regular) {fields : List (String × Value)}
    (hall : ∀ f ∈ fields, ReadsBack st d f.2) : ReadsBack st d (.object fields) := by
  intro level fuel depth rest r hfuel hrest
  rw [holds_object_iff]
  cases fields with
  | nil =>
      rw [Style.value] at hfuel ⊢
      obtain ⟨fuel, rfl⟩ : ∃ n, fuel = n + 1 := ⟨fuel - 1, by simp at hfuel; omega⟩
      show d.readValue (fuel + 1) depth ('{' :: '}' :: rest) = some r ↔ _
      cases depth <;> simp [Dialect.readValue, skipGap_cons (rfl : isGap '}' = false), eq_comm]
  | cons f fs =>
      obtain ⟨k, v⟩ := f
      have htext : (st.value level (.object ((k, v) :: fs))).toList ++ rest =
          '{' :: ((st.line (level + 1)).toList ++ ((quote k).toList ++ (st.colon.toList ++
            ((st.value (level + 1) v).toList ++ ((st.fields (level + 1) fs).toList ++
              ((st.line level).toList ++ '}' :: rest)))))) := by
        simp [Style.value]
      have hlength := congrArg List.length htext
      simp only [List.length_cons, List.length_append] at hlength
      obtain ⟨fuel, rfl⟩ : ∃ n, fuel = n + 1 := ⟨fuel - 1, by omega⟩
      rw [htext]
      cases depth with
      | zero => simp [Dialect.readValue]
      | succ depth =>
          have hskip : ∀ cs, skipGap ((st.line (level + 1)).toList ++ ((quote k).toList ++ cs)) =
              (quote k).toList ++ cs := by
            intro cs
            rw [skipGap_append (hst.line _), toList_quote]
            exact skipGap_cons rfl _
          rw [readValue_brace (by rw [hskip, toList_quote]; simp), hskip,
            readFields_fields hst hall [] (hst.line level) (by omega)]
          simp

/-- There is always fuel for a first step. -/
theorem readsBack_of_succ {v : Value} (h : ∀ (level fuel depth : ℕ) (rest : List Char)
    (r : Value × List Char), (st.value level v).toList.length ≤ fuel + 1 → Ends rest →
      (d.readValue (fuel + 1) depth ((st.value level v).toList ++ rest) = some r ↔
        d.Holds depth v ∧ r = (v, rest))) : ReadsBack st d v := by
  intro level fuel depth rest r hfuel hrest
  obtain ⟨c, cs, hcons, -⟩ := exists_value_eq_cons st level v
  have hlength := congrArg List.length hcons
  rw [List.length_cons] at hlength
  obtain ⟨fuel, rfl⟩ : ∃ n, fuel = n + 1 := ⟨fuel - 1, by omega⟩
  exact h level fuel depth rest r (by omega) hrest

theorem map_dropWord? (word rest : List Char) (v : Value) :
    ((dropWord? word (word ++ rest)).map fun rest => (v, rest)) = some r ↔ r = (v, rest) := by
  rw [dropWord?_append, Option.map_some, Option.some.injEq, eq_comm]

/-- Every value is read back; the induction is on the value. -/
theorem readsBack (hst : st.Regular) (hlimit : 17 ≤ d.digits) (v : Value) : ReadsBack st d v := by
  induction v using Value.induction with
  | null =>
      refine readsBack_of_succ fun level fuel depth rest r _ _ => ?_
      rw [Style.value, and_iff_right .null]
      exact map_dropWord? "ull".toList rest .null
  | bool b =>
      refine readsBack_of_succ fun level fuel depth rest r _ _ => ?_
      rw [Style.value, and_iff_right .bool]
      cases b with
      | true => exact map_dropWord? "rue".toList rest (.bool true)
      | false => exact map_dropWord? "alse".toList rest (.bool false)
  | integer n =>
      refine readsBack_of_succ fun level fuel depth rest r _ hrest => ?_
      rw [Style.value, String.toList_ofList]
      exact readValue_integer n hrest
  | number x =>
      refine readsBack_of_succ fun level fuel depth rest r _ hrest => ?_
      rw [Style.value]
      exact readValue_number x hlimit hrest
  | text s =>
      refine readsBack_of_succ fun level fuel depth rest r hfuel _ => ?_
      rw [Style.value] at hfuel ⊢
      obtain ⟨cs, hcons, hread⟩ := readString_quote hfuel rest
      rw [hcons, and_iff_right .text, Dialect.readValue, hread, Option.map_some,
        Option.some.injEq, eq_comm]
  | list items ih => exact readsBack_list hst ih
  | object fields ih => exact readsBack_object hst ih

/-! ### Documents -/

/-- A document is read as its value by every reader whose dialect holds the value, and refused by
the other ones. -/
theorem read?_pretty (hlimit : 17 ≤ d.digits) (v w : Value) :
    d.read? (pretty v ++ "\n") = some w ↔ d.Holds d.depth v ∧ w = v := by
  have htext : (pretty v ++ "\n").toList = ((Style.indented 2).value 0 v).toList ++ ['\n'] := by
    simp [pretty]
  have hends : Ends ['\n'] := by simp [Ends, isGap]
  have hskip := skipGap_value (.indented 2) (List.forall_mem_nil _) 0 v ['\n']
  rw [List.nil_append] at hskip
  have hback := readsBack (regular_indented 2) hlimit v
  unfold Dialect.read?
  simp only [htext, hskip]
  by_cases hv : d.Holds d.depth v
  · rw [hback.eq_some (by rw [List.length_append]; omega) hends hv]
    simp [skipGap, isGap, hv, eq_comm]
  · rw [hback.eq_none (by rw [List.length_append]; omega) hends hv]
    simp [hv]

/-- Properties that hold from some bounds on hold of all elements of a list from some bounds on. -/
theorem exists_bounds {α : Type} {P : ℕ → ℕ → α → Prop} {l : List α}
    (h : ∀ a ∈ l, ∃ m n, ∀ m' n', m ≤ m' → n ≤ n' → P m' n' a) :
    ∃ m n, ∀ m' n', m ≤ m' → n ≤ n' → ∀ a ∈ l, P m' n' a := by
  induction l with
  | nil => exact ⟨0, 0, by simp⟩
  | cons a l ih =>
      obtain ⟨m, n, ha⟩ := h a List.mem_cons_self
      obtain ⟨k, i, hl⟩ := ih fun b hb => h b (List.mem_cons_of_mem _ hb)
      refine ⟨max m k, max n i, fun m' n' hm hn => List.forall_mem_cons.mpr ⟨?_, ?_⟩⟩
      · exact ha m' n' (by omega) (by omega)
      · exact hl m' n' (by omega) (by omega)

/-- A dialect with room for a value holds it, unless it lacks the words for its numbers. -/
theorem exists_holds_iff (v : Value) : ∃ depth digits, ∀ depth' digits', depth ≤ depth' →
    digits ≤ digits' → ∀ d : Dialect, d.digits = digits' →
      (d.Holds depth' v ↔ d.words = true ∨ v.Finite) := by
  induction v using Value.induction with
  | null => exact ⟨0, 0, fun _ _ _ _ _ _ => iff_of_true .null (.inr .null)⟩
  | bool b => exact ⟨0, 0, fun _ _ _ _ _ _ => iff_of_true .bool (.inr .bool)⟩
  | integer n =>
      refine ⟨0, (Binary64.integerChars n).length, ?_⟩
      rintro _ _ - hn d rfl
      exact iff_of_true (.integer hn) (.inr .integer)
  | number x =>
      refine ⟨0, 0, fun _ _ _ _ d _ => ?_⟩
      rw [holds_number_iff]
      exact or_congr_right ⟨.number, fun h => by cases h; assumption⟩
  | text s => exact ⟨0, 0, fun _ _ _ _ _ _ => iff_of_true .text (.inr .text)⟩
  | list items ih =>
      obtain ⟨depth, digits, hall⟩ := exists_bounds ih
      refine ⟨depth + 1, digits, fun depth' digits' hdepth hdigits d hd => ?_⟩
      obtain ⟨below, rfl⟩ : ∃ n, depth' = n + 1 := ⟨depth' - 1, by omega⟩
      have hitems := hall below digits' (by omega) hdigits
      constructor
      · intro h
        cases h with
        | list h =>
            by_cases hwords : d.words = true
            · exact .inl hwords
            · exact .inr (.list fun v hv =>
                ((hitems v hv d hd).mp (h v hv)).resolve_left hwords)
      · rintro (hwords | h)
        · exact .list fun v hv => (hitems v hv d hd).mpr (.inl hwords)
        · cases h with
          | list h => exact .list fun v hv => (hitems v hv d hd).mpr (.inr (h v hv))
  | object fields ih =>
      obtain ⟨depth, digits, hall⟩ := exists_bounds ih
      refine ⟨depth + 1, digits, fun depth' digits' hdepth hdigits d hd => ?_⟩
      obtain ⟨below, rfl⟩ : ∃ n, depth' = n + 1 := ⟨depth' - 1, by omega⟩
      have hfields := hall below digits' (by omega) hdigits
      constructor
      · intro h
        cases h with
        | object h =>
            by_cases hwords : d.words = true
            · exact .inl hwords
            · exact .inr (.object fun f hf =>
                ((hfields f hf d hd).mp (h f hf)).resolve_left hwords)
      · rintro (hwords | h)
        · exact .object fun f hf => (hfields f hf d hd).mpr (.inl hwords)
        · cases h with
          | object h => exact .object fun f hf => (hfields f hf d hd).mpr (.inr (h f hf))

/-- A text is one document to all readers with words for the numbers that are not finite, or to all
without, as long as they may nest deep enough and read integers that are long enough. -/
def Denotes (words : Bool) (text : String) (v : Value) : Prop :=
  ∃ depth digits, ∀ d : Dialect, d.words = words → depth ≤ d.depth → digits ≤ d.digits →
    d.read? text = some v

/-- A printed value is one document, which tells of this value; without words it is none if a
number is not finite. -/
theorem denotes_pretty_iff {words : Bool} {v w : Value} :
    Denotes words (pretty v ++ "\n") w ↔ (words = true ∨ v.Finite) ∧ w = v := by
  obtain ⟨depth, digits, hholds⟩ := exists_holds_iff v
  have hread : ∀ d : Dialect, d.words = words → depth ≤ d.depth → max digits 17 ≤ d.digits →
      (d.read? (pretty v ++ "\n") = some w ↔ (words = true ∨ v.Finite) ∧ w = v) := by
    rintro d rfl hdepth hdigits
    rw [read?_pretty (by omega), hholds d.depth d.digits hdepth (by omega) d rfl]
  constructor
  · rintro ⟨depth', digits', h⟩
    have hd := h ⟨max depth depth', max (max digits 17) digits', words⟩ rfl
      (Nat.le_max_right _ _) (Nat.le_max_right _ _)
    exact (hread _ rfl (Nat.le_max_left _ _) (Nat.le_max_left _ _)).mp hd
  · intro h
    exact ⟨depth, max digits 17, fun d hwords hdepth hdigits =>
      (hread d hwords hdepth hdigits).mpr h⟩

end

end Json

end Soundworks
