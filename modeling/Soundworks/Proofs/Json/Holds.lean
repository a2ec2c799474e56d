import Soundworks.Json.Reader
import Soundworks.Proofs.Decimal.Plain
/-!
What a dialect can hold. A value is held if its lists and objects are not nested too deep, its
integers are not too long, and its numbers have a text. What a reader gives is held, but for numbers
that are not finite: a decimal beyond the range of the numbers is read as an infinity.
-/

namespace Soundworks

namespace Decimal

theorem length_integerChars_le {ds : List Char} (h : Digits ds) (negative : Bool) :
    (Binary64.integerChars (if negative then -(ofDigits ds : ℤ) else ofDigits ds)).length ≤
      ds.length + if negative then 1 else 0 := by
  have hlength : (Nat.toDigits 10 (ofDigits ds)).length ≤ ds.length :=
    (Nat.length_toDigits_le_iff (by decide) (List.length_pos_iff.mpr h.1)).mpr (ofDigits_lt h.2)
  cases negative with
  | false =>
      simpa [Binary64.integerChars, withSign, not_lt.mpr (Int.natCast_nonneg _)] using hlength
  | true =>
      simp only [Binary64.integerChars, withSign, Int.natAbs_neg, Int.natAbs_natCast, if_true]
      split
      · simpa using hlength
      · omega

theorem natAbs_lt_of_length_le {n : ℤ} {k : ℕ} (h : (Binary64.integerChars n).length ≤ k) :
    n.natAbs < 10 ^ k := by
  have hwidth : width n.natAbs ≤ k := by
    refine le_trans ?_ h
    unfold Binary64.integerChars withSign width
    split
    · simp
    · exact le_rfl
  exact (lt_pow_width n.natAbs).trans_le (Nat.pow_le_pow_right (by decide) hwidth)

end Decimal

namespace Json.Dialect

variable {d : Dialect}

/-- A value with a text in a dialect, with the nesting that is still allowed. -/
inductive Holds (d : Dialect) : ℕ → Value → Prop
  | null {depth : ℕ} : Holds d depth .null
  | bool {depth : ℕ} {b : Bool} : Holds d depth (.bool b)
  | integer {depth : ℕ} {n : ℤ} : (Binary64.integerChars n).length ≤ d.digits →
      Holds d depth (.integer n)
  | number {depth : ℕ} {x : Binary64} : (d.words = true ∨ x.isFinite = true) →
      Holds d depth (.number x)
  | text {depth : ℕ} {s : String} : Holds d depth (.text s)
  | list {depth : ℕ} {items : List Value} : (∀ v ∈ items, Holds d depth v) →
      Holds d (depth + 1) (.list items)
  | object {depth : ℕ} {fields : List (String × Value)} : (∀ f ∈ fields, Holds d depth f.2) →
      Holds d (depth + 1) (.object fields)

def withWords (d : Dialect) : Dialect := { d with words := true }

theorem holds_number {depth : ℕ} (x : Binary64) : d.withWords.Holds depth (.number x) :=
  .number (.inl rfl)

/-! ### What is read -/

variable {v : Value} {cs rest : List Char} {depth : ℕ}

theorem holds_of_readMagnitude {negative : Bool}
    (h : d.readMagnitude? negative cs = some (v, rest)) : d.withWords.Holds depth v := by
  unfold readMagnitude? at h
  dsimp only at h
  obtain ⟨hwhole, h⟩ := Option.ite_none_left_eq_some.mp h
  simp only [Option.bind_eq_bind, Option.bind_eq_some_iff] at h
  obtain ⟨⟨fraction, r⟩, -, ⟨exponent, r'⟩, -, h⟩ := h
  dsimp only at h
  split at h
  · cases h
    simp only [not_or] at hwhole
    have hdigits : Decimal.Digits (spanDigits cs).1 :=
      ⟨hwhole.1, fun _ hc => List.mem_takeWhile_imp hc⟩
    have hchars := Decimal.length_integerChars_le hdigits negative
    exact .integer (hchars.trans (not_lt.mp hwhole.2.2))
  · obtain ⟨x, -, hx⟩ := Option.bind_eq_some_iff.mp h
    cases hx
    exact holds_number _

theorem holds_of_readWord {word : String} {x : Binary64}
    (h : d.readWord? word x cs = some (v, rest)) : d.withWords.Holds depth v := by
  unfold readWord? at h
  split at h
  · obtain ⟨r, -, hr⟩ := Option.map_eq_some_iff.mp h
    cases hr
    exact holds_number _
  · cases h

theorem holds_of_readNegative (h : d.readNegative? cs = some (v, rest)) :
    d.withWords.Holds depth v := by
  unfold readNegative? at h
  split at h
  · rename_i hword
    cases h
    exact holds_of_readWord hword
  · exact holds_of_readMagnitude h

/-- What the readers give is held, if what they have read before is. The induction is on the fuel,
which all three of them use up. -/
theorem holds_of_read (d : Dialect) (fuel : ℕ) :
    (∀ depth cs v rest, d.readValue fuel depth cs = some (v, rest) →
      d.withWords.Holds depth v) ∧
    (∀ depth read cs v rest, (∀ w ∈ read, d.withWords.Holds depth w) →
      d.readItems fuel depth read cs = some (v, rest) → d.withWords.Holds (depth + 1) v) ∧
    (∀ depth read cs v rest, (∀ f ∈ read, d.withWords.Holds depth f.2) →
      d.readFields fuel depth read cs = some (v, rest) → d.withWords.Holds (depth + 1) v) := by
  induction fuel with
  | zero => simp [readValue, readItems, readFields]
  | succ fuel ih =>
      obtain ⟨ihValue, ihItems, ihFields⟩ := ih
      refine ⟨?value, ?items, ?fields⟩
      case value =>
        intro depth cs v rest h
        cases cs with
        | nil => simp [readValue] at h
        | cons c cs =>
            unfold readValue at h
            -- the cases are those of the first character: a quote, a bracket, a brace, the first
            -- letters of the words, a minus, and what is left, which has to be a digit
            split at h
            · obtain ⟨⟨s, r⟩, -, hr⟩ := Option.map_eq_some_iff.mp h
              cases hr
              exact .text
            · split at h
              · cases h
              · split at h
                · cases h
                  exact .list (by simp)
                · exact ihItems _ _ _ _ _ (by simp) h
            · split at h
              · cases h
              · split at h
                · cases h
                  exact .object (by simp)
                · exact ihFields _ _ _ _ _ (by simp) h
            · obtain ⟨r, -, hr⟩ := Option.map_eq_some_iff.mp h
              cases hr
              exact .bool
            · obtain ⟨r, -, hr⟩ := Option.map_eq_some_iff.mp h
              cases hr
              exact .bool
            · obtain ⟨r, -, hr⟩ := Option.map_eq_some_iff.mp h
              cases hr
              exact .null
            · exact holds_of_readWord h
            · exact holds_of_readWord h
            · exact holds_of_readNegative h
            · exact holds_of_readMagnitude h
      case items =>
        intro depth read cs v rest hread h
        unfold readItems at h
        split at h
        · cases h
        · rename_i w r hw
          have hall : ∀ u ∈ w :: read, d.withWords.Holds depth u :=
            List.forall_mem_cons.mpr ⟨ihValue _ _ _ _ hw, hread⟩
          split at h
          · exact ihItems _ _ _ _ _ hall h
          · cases h
            exact .list fun u hu => hall u (List.mem_reverse.mp hu)
          · cases h
      case fields =>
        intro depth read cs v rest hread h
        unfold readFields at h
        split at h
        · split at h
          · cases h
          · rename_i key r hkey
            split at h
            · split at h
              · cases h
              · rename_i w r hw
                have hall : ∀ f ∈ (key, w) :: read, d.withWords.Holds depth f.2 :=
                  List.forall_mem_cons.mpr ⟨ihValue _ _ _ _ hw, hread⟩
                split at h
                · exact ihFields _ _ _ _ _ hall h
                · cases h
                  exact .object fun f hf => hall f (List.mem_reverse.mp hf)
                · cases h
            · cases h
        · cases h

/-- What a reader gives is held by its dialect, with words for what is not finite. -/
theorem holds_of_read? {s : String} (h : d.read? s = some v) : d.withWords.Holds d.depth v := by
  unfold read? at h
  dsimp only at h
  split at h
  · rename_i w r hread
    split at h
    · cases h
      exact (holds_of_read d _).1 _ _ _ _ hread
    · cases h
  · cases h

/-- What stands in an object is held too. -/
theorem Holds.of_lookup {fields : List (String × Value)} (h : d.Holds depth (.object fields))
    {key : String} (hv : Value.lookup fields key = some v) :
    ∃ depth, d.Holds depth v := by
  cases h with
  | @object depth _ h =>
      obtain ⟨f, hf, rfl⟩ := Option.map_eq_some_iff.mp hv
      exact ⟨depth, h f (List.mem_reverse.mp (List.mem_of_find?_eq_some hf))⟩

end Json.Dialect

end Soundworks
