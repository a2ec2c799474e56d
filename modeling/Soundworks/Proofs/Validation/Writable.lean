import Soundworks.Proofs.Filter.Writable
import Soundworks.Proofs.Json.Holds
import Soundworks.Proofs.Validation.Reading
import Soundworks.Validation.Document
/-!
Operation sets that are read from texts can be written. The number of plays of a loop has no upper
bound, but an integer in a text has no more digits than can be written, a text that stands for an
integer neither, and an integral number is far smaller.
-/

namespace Soundworks

namespace Coercion

/-- The digits of an integer that is not too long. -/
theorem ofDigits_lt_of_not_oversized {sign : ℕ} {digits : List Char}
    (hall : ∀ c ∈ digits, c.isDigit = true) (hlead : ¬(digits.head? = some '0' ∧ digits ≠ ['0']))
    (hsize : (digits.head? ≠ some '0' &&
      Decimal.digitLimit < sign + (digits.takeWhile Char.isDigit).length : Bool) = false) :
    Decimal.ofDigits digits < 10 ^ Decimal.digitLimit := by
  by_cases hzero : digits = ['0']
  · rw [hzero]
    exact Nat.pow_pos (by decide)
  · have hhead : digits.head? ≠ some '0' := fun hhead => hlead ⟨hhead, hzero⟩
    rw [List.takeWhile_eq_self_iff.mpr hall] at hsize
    have hlength : sign + digits.length ≤ Decimal.digitLimit := by simpa [hhead] using hsize
    exact (Decimal.ofDigits_lt hall).trans_le (Nat.pow_le_pow_right (by decide) (by omega))

theorem natAbs_lt_of_plainInteger {cs : List Char} {n : ℤ} (h : plainInteger? cs = some n)
    (hsize : startsOversized cs = false) : n.natAbs < 10 ^ Decimal.digitLimit := by
  unfold plainInteger? at h
  unfold startsOversized at hsize
  -- both split off the sign, and then look at the digits
  have hdigits : ∀ {negative : Bool} {sign : ℕ} {digits : List Char},
      (if digits = [] ∨ !digits.all Char.isDigit ∨ (digits.head? = some '0' ∧ digits ≠ ['0']) then
        none else some (if negative then -(Decimal.ofDigits digits : ℤ)
          else Decimal.ofDigits digits)) = some n →
      (digits.head? ≠ some '0' &&
        Decimal.digitLimit < sign + (digits.takeWhile Char.isDigit).length : Bool) = false →
      n.natAbs < 10 ^ Decimal.digitLimit := by
    intro negative sign digits h hsize
    obtain ⟨hdigits, h⟩ := Option.ite_none_left_eq_some.mp h
    simp only [not_or, Bool.not_eq_true', Bool.not_eq_false, List.all_eq_true] at hdigits
    have hlt := ofDigits_lt_of_not_oversized hdigits.2.1 hdigits.2.2 hsize
    obtain rfl := Option.some.inj h
    cases negative <;> simpa using hlt
  split at h
  rename_i hsplit
  split at hsplit
  · cases hsplit
    exact hdigits h hsize
  · rename_i hplus
    cases hsplit
    split at hsize
    rename_i hsplit'
    split at hsplit'
    · exact absurd rfl (hplus _)
    · cases hsplit'
      exact hdigits h hsize

theorem natAbs_lt_of_integerOfText {s : String} {n : ℤ} (h : integerOfText s = .ok n) :
    n.natAbs < 10 ^ Decimal.digitLimit := by
  unfold integerOfText at h
  dsimp only at h
  split at h
  · cases h
  · rename_i hsize
    split at h
    · rename_i hplain
      cases h
      exact natAbs_lt_of_plainInteger hplain (by simpa using hsize)
    · cases h
    · split at h
      · cases h
      · rename_i hsize'
        cases hplain : plainInteger? _ with
        | none =>
            rw [hplain] at h
            cases h
        | some m =>
            rw [hplain] at h
            cases h
            exact natAbs_lt_of_plainInteger hplain (by simpa using hsize')

theorem natAbs_lt_of_integerOfNumber {x : Binary64} {n : ℤ} (h : integerOfNumber x = .ok n) :
    n.natAbs < 10 ^ Decimal.digitLimit := by
  have hword : n.natAbs < 10 ^ 19 := by
    unfold integerOfNumber at h
    split at h
    · cases h
    · split at h
      · cases h
      · split at h
        · cases h
          unfold wordLimit at *
          omega
        · cases h
  exact hword.trans_le (Nat.pow_le_pow_right (by decide) (by decide))

/-- An integer that is read from a value of a text is small. -/
theorem natAbs_lt_of_integer {depth : ℕ} {v : Value} {n : ℤ}
    (hv : Json.Dialect.lenient.Holds depth v) (h : integer v = .ok n) :
    n.natAbs < 10 ^ Decimal.digitLimit := by
  cases v with
  | integer m =>
      cases h
      cases hv with
      | integer hlength => exact Decimal.natAbs_lt_of_length_le hlength
  | number x => exact natAbs_lt_of_integerOfNumber h
  | text s => exact natAbs_lt_of_integerOfText h
  | bool b =>
      cases h
      have hone : 1 < 10 ^ Decimal.digitLimit := Nat.one_lt_pow (by decide) (by decide)
      cases b
      · exact Nat.pow_pos (by decide)
      · exact hone
  | _ => cases h

end Coercion

/-! ### From the set to its loop -/

section

variable {source : Source}

theorem Loop.count_of_read {v : Value} {l : Loop} (h : Loop.form.read source v = .ok l) :
    ∃ values w, v = .object values ∧ Value.lookup values "count" = some w ∧
      Coercion.integer w = .ok l.count := by
  obtain ⟨values, rfl, h₂⟩ := Form.read_ofFields h
  obtain ⟨_, count, h₁, hcount, rfl⟩ := Fields.read_field_eq_ok.mp h₂
  obtain ⟨_, enabled, h₀, -, rfl⟩ := Fields.read_field_eq_ok.mp h₁
  cases h₀
  obtain ⟨w, hw, hread⟩ := Field.read_required hcount
  refine ⟨values, w, rfl, hw, ?_⟩
  obtain ⟨n, hn, hcheck⟩ := Fallible.bind_eq_ok.mp hread
  rw [hn]
  unfold Limits.check at hcheck
  split at hcheck <;> cases hcheck
  rfl

theorem Effects.loop_of_read {v : Value} {e : Effects} {l : Loop}
    (h : Effects.form.read source v = .ok e) (hl : e.loop = some l) :
    ∃ values w, v = .object values ∧ Value.lookup values "loop" = some w ∧
      Loop.form.read source w = .ok l := by
  obtain ⟨values, rfl, h₄⟩ := Form.read_ofFields h
  obtain ⟨_, loop, h₃, hloop, rfl⟩ := Fields.read_field_eq_ok.mp h₄
  obtain ⟨_, trim, h₂, -, rfl⟩ := Fields.read_field_eq_ok.mp h₃
  obtain ⟨_, fadeOut, h₁, -, rfl⟩ := Fields.read_field_eq_ok.mp h₂
  obtain ⟨_, fadeIn, h₀, -, rfl⟩ := Fields.read_field_eq_ok.mp h₁
  cases h₀
  obtain rfl : loop = some l := hl
  obtain ⟨w, hw, hread⟩ := Field.read_optional hloop
  exact ⟨values, w, rfl, hw, hread⟩

theorem OperationSet.effects_of_read {v : Value} {o : OperationSet} {e : Effects}
    (h : OperationSet.form.read source v = .ok o) (he : o.effects = some e) :
    ∃ values w, v = .object values ∧ Value.lookup values "effects" = some w ∧
      Effects.form.read source w = .ok e := by
  obtain ⟨values, rfl, h₄⟩ := Form.read_ofFields h
  obtain ⟨_, advanced, h₃, -, rfl⟩ := Fields.read_field_eq_ok.mp h₄
  obtain ⟨_, effects, h₂, heffects, rfl⟩ := Fields.read_field_eq_ok.mp h₃
  obtain ⟨_, format, h₁, -, rfl⟩ := Fields.read_field_eq_ok.mp h₂
  obtain ⟨_, volume, h₀, -, rfl⟩ := Fields.read_field_eq_ok.mp h₁
  cases h₀
  obtain rfl : effects = some e := he
  obtain ⟨w, hw, hread⟩ := Field.read_optional heffects
  exact ⟨values, w, rfl, hw, hread⟩

/-- An operation set that is read from a value of a text can be written. -/
theorem OperationSet.writable_of_read {text : String} {v : Value} {o : OperationSet}
    (hv : Json.read? text = some v) (h : OperationSet.form.read source v = .ok o) : o.Writable := by
  intro e he l hl _
  have hheld : Json.Dialect.lenient.Holds _ v := Json.Dialect.holds_of_read? hv
  obtain ⟨values, effects, rfl, heffects, he⟩ := OperationSet.effects_of_read h he
  obtain ⟨_, hheld⟩ := hheld.of_lookup heffects
  obtain ⟨values, loop, rfl, hloop, hl⟩ := Effects.loop_of_read he hl
  obtain ⟨_, hheld⟩ := hheld.of_lookup hloop
  obtain ⟨values, count, rfl, hcount, hl⟩ := Loop.count_of_read hl
  obtain ⟨_, hheld⟩ := hheld.of_lookup hcount
  have hsmall := Coercion.natAbs_lt_of_integer hheld hl
  have hcast : (10 : ℤ) ^ Decimal.digitLimit = (10 ^ Decimal.digitLimit : ℕ) :=
    (Nat.cast_pow 10 _).symm
  rw [hcast]
  omega

end

end Soundworks
