import Soundworks.Proofs.Decimal.Loose
import Soundworks.Proofs.Decimal.Shortest
/-!
The text of a number as an argument is exact. It is a plain decimal, by a grammar and not by the
writer: there is no sign but a minus, no place is wasted on a zero at the end, and an exponent is
negative. An integral number is written with all of its digits; a number that is not integral is
below `2 ^ 52`, so that its shortest decimal has places behind the point and never comes to where a
positive exponent begins. The text is read as the number that it is written for.
-/

namespace Soundworks

namespace Decimal

/-! ### Digits -/

theorem ofDigits_toDigits (n : ℕ) : ofDigits (Nat.toDigits 10 n) = n :=
  Nat.ofDigitChars_ten_toDigits

theorem ofDigits_zeros_append (k : ℕ) (cs : List Char) :
    ofDigits (List.replicate k '0' ++ cs) = ofDigits cs := by
  show Nat.ofDigitChars 10 _ 0 = Nat.ofDigitChars 10 cs 0
  rw [Nat.ofDigitChars_append, Nat.ofDigitChars_replicate_zero, Nat.mul_zero]

theorem ofDigits_lt {ds : List Char} (h : ∀ c ∈ ds, c.isDigit = true) :
    ofDigits ds < 10 ^ ds.length := by
  induction ds with
  | nil => exact Nat.one_pos
  | cons c ds ih =>
      have htail : Nat.ofDigitChars 10 ds 0 < 10 ^ ds.length :=
        ih fun c hc => h c (List.mem_cons_of_mem _ hc)
      have hdigit : c.toNat - '0'.toNat ≤ 9 := by
        have hc := (isDigit_iff.mp (h c List.mem_cons_self)).2
        show c.toNat - 48 ≤ 9
        omega
      have hhead := Nat.mul_le_mul_left (10 ^ ds.length) hdigit
      show Nat.ofDigitChars 10 (c :: ds) 0 < 10 ^ (ds.length + 1)
      rw [Nat.ofDigitChars_cons, Nat.ofDigitChars_eq_ofDigitChars_zero, Nat.mul_zero, Nat.zero_add,
        pow_succ]
      omega

theorem getLast?_toDigits_ne {n : ℕ} (hn : n % 10 ≠ 0) :
    (Nat.toDigits 10 n).getLast? ≠ some '0' := by
  have hdigit : ∀ d < 10, d ≠ 0 → Nat.digitChar d ≠ '0' := by decide
  rw [Nat.toDigits_eq_if (by decide)]
  split
  · simpa using hdigit n ‹_› (by omega)
  · simpa using hdigit (n % 10) (by omega) hn

/-! ### The grammar -/

/-- The digits behind the point, the last of which is not a zero; without them there is no point. -/
inductive ProperFraction : List Char → List Char → Prop
  | none : ProperFraction [] []
  | point {places : List Char} : Digits places → places.getLast? ≠ some '0' →
      ProperFraction places ('.' :: places)

/-- An exponent that is negative and has two digits at least, or none. -/
inductive NegativeExponent : ℤ → List Char → Prop
  | none : NegativeExponent 0 []
  | digits {ds : List Char} : Digits ds → 2 ≤ ds.length →
      NegativeExponent (-(ofDigits ds : ℤ)) ('e' :: '-' :: ds)

/-- A text that denotes a decimal in the plain form: a minus sign or none, digits, a fraction or
none, and an exponent or none. -/
def Plain (d : Decimal) (cs : List Char) : Prop :=
  ∃ whole places fraction exponent e, cs = withSign d.negative (whole ++ (fraction ++ exponent)) ∧
    Digits whole ∧ ProperFraction places fraction ∧ NegativeExponent e exponent ∧
    d.digits = ofDigits (whole ++ places) ∧ d.exponent = e - places.length

theorem ProperFraction.fraction {places fraction : List Char}
    (h : ProperFraction places fraction) : Fraction places fraction := by
  cases h with
  | none => exact .none
  | point hplaces _ => exact .point hplaces.2

theorem NegativeExponent.exponent {e : ℤ} {cs : List Char} (h : NegativeExponent e cs) :
    Exponent e cs := by
  cases h with
  | none => exact .none
  | digits hdigits _ => exact .digits (.inl rfl) .minus hdigits

theorem withSign_eq (negative : Bool) (cs : List Char) :
    withSign negative cs = (if negative then ['-'] else []) ++ cs := by
  cases negative <;> rfl

namespace Plain

variable {d : Decimal} {cs : List Char}

theorem read?_eq (h : Plain d cs) : read? cs = some d := by
  obtain ⟨negative, digits, exponent⟩ := d
  obtain ⟨whole, places, fraction, tail, e, rfl, hwhole, hfraction, htail, rfl, rfl⟩ := h
  have hunsigned := Unsigned.intro hwhole.2 hfraction.fraction (.inl hwhole.1) htail.exponent
  have hform : IsUnsigned (whole ++ (fraction ++ tail)) := by
    refine ⟨whole, fraction, tail, rfl, hwhole, ?_, ?_⟩
    · cases hfraction with
      | none => exact .inl rfl
      | point hplaces _ => exact .inr ⟨_, rfl, hplaces⟩
    · cases htail with
      | none => exact .inl rfl
      | digits hdigits _ => exact .inr ⟨_, _, rfl, .inl rfl, hdigits⟩
  simp only [read?, splitSign_withSign hform]
  exact readUnsigned?_eq_some_iff.mpr ⟨_, _, hunsigned, rfl⟩

theorem mem (h : Plain d cs) {c : Char} (hc : c ∈ cs) :
    c.isDigit = true ∨ c = '-' ∨ c = '.' ∨ c = 'e' := by
  obtain ⟨whole, places, fraction, tail, e, rfl, hwhole, hfraction, htail, -⟩ := h
  rw [withSign_eq] at hc
  rcases List.mem_append.mp hc with hc | hc
  · split at hc
    · exact .inr (.inl (List.mem_singleton.mp hc))
    · cases hc
  rcases List.mem_append.mp hc with hc | hc
  · exact .inl (hwhole.2 c hc)
  rcases List.mem_append.mp hc with hc | hc
  · cases hfraction with
    | none => cases hc
    | point hplaces _ =>
        rcases List.mem_cons.mp hc with rfl | hc
        · simp
        · exact .inl (hplaces.2 c hc)
  · cases htail with
    | none => cases hc
    | digits hdigits _ =>
        rcases List.mem_cons.mp hc with rfl | hc
        · simp
        rcases List.mem_cons.mp hc with rfl | hc
        · simp
        · exact .inl (hdigits.2 c hc)

/-- A plain text does not end in a point and a zero. -/
theorem not_suffix (h : Plain d cs) : ¬['.', '0'] <:+ cs := by
  obtain ⟨whole, places, fraction, tail, e, rfl, hwhole, hfraction, htail, -⟩ := h
  have hpoint : '.'.isDigit = false := by decide
  have hsign : '.' ∉ if d.negative then ['-'] else [] := by split <;> decide
  rw [withSign_eq]
  generalize (if d.negative then ['-'] else []) = sign at hsign ⊢
  intro hsuffix
  cases htail with
  | @digits ds hdigits hlength =>
      have hends : ds <:+ sign ++ (whole ++ (fraction ++ 'e' :: '-' :: ds)) :=
        ⟨sign ++ (whole ++ (fraction ++ ['e', '-'])), by simp⟩
      have hmem := (List.suffix_of_suffix_length_le hsuffix hends hlength).subset
        List.mem_cons_self
      simp [hdigits.2 _ hmem] at hpoint
  | none =>
      cases hfraction with
      | none =>
          have hmem : '.' ∈ whole := by simpa [hsign] using hsuffix.subset List.mem_cons_self
          simp [hwhole.2 _ hmem] at hpoint
      | point hplaces hlast =>
          obtain ⟨init, hinit⟩ := hsuffix
          have hends : (init ++ ['.', '0']).getLast? = places.getLast? := by
            rw [hinit, ← List.getLast?_append_of_ne_nil (sign ++ (whole ++ ['.'])) hplaces.1]
            simp
          exact hlast (by simpa using hends.symm)

end Plain

/-! ### What is written -/

theorem plain_integerChars (n : ℤ) :
    Plain ⟨n < 0, n.natAbs, 0⟩ (Binary64.integerChars n) :=
  ⟨Nat.toDigits 10 n.natAbs, [], [], [], 0, by simp [Binary64.integerChars], digits_toDigits _,
    .none, .none, by rw [List.append_nil, ofDigits_toDigits], rfl⟩

/-- The exponent of a small number. -/
theorem negativeExponent_exponentChars {e : ℤ} (he : e < 0) :
    NegativeExponent e ('e' :: Layout.standard.exponentChars e) := by
  have hdigits := digits_toDigits e.natAbs
  have hvalue : e = -(ofDigits (Nat.toDigits 10 e.natAbs) : ℤ) := by
    rw [ofDigits_toDigits]
    omega
  simp only [Layout.exponentChars, if_pos he]
  generalize Nat.toDigits 10 e.natAbs = ds at hdigits hvalue ⊢
  rw [hvalue, ← ofDigits_zeros_append (2 - ds.length)]
  refine .digits (hdigits.prepend fun _ => isDigit_of_mem_replicate) ?_
  rw [List.length_append, List.length_replicate]
  omega

section

variable {whole places : List Char} (negative : Bool)

theorem plain_point (hwhole : Digits whole) (hplaces : Digits places)
    (hlast : places.getLast? ≠ some '0') :
    Plain ⟨negative, ofDigits (whole ++ places), -places.length⟩
      (withSign negative (whole ++ '.' :: places)) :=
  ⟨whole, places, '.' :: places, [], 0, by rw [List.append_nil], hwhole, .point hplaces hlast,
    .none, rfl, by rw [zero_sub]⟩

theorem plain_scientific {fraction : List Char} (hwhole : Digits whole)
    (hfraction : ProperFraction places fraction) {e : ℤ} (he : e < 0) :
    Plain ⟨negative, ofDigits (whole ++ places), e - places.length⟩
      (withSign negative (whole ++ (fraction ++ 'e' :: Layout.standard.exponentChars e))) :=
  ⟨whole, places, fraction, _, e, rfl, hwhole, hfraction, negativeExponent_exponentChars he, rfl,
    rfl⟩

/-- Digits with places behind the point are written in the plain form. -/
theorem plain_chars {n : ℕ} {k : ℤ} (hn : n % 10 ≠ 0) (hk : k < 0) (hplace : width n + k ≤ 16) :
    Plain ⟨negative, n, k⟩ (withSign negative (Layout.standard.chars n k)) := by
  have hdigits := digits_toDigits n
  have hlast := getLast?_toDigits_ne hn
  have hvalue := ofDigits_toDigits n
  unfold width at hplace
  simp only [Layout.chars, show Layout.standard.positionalStart = -4 from rfl,
    show Layout.standard.positionalEnd = 16 from rfl]
  generalize Nat.toDigits 10 n = ds at hdigits hlast hvalue hplace ⊢
  subst hvalue
  have hends : ∀ (cs : List Char) {places : List Char}, Digits places →
      (cs ++ places).getLast? ≠ some '0' → places.getLast? ≠ some '0' := fun cs {_} hplaces h => by
    rwa [List.getLast?_append_of_ne_nil _ hplaces.1] at h
  split
  case isTrue hpositional =>
    rw [if_neg (by omega)]
    split
    case isTrue hwhole =>
      -- the point stands behind the first digit and before the last one
      obtain ⟨i, hi⟩ : ∃ i : ℕ, (ds.length + k - 1 + 1).toNat = i := ⟨_, rfl⟩
      have hplaces : Digits (ds.drop i) := hdigits.drop (by omega)
      have hplain := plain_point negative (hdigits.take (n := i) (by omega)) hplaces
        (hends _ hplaces (by rwa [List.take_append_drop]))
      rw [List.take_append_drop, List.length_drop, (by omega : -((ds.length - i : ℕ) : ℤ) = k)]
        at hplain
      rwa [hi]
    case isFalse hwhole =>
      obtain ⟨i, hi⟩ : ∃ i : ℕ, (-(ds.length + k - 1) - 1).toNat = i := ⟨_, rfl⟩
      have hplaces : Digits (List.replicate i '0' ++ ds) :=
        hdigits.prepend fun _ => isDigit_of_mem_replicate
      have hplain := plain_point negative (digits_toDigits 0) hplaces
        (by rwa [List.getLast?_append_of_ne_nil _ hdigits.1])
      rw [show Nat.toDigits 10 0 = List.replicate 1 '0' from rfl, ofDigits_zeros_append,
        ofDigits_zeros_append, List.length_append, List.length_replicate,
        (by omega : -((i + ds.length : ℕ) : ℤ) = k)] at hplain
      rw [hi]
      exact hplain
  case isFalse hpositional =>
    have hsmall : (ds.length : ℤ) + k - 1 < 0 := by omega
    split
    case h_1 => exact absurd rfl hdigits.1
    case h_2 _ d =>
      have hplain := plain_scientific negative hdigits .none hsmall
      rw [List.append_nil, List.length_nil, (by simp : ([d].length : ℤ) + k - 1 - (0 : ℕ) = k)]
        at hplain
      exact hplain
    case h_3 _ d rest hne =>
      have hrest := hdigits.tail hne
      have hplain := plain_scientific negative (hdigits.take Nat.one_pos)
        (.point hrest (hends [d] hrest hlast)) hsmall
      rw [(by rw [List.length_cons]; omega : ((d :: rest).length : ℤ) + k - 1 - rest.length = k)]
        at hplain
      exact hplain

end

end Decimal

namespace Binary64

open Decimal

variable {s : Bool} {m : ℕ} {e : ℤ} {hc : Canonical m e}

/-- The integer that a number is equal to. -/
theorem exists_of_toInt?_eq_some {n : ℤ} (h : (finite s m e hc).toInt? = some n) :
    ∃ N : ℕ, n = signed s N ∧ (N : ℚ) = m * 2 ^ e := by
  simp only [toInt?] at h
  split at h
  case isTrue he =>
    cases h
    exact ⟨_, rfl, by rw [cast_shiftLeft, Int.toNat_of_nonneg he]⟩
  case isFalse he =>
    split at h
    case isTrue hdvd =>
      cases h
      obtain ⟨k, hk⟩ := Int.eq_ofNat_of_zero_le (by omega : 0 ≤ -e)
      obtain rfl : e = -k := by omega
      rw [Nat.one_shiftLeft, (by omega : (- -(k : ℤ)).toNat = k)] at hdvd
      obtain ⟨N, rfl⟩ := Nat.dvd_of_mod_eq_zero hdvd
      refine ⟨N, ?_, ?_⟩
      · rw [(by omega : (- -(k : ℤ)).toNat = k), Nat.shiftRight_eq_div_pow,
          Nat.mul_div_cancel_left _ (by positivity)]
      · push_cast
        rw [zpow_neg, zpow_natCast]
        field_simp
    case isFalse => cases h

/-- A number that is not integral has places behind the point. -/
theorem of_toInt?_eq_none (h : (finite s m e hc).toInt? = none) :
    e < 0 ∧ ¬2 ^ (-e).toNat ∣ m := by
  simp only [toInt?] at h
  split at h
  case isTrue => cases h
  case isFalse he =>
    split at h
    case isTrue => cases h
    case isFalse hdvd =>
      rw [Nat.one_shiftLeft] at hdvd
      exact ⟨not_le.mp he, fun hd => hdvd (Nat.mod_eq_zero_of_dvd hd)⟩

/-- The text of a number that is not integral. -/
theorem plain_chars_of_not_integral (he : e < 0) (hm : ¬2 ^ (-e).toNat ∣ m) :
    ∃ d, Plain d (finite s m e hc).chars ∧ d.toBinary64 = finite s m e hc := by
  have hpos : 0 < m := Nat.pos_of_ne_zero fun hzero => hm (by simp [hzero])
  obtain ⟨hnear, hlast⟩ := shortest_spec hpos e
  rw [chars, if_neg hpos.ne']
  generalize shortest m e = decimal at hnear hlast ⊢
  obtain ⟨d, k⟩ := decimal
  refine ⟨⟨s, d, k⟩, plain_chars s hlast ?_ ?_, toBinary64_eq hnear s hpos hc⟩
  -- a whole number near to this one would be equal to it
  · by_contra hk
    obtain ⟨n, rfl⟩ := Int.eq_ofNat_of_zero_le (not_lt.mp hk)
    have hwhole : (d * 10 ^ (n : ℤ) : ℚ) = (d * 10 ^ n : ℕ) := by push_cast; simp
    simp only [hwhole] at hnear
    exact hm ⟨_, (hnear.eq_mul_of_natCast he.le).trans (Nat.mul_comm _ _)⟩
  · refine width_add_le hnear hpos hc ((two_zpow_le (by omega : e + 53 ≤ 52)).trans ?_)
    norm_num

theorem decide_signed_neg {n : ℕ} (hn : 0 < n) (s : Bool) : decide (signed s n < 0) = s := by
  cases s <;> simp [signed, hn]

theorem natAbs_signed (s : Bool) (n : ℕ) : (signed s n).natAbs = n := by
  cases s <;> simp [signed]

/-- A finite number is written as a plain decimal that is rounded to it. -/
theorem exists_plain {x : Binary64} (h : x.isFinite = true) :
    ∃ d, Plain d x.plainChars ∧ d.toBinary64 = if x.isZero then zero false else x := by
  cases x with
  | nan => cases h
  | infinite s => cases h
  | finite s m e hc =>
      unfold plainChars
      cases hint : (finite s m e hc).toInt? with
      | none =>
          obtain ⟨he, hm⟩ := of_toInt?_eq_none hint
          have hne : m ≠ 0 := fun hzero => hm (by simp [hzero])
          rw [isZero, if_neg (by simpa using hne)]
          exact plain_chars_of_not_integral he hm
      | some n =>
          obtain ⟨N, rfl, hN⟩ := exists_of_toInt?_eq_some hint
          refine ⟨_, plain_integerChars _, ?_⟩
          rcases Nat.eq_zero_or_pos m with rfl | hm
          · have hzero : N = 0 := by simpa using hN
            cases s <;> simp [hzero, signed, isZero, toBinary64]
          · have hpos : 0 < N := by
              have hvalue : (0 : ℚ) < m * 2 ^ e := by positivity
              rw [← hN] at hvalue
              exact_mod_cast hvalue
            rw [decide_signed_neg hpos, natAbs_signed, isZero, if_neg (by simpa using hm.ne')]
            exact toBinary64_eq (.of_eq (by rw [zpow_zero, mul_one, hN])) s hm hc

/-- The text of a finite number is a plain decimal with none of the marks that part the arguments of
a filter, and the number that is nearest to this decimal is the number itself, but for the sign of a
zero. Two numbers with one text are thus equal, or both zero. -/
theorem plain_exact {x : Binary64} (h : x.isFinite = true) :
    ∃ d, Plain d x.plain.toList ∧ read? x.plain.toList = some d ∧
      d.toBinary64 = (if x.isZero then zero false else x) ∧
      (∀ c ∈ ['+', ',', ':', ';', '(', ')', '[', ']', '{', '}', '|'], c ∉ x.plain.toList) ∧
      ¬".0".toList <:+ x.plain.toList ∧
      ∀ y : Binary64, y.isFinite = true → y.plain = x.plain →
        y = x ∨ y.isZero = true ∧ x.isZero = true := by
  obtain ⟨d, hplain, hvalue⟩ := exists_plain h
  have htext : ∀ y : Binary64, y.plain.toList = y.plainChars := fun y => String.toList_ofList
  rw [htext]
  refine ⟨d, hplain, hplain.read?_eq, hvalue, fun c hc hmem => ?_, hplain.not_suffix,
    fun y hy hsame => ?_⟩
  · have hmarks : ∀ c ∈ ['+', ',', ':', ';', '(', ')', '[', ']', '{', '}', '|'],
        ¬(c.isDigit = true ∨ c = '-' ∨ c = '.' ∨ c = 'e') := by
      simp only [List.forall_mem_cons, List.not_mem_nil, false_imp_iff, implies_true]
      decide
    exact hmarks c hc (hplain.mem hmem)
  · obtain ⟨d', hplain', hvalue'⟩ := exists_plain hy
    have hchars : y.plainChars = x.plainChars := by rw [← htext, ← htext, hsame]
    have hread := hplain'.read?_eq
    rw [hchars, hplain.read?_eq, Option.some.injEq] at hread
    rw [← hread, hvalue] at hvalue'
    cases hx : x.isZero <;> cases hy : y.isZero <;>
      simp only [hx, hy, Bool.false_eq_true, if_true, if_false] at hvalue'
    · exact .inl hvalue'.symm
    · rw [hvalue'] at hx
      cases hx
    · rw [← hvalue'] at hy
      cases hy
    · exact .inr ⟨rfl, rfl⟩

/-- A small number is written with an exponent, and no other number is written so. -/
theorem plain_of_small : (0.000015 : Binary64).plain = "1.5e-05" ∧
    (∃ d, Plain d "1.5e-05".toList ∧ d.toBinary64 = 0.000015) ∧
      ∀ y : Binary64, y.isFinite = true → y.plain = "1.5e-05" → y = 0.000015 := by
  have htext : (0.000015 : Binary64).plain = "1.5e-05" := by decide +kernel
  have hzero : (0.000015 : Binary64).isZero = false := by decide +kernel
  obtain ⟨d, hplain, -, hvalue, -, -, honly⟩ := plain_exact (x := 0.000015) (by decide +kernel)
  rw [htext] at hplain honly
  rw [hzero] at hvalue
  refine ⟨htext, ⟨d, hplain, hvalue⟩, fun y hy h => (honly y hy h).resolve_right fun hzeros => ?_⟩
  rw [hzero] at hzeros
  cases hzeros.2

end Binary64

end Soundworks
