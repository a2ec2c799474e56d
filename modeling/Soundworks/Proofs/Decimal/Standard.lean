import Soundworks.Proofs.Decimal.Plain
/-!
The standard text of a number. It always shows a point or an exponent, which tells it from the text
of an integer, and no zero stands in front of its other digits. The decimal that it denotes is
rounded to the number, whose zero keeps its sign.
-/

namespace Soundworks

namespace Decimal

/-- Digits without a zero in front of others. -/
def Leading (whole : List Char) : Prop :=
  Digits whole ∧ (whole.head? = some '0' → whole = ['0'])

/-- A point with digits behind it, or nothing. -/
inductive Places : List Char → List Char → Prop
  | none : Places [] []
  | point {places : List Char} : Digits places → Places places ('.' :: places)

/-- An exponent with a sign, or nothing. -/
inductive Power : ℤ → List Char → Prop
  | none : Power 0 []
  | minus {ds : List Char} : Digits ds → Power (-(ofDigits ds : ℤ)) ('e' :: '-' :: ds)
  | plus {ds : List Char} : Digits ds → Power (ofDigits ds) ('e' :: '+' :: ds)

/-- A text that denotes a decimal in the standard form. -/
def Standard (d : Decimal) (cs : List Char) : Prop :=
  ∃ whole places fraction power e, cs = withSign d.negative (whole ++ (fraction ++ power)) ∧
    Leading whole ∧ whole.length ≤ 16 ∧ Places places fraction ∧ Power e power ∧
    (fraction ≠ [] ∨ power ≠ []) ∧ d.digits = ofDigits (whole ++ places) ∧
    d.exponent = e - places.length

/-! ### Digits in front -/

/-- The digits of a number start with a zero only if there is no other one. -/
theorem leading_toDigits (n : ℕ) : Leading (Nat.toDigits 10 n) := by
  have hdigits := digits_toDigits n
  refine ⟨hdigits, fun hhead => ?_⟩
  obtain ⟨ds, hds⟩ : ∃ ds, Nat.toDigits 10 n = '0' :: ds := by
    obtain ⟨c, ds, hcons⟩ := List.exists_cons_of_ne_nil hdigits.1
    rw [hcons] at hhead
    exact ⟨ds, by rw [hcons, Option.some.inj hhead]⟩
  rcases List.eq_nil_or_concat' ds with rfl | ⟨_, _, hcat⟩
  · exact hds
  -- without the zero the other digits would be enough
  · have hne : ds ≠ [] := by simp [hcat]
    have hvalue : n = ofDigits ds := by
      rw [← ofDigits_toDigits n, hds]
      exact ofDigits_zeros_append 1 ds
    have hlt : n < 10 ^ ds.length := by
      rw [hvalue]
      exact ofDigits_lt fun c hc => hdigits.2 c (by rw [hds]; exact List.mem_cons_of_mem _ hc)
    have hshort := (Nat.length_toDigits_le_iff (by decide : 1 < 10)
      (List.length_pos_iff.mpr hne)).mpr hlt
    rw [hds, List.length_cons] at hshort
    omega

theorem leading_zero : Leading ['0'] := leading_toDigits 0

/-- Digits that start like the digits of a positive number. -/
theorem leading_of_head {n : ℕ} (hn : 0 < n) {whole : List Char} (hwhole : Digits whole)
    (hhead : whole.head? = (Nat.toDigits 10 n).head?) : Leading whole := by
  refine ⟨hwhole, fun hzero => absurd ?_ hn.ne'⟩
  rw [hhead] at hzero
  rw [← ofDigits_toDigits n, (leading_toDigits n).2 hzero]
  rfl

/-! ### What is written -/

theorem power_exponentChars (e : ℤ) : Power e ('e' :: Layout.standard.exponentChars e) := by
  have hvalue : (ofDigits (List.replicate (2 - (Nat.toDigits 10 e.natAbs).length) '0' ++
      Nat.toDigits 10 e.natAbs) : ℤ) = e.natAbs := by
    rw [ofDigits_zeros_append, ofDigits_toDigits]
  have hdigits := (digits_toDigits e.natAbs).prepend fun _ =>
    isDigit_of_mem_replicate (n := 2 - (Nat.toDigits 10 e.natAbs).length)
  simp only [Layout.exponentChars]
  split
  · have hpower := Power.minus hdigits
    rwa [hvalue, (by omega : -(e.natAbs : ℤ) = e)] at hpower
  · have hpower := Power.plus hdigits
    rwa [hvalue, (by omega : (e.natAbs : ℤ) = e)] at hpower

section

variable {whole places : List Char} (negative : Bool)

theorem standard_point (hwhole : Leading whole) (hlength : whole.length ≤ 16)
    (hplaces : Digits places) :
    Standard ⟨negative, ofDigits (whole ++ places), -places.length⟩
      (withSign negative (whole ++ '.' :: places)) :=
  ⟨whole, places, '.' :: places, [], 0, by rw [List.append_nil], hwhole, hlength, .point hplaces,
    .none, .inl (by simp), rfl, by rw [zero_sub]⟩

theorem standard_scientific {fraction : List Char} (hwhole : Leading whole)
    (hlength : whole.length ≤ 16) (hfraction : Places places fraction) (e : ℤ) :
    Standard ⟨negative, ofDigits (whole ++ places), e - places.length⟩
      (withSign negative (whole ++ (fraction ++ 'e' :: Layout.standard.exponentChars e))) :=
  ⟨whole, places, fraction, _, e, rfl, hwhole, hlength, hfraction, power_exponentChars e,
    .inr (by simp), rfl, rfl⟩

/-- Digits with a power of ten are written in the standard form; zeros may come to them. -/
theorem exists_standard_chars {n : ℕ} (hn : 0 < n) (k : ℤ) :
    ∃ d, Standard d (withSign negative (Layout.standard.chars n k)) ∧ d.negative = negative ∧
      (d.digits * 10 ^ d.exponent : ℚ) = n * 10 ^ k := by
  have hdigits := digits_toDigits n
  have hvalue := ofDigits_toDigits n
  have hlead : ∀ {whole : List Char}, Digits whole →
      whole.head? = (Nat.toDigits 10 n).head? → Leading whole := leading_of_head hn
  have hpos : 0 < (Nat.toDigits 10 n).length := List.length_pos_iff.mpr hdigits.1
  simp only [Layout.chars, show Layout.standard.positionalStart = -4 from rfl,
    show Layout.standard.positionalEnd = 16 from rfl]
  generalize Nat.toDigits 10 n = ds at hdigits hvalue hlead hpos ⊢
  subst hvalue
  split
  case isTrue hplace =>
    split
    case isTrue hk =>
      obtain ⟨i, rfl⟩ := Int.eq_ofNat_of_zero_le hk
      have hwhole : Digits (ds ++ List.replicate i '0') :=
        hdigits.append fun _ => isDigit_of_mem_replicate
      have hhead : (ds ++ List.replicate i '0').head? = ds.head? :=
        List.head?_append_of_ne_nil _ hdigits.1
      have hlength : (ds ++ List.replicate i '0').length ≤ 16 := by
        rw [List.length_append, List.length_replicate]
        omega
      refine ⟨_, standard_point negative (hlead hwhole hhead) hlength (digits_toDigits 0), rfl, ?_⟩
      have hten : ofDigits (ds ++ List.replicate i '0' ++ ['0']) = ofDigits ds * 10 ^ (i + 1) := by
        show Nat.ofDigitChars 10 (ds ++ List.replicate i '0' ++ ['0']) 0 = _
        rw [List.append_assoc, ← List.replicate_succ', Nat.ofDigitChars_append,
          Nat.ofDigitChars_replicate_zero]
        exact Nat.mul_comm _ _
      show ((ofDigits (ds ++ List.replicate i '0' ++ ['0']) : ℕ) * 10 ^ (-1 : ℤ) : ℚ) = _
      rw [hten, zpow_natCast]
      push_cast
      rw [pow_succ, zpow_neg_one]
      ring
    case isFalse hk =>
      split
      case isTrue hwhole =>
        -- the point stands behind the first digit and before the last one
        obtain ⟨i, hi⟩ : ∃ i : ℕ, (ds.length + k - 1 + 1).toNat = i := ⟨_, rfl⟩
        have hdrop : Digits (ds.drop i) := hdigits.drop (by omega)
        have htake : Digits (ds.take i) := hdigits.take (by omega)
        have hhead : (ds.take i).head? = ds.head? := by
          rw [List.head?_take, if_neg (by omega)]
        have hlength : (ds.take i).length ≤ 16 := by
          rw [List.length_take]
          omega
        rw [hi]
        refine ⟨_, standard_point negative (hlead htake hhead) hlength hdrop, rfl, ?_⟩
        rw [List.take_append_drop, List.length_drop, (by omega : -((ds.length - i : ℕ) : ℤ) = k)]
      case isFalse hwhole =>
        obtain ⟨i, hi⟩ : ∃ i : ℕ, (-(ds.length + k - 1) - 1).toNat = i := ⟨_, rfl⟩
        have hplaces : Digits (List.replicate i '0' ++ ds) :=
          hdigits.prepend fun _ => isDigit_of_mem_replicate
        rw [hi]
        refine ⟨_, standard_point negative leading_zero (by decide) hplaces, rfl, ?_⟩
        rw [show ['0'] = List.replicate 1 '0' from rfl, ofDigits_zeros_append,
          ofDigits_zeros_append, List.length_append, List.length_replicate,
          (by omega : -((i + ds.length : ℕ) : ℤ) = k)]
  case isFalse hplace =>
    split
    case h_1 => exact absurd rfl hdigits.1
    case h_2 _ d =>
      refine ⟨_, standard_scientific negative (hlead hdigits rfl) (by simp) .none _, rfl, ?_⟩
      rw [List.append_nil, List.length_nil, (by simp : ([d].length : ℤ) + k - 1 - (0 : ℕ) = k)]
    case h_3 _ d rest hne =>
      have hrest := hdigits.tail hne
      refine ⟨_, standard_scientific negative (hlead (hdigits.take Nat.one_pos) rfl) (by simp)
        (.point hrest) _, rfl, ?_⟩
      rw [(by rw [List.length_cons]; omega : ((d :: rest).length : ℤ) + k - 1 - rest.length = k)]
      rfl

end

end Decimal

namespace Binary64

open Decimal

/-- A finite number is written as a standard decimal that is rounded to it. -/
theorem exists_standard {x : Binary64} (h : x.isFinite = true) :
    ∃ d, Standard d x.chars ∧ d.toBinary64 = x := by
  cases x with
  | nan => cases h
  | infinite s => cases h
  | finite s m e hc =>
      rcases Nat.eq_zero_or_pos m with rfl | hm
      · have hexponent : e = -1074 := by
          obtain ⟨-, -, -, he | hlow⟩ := hc
          · exact he
          · exact absurd hlow (by decide)
        subst hexponent
        exact ⟨_, standard_point s leading_zero (by decide) (digits_toDigits 0), by cases s <;> rfl⟩
      · obtain ⟨hnear, hlast⟩ := shortest_spec hm e
        have hpos := digits_pos hnear hm
        rw [chars, if_neg hm.ne']
        generalize shortest m e = decimal at hnear hpos ⊢
        obtain ⟨n, k⟩ := decimal
        obtain ⟨⟨negative, digits, exponent⟩, hstandard, rfl, hvalue⟩ :=
          exists_standard_chars s hpos k
        rw [← hvalue] at hnear
        exact ⟨_, hstandard, toBinary64_eq hnear _ hm hc⟩

end Binary64

end Soundworks
