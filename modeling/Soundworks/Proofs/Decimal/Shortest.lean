import Soundworks.Decimal.Shortest
import Soundworks.Proofs.Binary64.Nearest
/-!
The shortest decimal of a number is rounded to the number. Whatever the search finds lies among the
rationals that are rounded to it, and where the search finds nothing the exact decimal is taken. The
last digit is not a zero.
-/

namespace Soundworks.Decimal

open Binary64

/-- A decimal as the quotient that is rounded. -/
theorem ten_quotient (d : ℕ) (k : ℤ) :
    ((d * 10 ^ k.toNat : ℕ) : ℚ) / (10 ^ (-k).toNat : ℕ) = d * 10 ^ k := by
  push_cast
  rcases le_total 0 k with hk | hk
  · rw [Int.toNat_of_nonpos (by omega : -k ≤ 0), pow_zero, div_one, ← zpow_natCast,
      Int.toNat_of_nonneg hk]
  · rw [Int.toNat_of_nonpos hk, pow_zero, mul_one, ← zpow_natCast, Int.toNat_of_nonneg (by omega),
      zpow_neg, div_inv_eq_mul]

/-! ### The interval of a number -/

section

variable {m : ℕ} {e : ℤ}

theorem interval_end (n : ℕ) (e : ℤ) :
    ((n <<< (e - 2).toNat : ℕ) : ℚ) / (1 <<< (2 - e).toNat : ℕ) = n / 4 * 2 ^ e := by
  have hquotient := dyadic_quotient false n (e - 2)
  rw [neg_sub] at hquotient
  simp only [signed, Bool.false_eq_true, if_false, Int.cast_natCast] at hquotient
  rw [hquotient, zpow_sub₀ two_ne_zero]
  norm_num
  ring

theorem interval_lower (hm : 0 < m) (e : ℤ) :
    ((Interval.of m e).lower : ℚ) / (Interval.of m e).den = (m - reachBelow m e) * 2 ^ e := by
  simp only [Interval.of, interval_end, reachBelow, (by decide : 1 <<< 52 = 2 ^ 52)]
  split
  · rw [Nat.cast_sub (by omega)]
    push_cast
    ring
  · rw [Nat.cast_sub (by omega)]
    push_cast
    ring

theorem interval_upper (m : ℕ) (e : ℤ) :
    ((Interval.of m e).upper : ℚ) / (Interval.of m e).den = (m + 1 / 2) * 2 ^ e := by
  simp only [Interval.of, interval_end]
  push_cast
  ring

theorem interval_den_pos (m : ℕ) (e : ℤ) : (0 : ℚ) < (Interval.of m e).den := by
  exact_mod_cast one_shiftLeft_pos (2 - e).toNat

/-- A decimal in the interval of a number is rounded to the number. -/
theorem near_of_contains (hm : 0 < m) {d : ℕ} {k : ℤ}
    (h : (Interval.of m e).contains d k = true) : Near m e (d * 10 ^ k) := by
  have hden := interval_den_pos m e
  have hdown : (0 : ℚ) < (10 ^ (-k).toNat : ℕ) := by positivity
  have hlower := interval_lower hm e
  have hupper := interval_upper m e
  have hclosed : (Interval.of m e).closed = decide (m % 2 = 0) := rfl
  generalize Interval.of m e = i at h hden hlower hupper hclosed
  simp only [Interval.contains, Nat.pow_eq] at h
  have hle : ∀ {a : ℕ}, a * 10 ^ (-k).toNat ≤ d * 10 ^ k.toNat * i.den ↔
      (a : ℚ) / i.den ≤ d * 10 ^ k := fun {a} => by
    rw [← ten_quotient, div_le_div_iff₀ hden hdown]
    norm_cast
  have hge : ∀ {a : ℕ}, d * 10 ^ k.toNat * i.den ≤ a * 10 ^ (-k).toNat ↔
      (d * 10 ^ k : ℚ) ≤ a / i.den := fun {a} => by
    rw [← ten_quotient, div_le_div_iff₀ hdown hden]
    norm_cast
  have hlt {a : ℕ} := lt_iff_lt_of_le_iff_le (hge (a := a))
  have hgt {a : ℕ} := lt_iff_lt_of_le_iff_le (hle (a := a))
  rw [hclosed] at h
  split at h <;> rename_i hparity
  · simp only [decide_eq_true_eq] at hparity
    simp only [Bool.and_eq_true, decide_eq_true_eq, hle, hge, hlower, hupper] at h
    exact ⟨h.1, h.2, fun hodd => by omega⟩
  · simp only [Bool.and_eq_true, decide_eq_true_eq, hlt, hgt, hlower, hupper] at h
    exact ⟨h.1.le, h.2.le, fun _ => h⟩

theorem Interval.contains_of_neighbour? {i : Interval} {k : ℤ} {d : ℕ}
    (h : i.neighbour? k = some d) : i.contains d k = true := by
  unfold Interval.neighbour? at h
  dsimp only at h
  split_ifs at h <;> cases h <;> assumption

theorem Interval.contains_of_search {i : Interval} {n : ℕ} {k l : ℤ} {d : ℕ}
    (h : i.search n k = some (d, l)) : i.contains d l = true := by
  induction n generalizing k with
  | zero => simp [search] at h
  | succ n ih =>
      unfold search at h
      split at h
      case h_1 hfound =>
        cases h
        exact contains_of_neighbour? hfound
      case h_2 => exact ih h

theorem expansion_value (m : ℕ) (e : ℤ) :
    ((expansion m e).1 * 10 ^ (expansion m e).2 : ℚ) = m * 2 ^ e := by
  unfold expansion
  split
  case isTrue he =>
    obtain ⟨n, rfl⟩ := Int.eq_ofNat_of_zero_le he
    simp [Nat.shiftLeft_eq]
  case isFalse he =>
    obtain ⟨n, hn⟩ := Int.eq_ofNat_of_zero_le (by omega : 0 ≤ -e)
    obtain rfl : e = -n := by omega
    have hten : (10 : ℚ) ^ (-(n : ℤ)) = (5 ^ n)⁻¹ * 2 ^ (-(n : ℤ)) := by
      rw [(by norm_num : (10 : ℚ) = 5 * 2), mul_zpow, zpow_neg, zpow_natCast]
    rw [hten, (by omega : (- -(n : ℤ)).toNat = n), Nat.pow_eq]
    push_cast
    field_simp

/-! ### Zeros at the end -/

theorem lt_pow_width (d : ℕ) : d < 10 ^ width d :=
  (Nat.length_toDigits_le_iff (by decide) Nat.length_toDigits_pos).mp le_rfl

theorem trim_value (fuel d : ℕ) (k : ℤ) :
    ((trim fuel d k).1 * 10 ^ (trim fuel d k).2 : ℚ) = d * 10 ^ k := by
  induction fuel generalizing d k with
  | zero => rfl
  | succ fuel ih =>
      unfold trim
      split
      case isTrue h =>
        obtain ⟨c, rfl⟩ := Nat.dvd_of_mod_eq_zero h.1
        rw [ih, Nat.mul_div_cancel_left c (by decide), zpow_add_one₀ (by norm_num)]
        push_cast
        ring
      case isFalse => rfl

theorem trim_mod_ne_zero {fuel d : ℕ} (hd : 0 < d) (hfuel : d < 10 ^ fuel) (k : ℤ) :
    (trim fuel d k).1 % 10 ≠ 0 := by
  induction fuel generalizing d k with
  | zero => omega
  | succ fuel ih =>
      unfold trim
      split
      case isTrue h => exact ih (by omega) (by omega) (k + 1)
      case isFalse h => exact fun hzero => h ⟨hzero, by omega⟩

theorem digits_pos {d : ℕ} {k : ℤ} (h : Near m e (d * 10 ^ k)) (hm : 0 < m) : 0 < d := by
  refine Nat.pos_of_ne_zero fun hzero => ?_
  have hpos := h.pos hm
  simp [hzero] at hpos

/-- The shortest decimal of a number is rounded to it and does not end in a zero. -/
theorem shortest_spec (hm : 0 < m) (e : ℤ) :
    Near m e ((shortest m e).1 * 10 ^ (shortest m e).2) ∧ (shortest m e).1 % 10 ≠ 0 := by
  have huntrimmed : ∃ d k, shortest m e = trim (width d) d k ∧ Near m e (d * 10 ^ k) := by
    refine ⟨_, _, rfl, ?_⟩
    cases hsearch : (Interval.of m e).search 17
        (leadingPlace (Interval.of m e).centre (Interval.of m e).den) with
    | none => exact .of_eq (expansion_value m e)
    | some found => exact near_of_contains hm (Interval.contains_of_search hsearch)
  obtain ⟨d, k, hshortest, hnear⟩ := huntrimmed
  rw [hshortest, trim_value]
  exact ⟨hnear, trim_mod_ne_zero (digits_pos hnear hm) (lt_pow_width d) k⟩

/-! ### Reading a decimal back -/

theorem pow_width_le {d : ℕ} (hd : 0 < d) : 10 ^ (width d - 1) ≤ d := by
  rcases Nat.eq_zero_or_pos (width d - 1) with hzero | hpos
  · rwa [hzero, pow_zero]
  · by_contra hlt
    have hshorter := (Nat.length_toDigits_le_iff (by decide : 1 < 10) hpos).mpr (not_le.mp hlt)
    unfold width at hshorter hpos
    omega

/-- A number below a power of ten has no digit at or above the place of this power. -/
theorem width_add_le {d : ℕ} {k n : ℤ} (h : Near m e (d * 10 ^ k)) (hm : 0 < m)
    (hc : Canonical m e) (hn : (2 : ℚ) ^ (e + 53) ≤ 10 ^ n) : width d + k ≤ n := by
  have hwidth : 1 ≤ width d := Nat.length_toDigits_pos
  have hhigh : (10 : ℚ) ^ (((width d - 1 : ℕ) : ℤ) + k) < 10 ^ n :=
    calc (10 : ℚ) ^ (((width d - 1 : ℕ) : ℤ) + k)
        = 10 ^ ((width d - 1 : ℕ) : ℤ) * 10 ^ k := zpow_add₀ (by norm_num) _ _
      _ ≤ d * 10 ^ k := by
          refine mul_le_mul_of_nonneg_right ?_ (by positivity)
          exact_mod_cast pow_width_le (digits_pos h hm)
      _ < 2 ^ (e + 53) := h.lt_of_canonical hc
      _ ≤ 10 ^ n := hn
  rw [zpow_lt_zpow_iff_right₀ (by norm_num)] at hhigh
  omega

/-- A number above a power of ten has a digit at the place of this power or above it. -/
theorem lt_width_add {d : ℕ} {k n : ℤ} (h : Near m e (d * 10 ^ k)) (hm : 0 < m)
    (hn : (10 : ℚ) ^ n ≤ 2 ^ (e - 1)) : n < width d + k := by
  have hlow : (10 : ℚ) ^ n < 10 ^ (width d + k) :=
    calc (10 : ℚ) ^ n ≤ 2 ^ (e - 1) := hn
      _ ≤ d * 10 ^ k := h.half_unit_le hm
      _ < 10 ^ (width d : ℤ) * 10 ^ k := by
          refine mul_lt_mul_of_pos_right ?_ (by positivity)
          exact_mod_cast lt_pow_width d
      _ = 10 ^ (width d + k) := (zpow_add₀ (by norm_num) _ _).symm
  rwa [zpow_lt_zpow_iff_right₀ (by norm_num)] at hlow

/-- The numbers are far from where the count of digits alone decides. -/
theorem magnitude_bounds {d : ℕ} {k : ℤ} (h : Near m e (d * 10 ^ k)) (hm : 0 < m)
    (hc : Canonical m e) : -400 ≤ width d + k ∧ width d + k ≤ 400 := by
  obtain ⟨hleast, hmost, -⟩ := hc.2
  constructor
  · have hfloor : (2 : ℚ) ^ 1075 ≤ 10 ^ 400 := by
      exact_mod_cast (by decide +kernel : 2 ^ 1075 ≤ 10 ^ 400)
    refine (lt_width_add h hm (n := -400) ?_).le
    exact (inv_anti₀ (by positivity) hfloor).trans (two_zpow_le (by omega : -1075 ≤ e - 1))
  · have hceiling : (2 : ℚ) ^ 1024 ≤ 10 ^ 400 := by
      exact_mod_cast (by decide +kernel : 2 ^ 1024 ≤ 10 ^ 400)
    exact width_add_le h hm hc ((two_zpow_le (by omega : e + 53 ≤ 1024)).trans hceiling)

/-- A decimal that is rounded to a positive number is read as this number. -/
theorem toBinary64_eq {d : ℕ} {k : ℤ} (h : Near m e (d * 10 ^ k)) (s : Bool) (hm : 0 < m)
    (hc : Canonical m e) : toBinary64 ⟨s, d, k⟩ = .finite s m e hc := by
  have hd := (digits_pos h hm).ne'
  obtain ⟨hlow, hhigh⟩ := magnitude_bounds h hm hc
  simp only [toBinary64, if_neg hd, if_neg (not_lt.mpr hlow), if_neg (not_lt.mpr hhigh), Nat.pow_eq]
  refine Near.ofFraction_eq s ?_ hm (by positivity) hc
  rwa [ten_quotient]

end

end Soundworks.Decimal
