import Mathlib.Data.Nat.Log
import Mathlib.Tactic.FieldSimp
import Soundworks.Proofs.Binary64.Value
/-!
Rounding respects the order and goes to the nearest number. A result is a rounded rational if no
finite number separates the two, and they are at most half a unit of the last place apart; every
operation on finite numbers is the exact one, rounded in this sense.
-/

namespace Soundworks.Binary64

/-- No finite number lies between a rational and the number it is rounded to. Of a rational below
`2 ^ k` the number keeps the places down to `2 ^ (k - 53)`. -/
structure Rounds (q : ℚ) (x : Binary64) : Prop where
  below : ∀ y : Binary64, y.isFinite = true → q ≤ y.value → x ≤ y
  above : ∀ y : Binary64, y.isFinite = true → y.value ≤ q → y ≤ x
  near : x.isFinite = true → ∀ k : ℤ, -1021 ≤ k → |q| < 2 ^ k → |x.value - q| ≤ 2 ^ (k - 54)

namespace Rounds

variable {q : ℚ} {x y : Binary64}

theorem neg (h : Rounds q x) : Rounds (-q) (-x) where
  below y hy hq := by
    have hle := neg_le_neg (h.above (-y) (by rwa [isFinite_neg]) (by rw [value_neg]; linarith))
    rwa [Binary64.neg_neg] at hle
  above y hy hq := by
    have hle := neg_le_neg (h.below (-y) (by rwa [isFinite_neg]) (by rw [value_neg]; linarith))
    rwa [Binary64.neg_neg] at hle
  near hx k hk hq := by
    have hnear := h.near (by rwa [isFinite_neg] at hx) k hk (by rwa [abs_neg] at hq)
    rwa [value_neg, neg_sub_neg, abs_sub_comm]

theorem of_value (hx : x.isFinite = true) : Rounds x.value x where
  below _ hy h := (le_iff hx hy).mpr h
  above _ hy h := (le_iff hy hx).mpr h
  near _ k _ _ := by
    rw [sub_self, abs_zero]
    exact (two_zpow_pos _).le

variable {lo hi : Binary64}

theorem isFinite (h : Rounds q x) (hlo : lo.isFinite = true) (hhi : hi.isFinite = true)
    (hql : lo.value ≤ q) (hqh : q ≤ hi.value) : x.isFinite = true :=
  isFinite_of_le_of_le hlo hhi (h.above lo hlo hql) (h.below hi hhi hqh)

theorem value_le (h : Rounds q x) (hx : x.isFinite = true) (hy : y.isFinite = true)
    (hq : q ≤ y.value) : x.value ≤ y.value := (le_iff hx hy).mp (h.below y hy hq)

theorem le_value (h : Rounds q x) (hx : x.isFinite = true) (hy : y.isFinite = true)
    (hq : y.value ≤ q) : y.value ≤ x.value := (le_iff hy hx).mp (h.above y hy hq)

theorem value_eq (h : Rounds q x) (hy : y.isFinite = true) (hq : y.value = q) :
    x.isFinite = true ∧ x.value = q := by
  have hx := h.isFinite hy hy hq.le hq.ge
  have hle := h.value_le hx hy hq.ge
  have hge := h.le_value hx hy hq.le
  exact ⟨hx, by linarith⟩

end Rounds

/-! ### Rounding to an integer -/

theorem roundDiv_le {num den n : ℕ} (hden : 0 < den) (h : num ≤ n * den) :
    roundDiv num den ≤ n := by
  have hdiv := Nat.div_add_mod num den
  have hmod := Nat.mod_lt num hden
  have hle : num / den ≤ n := Nat.div_le_of_le_mul (by rwa [Nat.mul_comm] at h)
  unfold roundDiv
  dsimp only
  rcases Nat.lt_or_eq_of_le hle with hlt | heq
  · split
    · omega
    · split <;> omega
  -- a quotient that is already `n` leaves no remainder
  · have hrest : num % den = 0 := by
      rw [heq, Nat.mul_comm] at hdiv
      omega
    rw [hrest, heq, if_pos (by omega)]

theorem le_roundDiv {num den n : ℕ} (hden : 0 < den) (h : n * den ≤ num) :
    n ≤ roundDiv num den := by
  have hle : n ≤ num / den := (Nat.le_div_iff_mul_le hden).mpr h
  unfold roundDiv
  dsimp only
  split
  · exact hle
  · split <;> omega

/-- A rounded quotient is at most a half away. -/
theorem roundDiv_near (num : ℕ) {den : ℕ} (hden : 0 < den) :
    |(roundDiv num den : ℚ) - num / den| ≤ 1 / 2 := by
  have hmod := Nat.mod_lt num hden
  have hdiv := Nat.div_add_mod' num den
  have hden' : (0 : ℚ) < den := by exact_mod_cast hden
  -- the remainder, or what is missing to the next multiple, is at most half the denominator
  have hhalf : 2 * num ≤ 2 * (roundDiv num den * den) + den ∧
      2 * (roundDiv num den * den) ≤ 2 * num + den := by
    unfold roundDiv
    dsimp only
    split
    · omega
    · split
      · rw [Nat.add_mul]
        omega
      · rcases Nat.mod_two_eq_zero_or_one (num / den) with h | h <;> rw [h, Nat.add_mul] <;> omega
  obtain ⟨hlow, hhigh⟩ : (2 * num : ℚ) ≤ 2 * (roundDiv num den * den) + den ∧
      (2 * (roundDiv num den * den) : ℚ) ≤ 2 * num + den := by exact_mod_cast hhalf
  rw [abs_sub_comm, abs_sub_le_iff, sub_le_iff_le_add', sub_le_comm, div_le_iff₀ hden',
    le_div_iff₀ hden']
  constructor <;> linarith

/-! ### The grid of a quotient -/

theorem log2_bounds {n : ℕ} (h : 0 < n) :
    (2 : ℚ) ^ (n.log2 : ℤ) ≤ n ∧ (n : ℚ) < 2 ^ ((n.log2 : ℤ) + 1) := by
  constructor
  · rw [zpow_natCast]
    exact_mod_cast Nat.log2_self_le h.ne'
  · rw [show (n.log2 : ℤ) + 1 = ((n.log2 + 1 : ℕ) : ℤ) by push_cast; rfl, zpow_natCast]
    exact_mod_cast Nat.lt_log2_self

section

variable {num den : ℕ}

/-- Shifting a numerator up, or else the denominator, scales the quotient by a power of two. -/
theorem shifted_div (x : ℚ) (den : ℕ) (d : ℤ) :
    x * 2 ^ ((-d).toNat : ℤ) / (den <<< d.toNat : ℕ) = x / den / 2 ^ d := by
  rw [cast_shiftLeft]
  rcases le_total 0 d with hd | hd
  · rw [Int.toNat_of_nonneg hd, Int.toNat_of_nonpos (by omega), Nat.cast_zero, zpow_zero, mul_one,
      div_div]
  · rw [Int.toNat_of_nonpos hd, Int.toNat_of_nonneg (by omega), Nat.cast_zero, zpow_zero, mul_one,
      zpow_neg, ← div_eq_mul_inv, div_right_comm]

theorem shiftLeft_pos {n : ℕ} (h : 0 < n) (k : ℕ) : (0 : ℚ) < (n <<< k : ℕ) := by
  rw [Nat.shiftLeft_eq]
  exact_mod_cast Nat.mul_pos h (Nat.two_pow_pos k)

/-- The first test of `gridExponent` compares the quotient with a power of two. -/
theorem shift_le_shift_iff (hden : 0 < den) (d : ℤ) :
    den <<< d.toNat ≤ num <<< (-d).toNat ↔ (2 : ℚ) ^ d ≤ (num : ℚ) / den := by
  rw [← Nat.cast_le (α := ℚ), ← one_le_div (shiftLeft_pos hden _), cast_shiftLeft num, shifted_div,
    one_le_div (two_zpow_pos d)]

/-- On its grid a quotient is below `2 ^ 53`, and at least `2 ^ 52` unless the grid is the finest
one. -/
theorem gridExponent_spec (hnum : 0 < num) (hden : 0 < den) :
    (num : ℚ) / den < 2 ^ (gridExponent num den + 53) ∧ -1074 ≤ gridExponent num den ∧
      (gridExponent num den = -1074 ∨ 2 ^ (gridExponent num den + 52) ≤ (num : ℚ) / den) := by
  have hden' : (0 : ℚ) < den := by exact_mod_cast hden
  obtain ⟨hn, hn'⟩ := log2_bounds hnum
  obtain ⟨hd, hd'⟩ := log2_bounds hden
  set d : ℤ := (num.log2 : ℤ) - den.log2 with hdef
  have hupper : (num : ℚ) / den < 2 ^ (d + 1) := by
    rw [div_lt_iff₀ hden']
    calc (num : ℚ) < 2 ^ ((num.log2 : ℤ) + 1) := hn'
      _ = 2 ^ (d + 1) * 2 ^ (den.log2 : ℤ) := by rw [← two_zpow_add]; congr 1; omega
      _ ≤ 2 ^ (d + 1) * den := mul_le_mul_of_nonneg_left hd (two_zpow_pos _).le
  have hlower : (2 : ℚ) ^ (d - 1) ≤ (num : ℚ) / den := by
    rw [le_div_iff₀ hden']
    calc (2 : ℚ) ^ (d - 1) * den ≤ 2 ^ (d - 1) * 2 ^ ((den.log2 : ℤ) + 1) :=
          mul_le_mul_of_nonneg_left hd'.le (two_zpow_pos _).le
      _ = 2 ^ (num.log2 : ℤ) := by rw [← two_zpow_add]; congr 1; omega
      _ ≤ num := hn
  -- the leading power of the quotient
  obtain ⟨top, htop, hle, hlt⟩ : ∃ top : ℤ,
      gridExponent num den = max (-1074) (top - 52) ∧ (2 : ℚ) ^ top ≤ (num : ℚ) / den ∧
        (num : ℚ) / den < 2 ^ (top + 1) := by
    by_cases h : den <<< d.toNat ≤ num <<< (-d).toNat
    · exact ⟨d, by simp only [gridExponent, ← hdef, if_pos h],
        (shift_le_shift_iff hden d).mp h, hupper⟩
    · refine ⟨d - 1, by simp only [gridExponent, ← hdef, if_neg h], hlower, ?_⟩
      rw [shift_le_shift_iff hden] at h
      simpa using h
  rw [htop]
  refine ⟨hlt.trans_le (two_zpow_le (by omega)), le_max_left _ _, ?_⟩
  rcases le_total (-1074) (top - 52) with h | h
  · right
    rw [max_eq_right h]
    exact (two_zpow_le (by omega)).trans hle
  · exact .inl (max_eq_left h)

def gridSignificand (num den : ℕ) : ℕ :=
  roundDiv (num <<< (-gridExponent num den).toNat) (den <<< (gridExponent num den).toNat)

theorem gridSignificand_le (hden : 0 < den) {n : ℕ}
    (h : (num : ℚ) / den ≤ n * 2 ^ gridExponent num den) : gridSignificand num den ≤ n := by
  have hshifted := shiftLeft_pos hden (gridExponent num den).toNat
  refine roundDiv_le (by exact_mod_cast hshifted) ?_
  rw [← Nat.cast_le (α := ℚ), Nat.cast_mul, ← div_le_iff₀ hshifted, cast_shiftLeft num,
    shifted_div, div_le_iff₀ (two_zpow_pos _)]
  exact h

theorem le_gridSignificand (hden : 0 < den) {n : ℕ}
    (h : n * 2 ^ gridExponent num den ≤ (num : ℚ) / den) : n ≤ gridSignificand num den := by
  have hshifted := shiftLeft_pos hden (gridExponent num den).toNat
  refine le_roundDiv (by exact_mod_cast hshifted) ?_
  rw [← Nat.cast_le (α := ℚ), Nat.cast_mul, ← le_div_iff₀ hshifted, cast_shiftLeft num,
    shifted_div, le_div_iff₀ (two_zpow_pos _)]
  exact h

theorem gridSignificand_near (hden : 0 < den) :
    |(gridSignificand num den : ℚ) * 2 ^ gridExponent num den - num / den| ≤
      2 ^ (gridExponent num den - 1) := by
  have hpow := two_zpow_pos (gridExponent num den)
  have hshifted := shiftLeft_pos hden (gridExponent num den).toNat
  have hnear := roundDiv_near (num <<< (-gridExponent num den).toNat)
    (show 0 < den <<< (gridExponent num den).toNat by exact_mod_cast hshifted)
  rw [cast_shiftLeft num, shifted_div] at hnear
  calc |(gridSignificand num den : ℚ) * 2 ^ gridExponent num den - num / den|
      = |(gridSignificand num den : ℚ) - num / den / 2 ^ gridExponent num den| *
          2 ^ gridExponent num den := by
        rw [← abs_of_pos hpow, ← abs_mul, abs_of_pos hpow, sub_mul, div_mul_cancel₀ _ hpow.ne']
    _ ≤ 1 / 2 * 2 ^ gridExponent num den := mul_le_mul_of_nonneg_right hnear hpow.le
    _ = 2 ^ (gridExponent num den - 1) := by
        rw [zpow_sub_one₀ two_ne_zero]
        ring

/-- On the grid a quotient stays on its side of every number of the format: such a number is a
multiple of the grid, or it lies below all significands of 53 bits. -/
theorem gridSignificand_mono (hnum : 0 < num) (hden : 0 < den) {m : ℕ} {e : ℤ}
    (h : Canonical m e) :
    ((num : ℚ) / den ≤ m * 2 ^ e →
      (gridSignificand num den : ℚ) * 2 ^ gridExponent num den ≤ m * 2 ^ e) ∧
    ((m : ℚ) * 2 ^ e ≤ (num : ℚ) / den →
      (m : ℚ) * 2 ^ e ≤ gridSignificand num den * 2 ^ gridExponent num den) := by
  obtain ⟨-, hleast, hwide⟩ := gridExponent_spec hnum hden
  set g := gridExponent num den with hg
  have hpow := (two_zpow_pos g).le
  obtain ⟨hm, he, -, -⟩ := h
  rcases le_or_gt g e with hge | hlt
  · have hmultiple : (m : ℚ) * 2 ^ e = (m <<< (e - g).toNat : ℕ) * 2 ^ g := by
      rw [cast_shiftLeft, Int.toNat_of_nonneg (by omega), mul_assoc, ← two_zpow_add]
      congr 2
      omega
    rw [hmultiple]
    refine ⟨fun hq => ?_, fun hq => ?_⟩
    · exact mul_le_mul_of_nonneg_right (by exact_mod_cast gridSignificand_le hden hq) hpow
    · exact mul_le_mul_of_nonneg_right (by exact_mod_cast le_gridSignificand hden hq) hpow
  · have htop : (2 : ℚ) ^ (g + 52) ≤ (num : ℚ) / den := hwide.resolve_left (by omega)
    have hbelow : (m : ℚ) * 2 ^ e < 2 ^ (g + 52) := by
      have hm' : (m : ℚ) < 2 ^ (53 : ℤ) := by
        rw [Nat.shiftLeft_eq] at hm
        exact_mod_cast (by omega : m < 2 ^ 53)
      calc (m : ℚ) * 2 ^ e < 2 ^ (53 : ℤ) * 2 ^ e := mul_lt_mul_of_pos_right hm' (two_zpow_pos e)
        _ = 2 ^ (53 + e) := (two_zpow_add _ _).symm
        _ ≤ 2 ^ (g + 52) := two_zpow_le (by omega)
    have hfull : (2 : ℚ) ^ (g + 52) = (2 ^ 52 : ℕ) * 2 ^ g := by
      rw [add_comm, two_zpow_add]
      norm_num
    refine ⟨fun hq => absurd (hbelow.trans_le (htop.trans hq)) (lt_irrefl _), fun _ => ?_⟩
    have hmany : 2 ^ 52 ≤ gridSignificand num den :=
      le_gridSignificand hden (by rw [← hg, ← hfull]; exact htop)
    refine hbelow.le.trans ?_
    rw [hfull]
    exact mul_le_mul_of_nonneg_right (by exact_mod_cast hmany) hpow

theorem ofFraction_eq (hnum : 0 < num) (den : ℕ) :
    ofFraction false num den =
      if gridSignificand num den = 1 <<< 53 then
        onGrid false (1 <<< 52) (gridExponent num den + 1)
      else onGrid false (gridSignificand num den) (gridExponent num den) := by
  unfold ofFraction
  rw [if_neg hnum.ne']
  rfl

/-- A number on the grid is its significand there, or it is past the range. -/
theorem ofFraction_pos (hnum : 0 < num) (hden : 0 < den) :
    (∃ m e h, ofFraction false num den = .finite false m e h ∧
      (m : ℚ) * 2 ^ e = gridSignificand num den * 2 ^ gridExponent num den) ∨
    (ofFraction false num den = .infinite false ∧
      (2 : ℚ) ^ (1024 : ℤ) ≤ gridSignificand num den * 2 ^ gridExponent num den) := by
  obtain ⟨hupper, hleast, hwide⟩ := gridExponent_spec hnum hden
  have hdef := ofFraction_eq hnum den
  have hmost : gridSignificand num den ≤ 2 ^ 53 := by
    refine gridSignificand_le hden (hupper.le.trans (le_of_eq ?_))
    rw [add_comm, two_zpow_add]
    norm_num
  have hfull : gridExponent num den = -1074 ∨ 2 ^ 52 ≤ gridSignificand num den := by
    refine hwide.imp_right fun h => le_gridSignificand hden (le_of_eq_of_le ?_ h)
    rw [add_comm, two_zpow_add]
    norm_num
  generalize gridSignificand num den = m at hdef hmost hfull ⊢
  generalize gridExponent num den = e at hdef hleast hfull ⊢
  rw [hdef]
  by_cases hcarry : m = 1 <<< 53
  · subst hcarry
    rw [if_pos rfl]
    by_cases he : e + 1 ≤ 971
    · refine .inl ⟨1 <<< 52, e + 1, ⟨by decide, by omega, he, .inr (by decide)⟩, dif_pos _, ?_⟩
      rw [two_zpow_add]
      norm_num [Nat.shiftLeft_eq]
      ring
    · refine .inr ⟨dif_neg fun h => he h.2.2.1, ?_⟩
      calc (2 : ℚ) ^ (1024 : ℤ) ≤ 2 ^ (53 + e) := two_zpow_le (by omega)
        _ = (1 <<< 53 : ℕ) * 2 ^ e := by rw [two_zpow_add]; norm_num [Nat.shiftLeft_eq]
  · rw [if_neg hcarry]
    rw [Nat.shiftLeft_eq] at hcarry
    by_cases he : e ≤ 971
    · have hcanonical : Canonical m e := by
        simp only [Canonical, Nat.shiftLeft_eq]
        omega
      exact .inl ⟨m, e, hcanonical, dif_pos hcanonical, rfl⟩
    · refine .inr ⟨dif_neg fun h => he h.2.2.1, ?_⟩
      have hm : ((2 ^ 52 : ℕ) : ℚ) ≤ m := by exact_mod_cast hfull.resolve_left (by omega)
      calc (2 : ℚ) ^ (1024 : ℤ) ≤ 2 ^ (52 + e) := two_zpow_le (by omega)
        _ = (2 ^ 52 : ℕ) * 2 ^ e := by rw [two_zpow_add]; norm_num
        _ ≤ m * 2 ^ e := mul_le_mul_of_nonneg_right hm (two_zpow_pos e).le

theorem ofFraction_true (num den : ℕ) : ofFraction true num den = -ofFraction false num den := by
  have hgrid : ∀ m e, onGrid true m e = -onGrid false m e := by
    intro m e
    by_cases h : Canonical m e <;> simp [onGrid, h, Neg.neg, neg]
  simp only [ofFraction, hgrid]
  split_ifs <;> rfl

theorem rounds_ofFraction_pos (hnum : 0 < num) (hden : 0 < den) :
    Rounds ((num : ℚ) / den) (ofFraction false num den) := by
  have hpos : (0 : ℚ) < (num : ℚ) / den := by positivity
  have hgrid : (0 : ℚ) ≤ gridSignificand num den * 2 ^ gridExponent num den := by positivity
  -- a negative number is below all of this, so only the magnitude of the other one counts
  have below : ∀ y : Binary64, y.isFinite = true → (num : ℚ) / den ≤ y.value →
      (gridSignificand num den : ℚ) * 2 ^ gridExponent num den ≤ y.value := by
    intro y hy hq
    obtain _ | _ | ⟨s, m, e, h⟩ := y
    · cases hy
    · cases hy
    · cases s with
      | false => exact (gridSignificand_mono hnum hden h).1 hq
      | true =>
          have hneg : (finite true m e h).value ≤ 0 := by
            simp only [value, signed, if_true]
            push_cast
            have hm : (0 : ℚ) ≤ m * 2 ^ e := by positivity
            linarith
          linarith
  have above : ∀ y : Binary64, y.isFinite = true → y.value ≤ (num : ℚ) / den →
      y.value ≤ (gridSignificand num den : ℚ) * 2 ^ gridExponent num den := by
    intro y hy hq
    obtain _ | _ | ⟨s, m, e, h⟩ := y
    · cases hy
    · cases hy
    · cases s with
      | false => exact (gridSignificand_mono hnum hden h).2 hq
      | true =>
          have hneg : (finite true m e h).value ≤ 0 := by
            simp only [value, signed, if_true]
            push_cast
            have hm : (0 : ℚ) ≤ m * 2 ^ e := by positivity
            linarith
          linarith
  obtain ⟨m, e, h, hx, hvalue⟩ | ⟨hx, hlarge⟩ := ofFraction_pos hnum hden
  · rw [hx]
    have hval : (finite false m e h).value =
        gridSignificand num den * 2 ^ gridExponent num den := hvalue
    refine ⟨fun y hy hq => (le_iff rfl hy).mpr (hval ▸ below y hy hq),
      fun y hy hq => (le_iff hy rfl).mpr (hval ▸ above y hy hq), fun _ k hk hq => ?_⟩
    obtain ⟨-, -, hwide⟩ := gridExponent_spec hnum hden
    have hle : gridExponent num den - 1 ≤ k - 54 := by
      rw [abs_of_pos hpos] at hq
      rcases hwide with hleast | hfull
      · omega
      · have hlt := (zpow_lt_zpow_iff_right₀ (by norm_num : (1 : ℚ) < 2)).mp (hfull.trans_lt hq)
        omega
    rw [hval]
    exact (gridSignificand_near hden).trans (two_zpow_le hle)
  · rw [hx]
    refine ⟨fun y hy hq => absurd (below y hy hq) ?_, fun y hy _ => le_infinite_false hy,
      fun hfinite => absurd hfinite Bool.false_ne_true⟩
    exact not_le.mpr ((value_lt_range y).trans_le hlarge)

theorem rounds_ofFraction (s : Bool) (num : ℕ) (hden : 0 < den) :
    Rounds ((signed s num : ℚ) / den) (ofFraction s num den) := by
  have hpositive : Rounds ((num : ℚ) / den) (ofFraction false num den) := by
    rcases Nat.eq_zero_or_pos num with rfl | hnum
    · simpa [ofFraction] using Rounds.of_value (isFinite_zero false)
    · exact rounds_ofFraction_pos hnum hden
  cases s with
  | false => exact hpositive
  | true =>
      rw [ofFraction_true]
      simpa [signed, neg_div] using hpositive.neg

end

/-! ### The operations -/

theorem one_shiftLeft_pos (k : ℕ) : 0 < 1 <<< k := by
  rw [Nat.shiftLeft_eq]
  positivity

/-- The quotient of a significand and a power of two. -/
theorem dyadic_quotient (s : Bool) (m : ℕ) (e : ℤ) :
    (signed s (m <<< e.toNat) : ℚ) / (1 <<< (-e).toNat : ℕ) = signed s m * 2 ^ e := by
  rw [signed_shiftLeft, cast_shiftLeft]
  rcases le_total 0 e with he | he
  · rw [Int.toNat_of_nonneg he, Int.toNat_of_nonpos (by omega)]
    simp
  · rw [Int.toNat_of_nonpos he, Int.toNat_of_nonneg (by omega)]
    simp [zpow_neg]

theorem rounds_ofDyadic (s : Bool) (m : ℕ) (e : ℤ) :
    Rounds (signed s m * 2 ^ e) (ofDyadic s m e) := by
  have h := rounds_ofFraction s (m <<< e.toNat) (one_shiftLeft_pos (-e).toNat)
  rwa [dyadic_quotient] at h

theorem signed_natAbs (t : ℤ) : signed (decide (t < 0)) t.natAbs = t := by
  unfold signed
  split <;> rename_i h <;> rw [decide_eq_true_eq] at h <;> omega

theorem rounds_ofInt (n : ℤ) : Rounds n (ofInt n) := by
  have h := rounds_ofFraction (decide (n < 0)) n.natAbs one_pos
  rwa [signed_natAbs, Nat.cast_one, div_one] at h

/-- A sum on a grid, rounded, with a zero of either sign. -/
theorem rounds_dyadicSum (t e : ℤ) (s : Bool) :
    Rounds (t * 2 ^ e) (if t = 0 then zero s else ofDyadic (t < 0) t.natAbs e) := by
  split
  case isTrue h => simpa [h] using Rounds.of_value (isFinite_zero s)
  case isFalse => simpa only [signed_natAbs] using rounds_ofDyadic (decide (t < 0)) t.natAbs e

variable {x y z : Binary64}

theorem rounds_add (hx : x.isFinite = true) (hy : y.isFinite = true) :
    Rounds (x.value + y.value) (x + y) := by
  obtain _ | _ | ⟨s₁, m₁, e₁, h₁⟩ := x <;> try cases hx
  obtain _ | _ | ⟨s₂, m₂, e₂, h₂⟩ := y <;> try cases hy
  have h := rounds_dyadicSum (alignedSum s₁ m₁ e₁ s₂ m₂ e₂) (min e₁ e₂) (s₁ && s₂)
  rwa [alignedSum_value] at h

theorem rounds_sub (hx : x.isFinite = true) (hy : y.isFinite = true) :
    Rounds (x.value - y.value) (x - y) := by
  have h := rounds_add hx ((isFinite_neg y).trans hy)
  rwa [value_neg, ← sub_eq_add_neg] at h

theorem signed_mul (s₁ s₂ : Bool) (m₁ m₂ : ℕ) :
    signed (s₁ != s₂) (m₁ * m₂) = signed s₁ m₁ * signed s₂ m₂ := by
  cases s₁ <;> cases s₂ <;> simp [signed]

theorem rounds_mul (hx : x.isFinite = true) (hy : y.isFinite = true) :
    Rounds (x.value * y.value) (x * y) := by
  obtain _ | _ | ⟨s₁, m₁, e₁, h₁⟩ := x <;> try cases hx
  obtain _ | _ | ⟨s₂, m₂, e₂, h₂⟩ := y <;> try cases hy
  have h := rounds_ofDyadic (s₁ != s₂) (m₁ * m₂) (e₁ + e₂)
  rw [signed_mul, two_zpow_add] at h
  push_cast at h
  rwa [mul_mul_mul_comm] at h

/-- The exact quotient of two significands, each with its exponent. -/
theorem shifted_quotient (s : Bool) (m₁ m₂ : ℕ) (e₁ e₂ : ℤ) :
    (signed s (m₁ <<< (e₁ - e₂).toNat) : ℚ) / (m₂ <<< (e₂ - e₁).toNat : ℕ) =
      signed s m₁ * 2 ^ e₁ / (m₂ * 2 ^ e₂) := by
  rw [signed_shiftLeft, ← neg_sub e₂ e₁, shifted_div, zpow_sub₀ two_ne_zero, div_div_div_eq]

theorem rounds_div (hx : x.isFinite = true) (hy : y.isFinite = true) (h0 : y.value ≠ 0) :
    Rounds (x.value / y.value) (x / y) := by
  obtain _ | _ | ⟨s₁, m₁, e₁, h₁⟩ := x <;> try cases hx
  obtain _ | _ | ⟨s₂, m₂, e₂, h₂⟩ := y <;> try cases hy
  have hm₂ : m₂ ≠ 0 := by
    rintro rfl
    exact h0 (by cases s₂ <;> simp [value, signed])
  have hden : 0 < m₂ <<< (e₂ - e₁).toNat := by
    rw [Nat.shiftLeft_eq]
    positivity
  have h := rounds_ofFraction (s₁ != s₂) (m₁ <<< (e₁ - e₂).toNat) hden
  have hquotient : (signed (s₁ != s₂) m₁ * 2 ^ e₁ / (m₂ * 2 ^ e₂) : ℚ) =
      signed s₁ m₁ * 2 ^ e₁ / (signed s₂ m₂ * 2 ^ e₂) := by
    cases s₁ <;> cases s₂ <;> simp [signed, neg_div, div_neg]
  rw [shifted_quotient, hquotient] at h
  have hdef : finite s₁ m₁ e₁ h₁ / finite s₂ m₂ e₂ h₂ =
      ofFraction (s₁ != s₂) (m₁ <<< (e₁ - e₂).toNat) (m₂ <<< (e₂ - e₁).toNat) := by
    show div _ _ = _
    simp only [div, if_neg hm₂]
  rw [hdef]
  exact h

theorem rounds_fusedMulAdd (hx : x.isFinite = true) (hy : y.isFinite = true)
    (hz : z.isFinite = true) :
    Rounds (x.value * y.value + z.value) (fusedMulAdd x y z) := by
  obtain _ | _ | ⟨s₁, m₁, e₁, h₁⟩ := x <;> try cases hx
  obtain _ | _ | ⟨s₂, m₂, e₂, h₂⟩ := y <;> try cases hy
  obtain _ | _ | ⟨s₃, m₃, e₃, h₃⟩ := z <;> try cases hz
  have h := rounds_dyadicSum (alignedSum (s₁ != s₂) (m₁ * m₂) (e₁ + e₂) s₃ m₃ e₃)
    (min (e₁ + e₂) e₃) ((s₁ != s₂) && s₃)
  rw [alignedSum_value, signed_mul, two_zpow_add] at h
  push_cast at h
  rwa [mul_mul_mul_comm] at h

end Soundworks.Binary64
