import Mathlib.Data.Rat.Floor
import Soundworks.Binary64.Exp2
import Soundworks.Proofs.Binary64.Range
/-!
Powers of two are defined. Every step of their computation stays in range, so none of them is an
indeterminate form, and the result lies between the two whole powers around it.
-/

namespace Soundworks.Binary64

theorem Within.nearestProduct {i j : ℕ} {x y : Binary64} (hx : Within i x) (hy : Within j y) :
    |nearestProduct x y| ≤ 2 ^ (i + j) := by
  obtain ⟨hfx, hbx⟩ := hx
  obtain ⟨hfy, hby⟩ := hy
  obtain _ | _ | ⟨s₁, m₁, e₁, h₁⟩ := x <;> try cases hfx
  obtain _ | _ | ⟨s₂, m₂, e₂, h₂⟩ := y <;> try cases hfy
  have hproduct : ((m₁ * m₂ : ℕ) : ℚ) * 2 ^ (e₁ + e₂) ≤ 2 ^ (i + j) := by
    rw [abs_value] at hbx hby
    rw [two_zpow_add, pow_add]
    push_cast
    rw [mul_mul_mul_comm]
    exact mul_le_mul hbx hby (by positivity) (by positivity)
  have hround : roundDiv ((m₁ * m₂) <<< (e₁ + e₂).toNat) (1 <<< (-(e₁ + e₂)).toNat) ≤
      2 ^ (i + j) := by
    refine roundDiv_le (by rw [Nat.shiftLeft_eq]; positivity) ?_
    rw [← Nat.cast_le (α := ℚ), Nat.cast_mul, cast_shiftLeft, cast_shiftLeft]
    rcases le_total 0 (e₁ + e₂) with he | he
    · rw [Int.toNat_of_nonneg he, Int.toNat_of_nonpos (by omega)]
      simpa using hproduct
    · rw [Int.toNat_of_nonpos he, Int.toNat_of_nonneg (by omega)]
      have hmul := mul_le_mul_of_nonneg_right hproduct (two_zpow_pos (-(e₁ + e₂))).le
      rw [mul_assoc, ← two_zpow_add] at hmul
      simpa using hmul
  show |signed (s₁ != s₂) _| ≤ _
  rw [abs_signed]
  exact_mod_cast hround

/-! ### The whole part -/

theorem floor?_eq {x : Binary64} (h : x.isFinite = true) : x.floor? = some ⌊x.value⌋ := by
  cases x with
  | finite s m e hc =>
      simp only [floor?]
      split
      · rename_i he
        have hvalue : (finite s m e hc).value = (signed s (m <<< e.toNat) : ℤ) := by
          rw [signed_shiftLeft, Int.toNat_of_nonneg he]
          rfl
        rw [hvalue, Int.floor_intCast]
      · rename_i he
        have hvalue : (finite s m e hc).value =
            (signed s m : ℚ) / ((1 <<< (-e).toNat : ℕ) : ℤ) := by
          rw [Int.cast_natCast, cast_shiftLeft, Int.toNat_of_nonneg (by omega), zpow_neg]
          simp [value]
        rw [hvalue, Int.fdiv_eq_ediv_of_nonneg _ (Int.natCast_nonneg _)]
        congr 1
        exact (Rat.floor_intCast_div_natCast _ _).symm
  | _ => cases h

/-! ### Bounds -/

theorem isNaN_of_isFinite {x : Binary64} (h : x.isFinite = true) : x.isNaN = false := by
  cases x <;> first | rfl | cases h

/-- Numbers that are no `nan` are comparable. -/
theorem le_of_not_lt {x y : Binary64} (hx : x.isNaN = false) (hy : y.isNaN = false)
    (h : ¬ x < y) : y ≤ x := by
  cases x with
  | nan => cases hx
  | infinite s =>
      cases y with
      | nan => cases hy
      | infinite s' => cases s <;> cases s' <;> first | decide | exact absurd (by decide) h
      | finite =>
          cases s with
          | false => exact le_infinite_false rfl
          | true => exact absurd (by simp [lt_def, compare?]) h
  | finite =>
      cases y with
      | nan => cases hy
      | infinite s =>
          cases s with
          | false => exact absurd (by simp [lt_def, compare?]) h
          | true => exact infinite_true_le rfl
      | finite =>
          rw [lt_iff rfl rfl, not_lt] at h
          exact (le_iff rfl rfl).mpr h

/-- A number that is no `nan` is brought between two finite bounds. -/
theorem clamp_between {least most x : Binary64} (hl : least.isFinite = true)
    (hm : most.isFinite = true) (hle : least.value ≤ most.value) (hx : x.isNaN = false) :
    (clamp least most x).isFinite = true ∧ least.value ≤ (clamp least most x).value ∧
      (clamp least most x).value ≤ most.value := by
  unfold clamp
  split
  · exact ⟨hl, le_refl _, hle⟩
  · rename_i hlow
    have hlow := le_of_not_lt hx (isNaN_of_isFinite hl) hlow
    split
    · exact ⟨hm, hle, le_refl _⟩
    · rename_i hhigh
      have hhigh := le_of_not_lt (isNaN_of_isFinite hm) hx hhigh
      have hfinite := isFinite_of_le_of_le hl hm hlow hhigh
      exact ⟨hfinite, (le_iff hl hfinite).mp hlow, (le_iff hfinite hm).mp hhigh⟩

/-! ### The steps of a power -/

theorem isNaN_onGrid (s : Bool) (m : ℕ) (e : ℤ) : (onGrid s m e).isNaN = false := by
  unfold onGrid
  split <;> rfl

theorem isNaN_ofFraction (s : Bool) (num den : ℕ) : (ofFraction s num den).isNaN = false := by
  unfold ofFraction
  split
  · cases s <;> rfl
  · dsimp only
    split <;> exact isNaN_onGrid _ _ _

/-- What the nearest number of a step lacks is small. -/
theorem tail_bounds : ∀ i < 128, (Step.ofIndex i).tail.isFinite = true ∧
    -1 ≤ (Step.ofIndex i).tail ∧ (Step.ofIndex i).tail ≤ 1 := by
  decide +kernel

theorem within_logTwo : Within 0 logTwo := .ofDyadic (by norm_num) (Nat.zero_le _)

theorem within_logTwoRest : Within 0 logTwoRest := .ofDyadic (by norm_num) (Nat.zero_le _)

theorem within_stepsPerUnit : Within 8 stepsPerUnit := .ofDyadic (by norm_num) (by decide)

theorem within_stepLog : Within 0 stepLog := .ofDyadic (by norm_num) (Nat.zero_le _)

theorem within_stepLogRest : Within 0 stepLogRest := .ofDyadic (by norm_num) (Nat.zero_le _)

theorem within_coefficients :
    Within 0 square ∧ Within 0 cube ∧ Within 0 fourth ∧ Within 0 fifth := by
  refine ⟨?_, ?_, ?_, ?_⟩ <;> exact .ofDyadic (by norm_num) (Nat.zero_le _)

theorem within_smallPower {k : ℕ} {tail r : Binary64} (htail : Within 0 tail) (hr : Within k r)
    (hk : k ≤ 200) : Within (5 * k + 3) (smallPower tail r) := by
  obtain ⟨hsquare, hcube, hfourth, hfifth⟩ := within_coefficients
  have hr2 := hr.mul hr (by omega)
  have hr4 := hr2.mul hr2 (by omega)
  have hinner := hr.fusedMulAdd hcube hsquare (by omega)
  have houter := hr.fusedMulAdd hfifth hfourth (by omega)
  have hlow := hr2.fusedMulAdd hinner (htail.add hr (by omega)) (by omega)
  exact (hr4.fusedMulAdd houter hlow (by omega)).mono (by omega)

theorem isNaN_scaled (head : ℕ) {x : Binary64} (h : x.isNaN = false) (exponent : ℤ) :
    (scaled head x exponent).isNaN = false := by
  cases x with
  | nan => cases h
  | infinite s => rfl
  | finite => exact isNaN_ofFraction _ _ _

theorem within_tail {i : ℕ} (h : i < 128) : Within 0 (Step.ofIndex i).tail := by
  obtain ⟨hfinite, hleast, hmost⟩ := tail_bounds i h
  rw [le_iff (by rw [isFinite_neg]; rfl) hfinite, value_neg, value_one] at hleast
  rw [le_iff hfinite rfl, value_one] at hmost
  exact ⟨hfinite, by rw [pow_zero]; exact abs_le.mpr ⟨hleast, hmost⟩⟩

/-- A power of a small exponent is no indeterminate form. -/
theorem isNaN_expOf {x rest : Binary64} (hx : Within 1 x) (hrest : Within 3 rest) :
    (expOf x rest).isNaN = false := by
  unfold expOf
  split
  · have hone : Within 0 (1 : Binary64) := ⟨rfl, by simp [value_one]⟩
    exact isNaN_of_isFinite (hone.add hx (by decide)).finite
  · have hk : Within 9 (ofInt (nearestProduct stepsPerUnit x)) :=
      .ofInt (within_stepsPerUnit.nearestProduct hx) (by decide)
    have hfirst := hk.fusedMulAdd within_stepLog hx (by decide)
    have hr : Within 12 _ :=
      (hk.fusedMulAdd within_stepLogRest hfirst (by decide)).add hrest (by decide)
    have hindex : (nearestProduct stepsPerUnit x % (1 <<< stepBits : ℕ)).toNat < 128 := by
      have hbits : ((1 <<< stepBits : ℕ) : ℤ) = 128 := rfl
      rw [hbits]
      omega
    have hpower := within_smallPower (within_tail hindex) hr (by decide)
    exact isNaN_scaled _ (isNaN_of_isFinite hpower.finite) _

/-- The exponents of the two bounds of a power. -/
theorem within_power {x : Binary64} (h : Within 1 x) : -2 ≤ ⌊x.value⌋ ∧ ⌊x.value⌋ ≤ 2 := by
  obtain ⟨hlow, hhigh⟩ := abs_le.mp h.bound
  constructor
  · rw [Int.le_floor]
    push_cast
    linarith
  · have hle : (⌊x.value⌋ : ℚ) ≤ 2 := (Int.floor_le _).trans (by linarith)
    exact_mod_cast hle

theorem value_wholePower {w : ℤ} (hlow : -1022 ≤ w) (hhigh : w ≤ 1023) :
    (ofDyadic false 1 w).isFinite = true ∧ (ofDyadic false 1 w).value = 2 ^ w := by
  obtain ⟨y, hy, hvalue⟩ := exists_power hlow hhigh
  have hrounds : Rounds (2 ^ w) (ofDyadic false 1 w) := by
    simpa [signed] using rounds_ofDyadic false 1 w
  rw [← hvalue] at hrounds ⊢
  have hfinite := hrounds.isFinite hy hy le_rfl le_rfl
  exact ⟨hfinite, le_antisymm (hrounds.value_le hfinite hy le_rfl)
    (hrounds.le_value hfinite hy le_rfl)⟩

/-- A power in range is computed as a power of `e` and kept between the whole powers around it. -/
theorem exp2_eq_clamp {x : Binary64} (h : Within 1 x) :
    exp2 x = clamp (ofDyadic false 1 ⌊x.value⌋) (ofDyadic false 1 (⌊x.value⌋ + 1))
      (expOf (x * logTwo) (fusedMulAdd x logTwoRest (fusedMulAdd x logTwo (-(x * logTwo))))) := by
  obtain ⟨hleast, hmost⟩ := within_power h
  obtain _ | _ | ⟨s, m, e, hc⟩ := x <;> try cases h.finite
  simp only [exp2, floor?_eq h.finite]
  rw [if_neg (by omega), if_neg (by omega)]

/-- A power in range lies between the whole powers around it. -/
theorem exp2_between_powers {x : Binary64} (h : Within 1 x) :
    (exp2 x).isFinite = true ∧ 2 ^ ⌊x.value⌋ ≤ (exp2 x).value ∧
      (exp2 x).value ≤ 2 ^ (⌊x.value⌋ + 1) := by
  obtain ⟨hleast, hmost⟩ := within_power h
  have hhigh : Within 1 (x * logTwo) := h.mul within_logTwo (by decide)
  have hinner := h.fusedMulAdd within_logTwo hhigh.neg (by decide)
  have hrest : Within 3 _ := h.fusedMulAdd within_logTwoRest hinner (by decide)
  have hnan := isNaN_expOf hhigh hrest
  obtain ⟨hlowFinite, hlowValue⟩ := value_wholePower (by omega : -1022 ≤ ⌊x.value⌋) (by omega)
  obtain ⟨hhighFinite, hhighValue⟩ := value_wholePower (by omega : -1022 ≤ ⌊x.value⌋ + 1) (by omega)
  have hclamp := clamp_between hlowFinite hhighFinite
    (by rw [hlowValue, hhighValue]; exact two_zpow_le (by omega)) hnan
  rw [hlowValue, hhighValue] at hclamp
  rw [exp2_eq_clamp h]
  exact hclamp

/-- A power of two with an exponent between minus two and two is a finite number of at least a
quarter and at most eight. -/
theorem exp2_between {x : Binary64} (h : Within 1 x) :
    (exp2 x).isFinite = true ∧ 1 / 4 ≤ (exp2 x).value ∧ (exp2 x).value ≤ 8 := by
  obtain ⟨hleast, hmost⟩ := within_power h
  obtain ⟨hfinite, hlow, hhigh⟩ := exp2_between_powers h
  refine ⟨hfinite, le_trans ?_ hlow, hhigh.trans ?_⟩
  · calc (1 / 4 : ℚ) = 2 ^ (-2 : ℤ) := by norm_num
      _ ≤ 2 ^ ⌊x.value⌋ := two_zpow_le hleast
  · calc (2 : ℚ) ^ (⌊x.value⌋ + 1) ≤ 2 ^ (3 : ℤ) := two_zpow_le (by omega)
      _ = 8 := by norm_num

end Soundworks.Binary64
