import Soundworks.Proofs.Binary64.Exp2
/-!
Powers of two around an octave. The power of an exponent above one exceeds two, although every
step of its computation is rounded: what the steps lose together is less than half of what the
exponent is above one. The power of an exponent up to one does not exceed two.
-/

namespace Soundworks.Binary64

/-- A number above one whose significand is at least `2 ^ 52` is at least the neighbour of that
one. -/
theorem le_value_of_lt {x : Binary64} {m : ℕ} {e : ℤ} (hm : 2 ^ 52 ≤ m)
    (h : (m : ℚ) * 2 ^ e < x.value) : ((m + 1 : ℕ) : ℚ) * 2 ^ e ≤ x.value := by
  by_contra hlt
  have hle := value_le_of_lt (Nat.lt_succ_of_le hm) (not_le.mp hlt)
  exact absurd h (not_lt.mpr hle)

/-! ### The constants -/

theorem value_logTwo : logTwo.value = 0x162e42fefa39ef * 2 ^ (-53 : ℤ) := by
  have h : logTwo = .finite false 0x162e42fefa39ef (-53) (by decide) := rfl
  rw [h]
  simp [value, signed]

theorem value_logTwoRest : logTwoRest.value = 0x1abc9e3b398000 * 2 ^ (-108 : ℤ) := by
  have h : logTwoRest = .finite false 0x1abc9e3b398000 (-108) (by decide) := rfl
  rw [h]
  simp [value, signed]

theorem value_stepsPerUnit : stepsPerUnit.value = 0x171547652b82fe * 2 ^ (-45 : ℤ) := by
  have h : stepsPerUnit = .finite false 0x171547652b82fe (-45) (by decide) := rfl
  rw [h]
  simp [value, signed]

theorem value_stepLog : stepLog.value = -(0x162e42fefa0000 * 2 ^ (-60 : ℤ)) := by
  have h : stepLog = .finite true 0x162e42fefa0000 (-60) (by decide) := rfl
  rw [h]
  simp [value, signed]

theorem value_stepLogRest : stepLogRest.value = -(0x1cf79abc9e3b39 * 2 ^ (-99 : ℤ)) := by
  have h : stepLogRest = .finite true 0x1cf79abc9e3b39 (-99) (by decide) := rfl
  rw [h]
  simp [value, signed]

/-! ### The steps -/

theorem shiftLeft_div_shiftLeft (m : ℕ) (e : ℤ) :
    ((m <<< e.toNat : ℕ) : ℚ) / (1 <<< (-e).toNat : ℕ) = m * 2 ^ e := by
  rw [cast_shiftLeft, cast_shiftLeft, Nat.cast_one, one_mul]
  rcases le_total 0 e with he | he
  · rw [Int.toNat_of_nonneg he, Int.toNat_of_nonpos (by omega), Nat.cast_zero, zpow_zero, div_one]
  · rw [Int.toNat_of_nonpos he, Int.toNat_of_nonneg (by omega), zpow_neg]
    simp

/-- The nearest integer is at most a half away. -/
theorem nearestProduct_near {x y : Binary64} (hx : x.isFinite = true) (hy : y.isFinite = true) :
    |(nearestProduct x y : ℚ) - x.value * y.value| ≤ 1 / 2 := by
  obtain _ | _ | ⟨s₁, m₁, e₁, h₁⟩ := x <;> try cases hx
  obtain _ | _ | ⟨s₂, m₂, e₂, h₂⟩ := y <;> try cases hy
  have hden : 0 < 1 <<< (-(e₁ + e₂)).toNat := by
    rw [Nat.shiftLeft_eq]
    positivity
  have hnear := roundDiv_near ((m₁ * m₂) <<< (e₁ + e₂).toNat) hden
  rw [shiftLeft_div_shiftLeft] at hnear
  have hproduct : (finite s₁ m₁ e₁ h₁).value * (finite s₂ m₂ e₂ h₂).value =
      signed (s₁ != s₂) (m₁ * m₂) * 2 ^ (e₁ + e₂) := by
    rw [signed_mul, two_zpow_add]
    push_cast
    exact mul_mul_mul_comm _ _ _ _
  rw [hproduct]
  show |(signed (s₁ != s₂) _ : ℚ) - _| ≤ _
  cases s₁ != s₂ with
  | false => exact hnear
  | true =>
      rw [abs_sub_comm] at hnear
      convert hnear using 2
      simp only [signed, if_true]
      push_cast
      ring

theorem rounds_scaled (head : ℕ) {x : Binary64} (hx : x.isFinite = true) (exponent : ℤ) :
    Rounds (head * 2 ^ (-52 : ℤ) * (1 + x.value) * 2 ^ exponent) (scaled head x exponent) := by
  obtain _ | _ | ⟨s, m, e, h⟩ := x <;> try cases hx
  have hrounds := rounds_ofDyadic (decide (alignedSum false head (-52) s (head * m) (e - 52) < 0))
    (alignedSum false head (-52) s (head * m) (e - 52)).natAbs (min (-52) (e - 52) + exponent)
  rw [signed_natAbs, two_zpow_add, ← mul_assoc, alignedSum_value] at hrounds
  have hsum : (signed false head : ℚ) * 2 ^ (-52 : ℤ) + signed s (head * m) * 2 ^ (e - 52) =
      head * 2 ^ (-52 : ℤ) * (1 + (finite s m e h).value) := by
    have hsplit : (2 : ℚ) ^ (e - 52) = 2 ^ (-52 : ℤ) * 2 ^ e := by
      rw [← two_zpow_add]
      congr 1
      ring
    rw [hsplit]
    cases s <;> simp only [signed, value, if_true, Bool.false_eq_true, if_false] <;>
      push_cast <;> ring
  rwa [hsum] at hrounds

theorem value_coefficients :
    square.value = 0x1ffffffffffdbd * 2 ^ (-54 : ℤ) ∧
      cube.value = 0x1555555555543c * 2 ^ (-55 : ℤ) ∧
      fourth.value = 0x155555cf172b91 * 2 ^ (-57 : ℤ) ∧
      fifth.value = 0x11111167a4d017 * 2 ^ (-59 : ℤ) := by
  have hsquare : square = .finite false 0x1ffffffffffdbd (-54) (by decide) := rfl
  have hcube : cube = .finite false 0x1555555555543c (-55) (by decide) := rfl
  have hfourth : fourth = .finite false 0x155555cf172b91 (-57) (by decide) := rfl
  have hfifth : fifth = .finite false 0x11111167a4d017 (-59) (by decide) := rfl
  rw [hsquare, hcube, hfourth, hfifth]
  simp [value, signed]

/-- The higher terms of the polynomial are not negative, so they take nothing away from the
first one. -/
theorem le_smallPower {tail r y : Binary64} (htail : Within 0 tail) (hr : Within 0 r)
    (hy : y.isFinite = true) (hle : y.value ≤ tail.value + r.value) :
    y.value ≤ (smallPower tail r).value := by
  obtain ⟨hsquare, hcube, hfourth, hfifth⟩ := within_coefficients
  obtain ⟨hsquareValue, hcubeValue, hfourthValue, hfifthValue⟩ := value_coefficients
  obtain ⟨hleast, hmost⟩ := abs_le.mp hr.bound
  norm_num at hleast hmost
  have hr2 := hr.mul hr (by decide)
  have hr4 := hr2.mul hr2 (by decide)
  have hr2nonneg := (rounds_mul hr.finite hr.finite).nonneg hr2.finite (mul_self_nonneg _)
  have hr4nonneg := (rounds_mul hr2.finite hr2.finite).nonneg hr4.finite (mul_self_nonneg _)
  have hinner := hr.fusedMulAdd hcube hsquare (by decide)
  have hinnerNonneg := (rounds_fusedMulAdd hr.finite hcube.finite hsquare.finite).nonneg
    hinner.finite (by rw [hcubeValue, hsquareValue]; norm_num; linarith)
  have houter := hr.fusedMulAdd hfifth hfourth (by decide)
  have houterNonneg := (rounds_fusedMulAdd hr.finite hfifth.finite hfourth.finite).nonneg
    houter.finite (by rw [hfifthValue, hfourthValue]; norm_num; linarith)
  have hfirst := htail.add hr (by decide)
  have hfirstLe := (rounds_add htail.finite hr.finite).le_value hfirst.finite hy hle
  have hlow := hr2.fusedMulAdd hinner hfirst (by decide)
  have hlowLe := (rounds_fusedMulAdd hr2.finite hinner.finite hfirst.finite).le_value hlow.finite
    hy (le_add_of_nonneg_of_le (mul_nonneg hr2nonneg hinnerNonneg) hfirstLe)
  exact (rounds_fusedMulAdd hr4.finite houter.finite hlow.finite).le_value
    (hr4.fusedMulAdd houter hlow (by decide)).finite hy
    (le_add_of_nonneg_of_le (mul_nonneg hr4nonneg houterNonneg) hlowLe)

/-! ### The exponent of `e` -/

/-- The first part of an exponent of `e`. -/
def high (x : Binary64) : Binary64 := x * logTwo

/-- What the first part of an exponent of `e` lacks. -/
def rest (x : Binary64) : Binary64 :=
  fusedMulAdd x logTwoRest (fusedMulAdd x logTwo (-high x))

section

variable {x : Binary64} (h : Within 1 x) (hlow : 1 ≤ x.value) (hmost : x.value ≤ 9 / 8)
include h hlow hmost

/-- The first part of the exponent of `e` for a power of two around an octave. -/
theorem high_near : (high x).isFinite = true ∧ logTwo.value ≤ (high x).value ∧
    |(high x).value - x.value * logTwo.value| ≤ 1 / 2 ^ 54 := by
  have hhigh : Within 1 (high x) := h.mul within_logTwo (by decide)
  have hrounds : Rounds (x.value * logTwo.value) (high x) :=
    rounds_mul h.finite within_logTwo.finite
  have hL : 0 < logTwo.value ∧ logTwo.value < 7 / 10 := by
    rw [value_logTwo]
    norm_num
  have hnear := hrounds.near hhigh.finite 0 (by norm_num) (by
    rw [abs_of_nonneg (by nlinarith), zpow_zero]
    nlinarith)
  refine ⟨hhigh.finite, hrounds.le_value hhigh.finite within_logTwo.finite (by nlinarith), ?_⟩
  norm_num at hnear ⊢
  exact hnear

/-- Both parts of the exponent together are a multiple of both parts of the logarithm. -/
theorem rest_near : (rest x).isFinite = true ∧ |(rest x).value| ≤ 1 / 2 ^ 52 ∧
    |(high x).value + (rest x).value - x.value * (logTwo.value + logTwoRest.value)| ≤
      1 / 2 ^ 106 := by
  have hhigh : Within 1 (high x) := h.mul within_logTwo (by decide)
  have hinner := h.fusedMulAdd within_logTwo hhigh.neg (by decide)
  have hrest : Within 3 (rest x) := h.fusedMulAdd within_logTwoRest hinner (by decide)
  obtain ⟨-, -, hnear⟩ := high_near h hlow hmost
  obtain ⟨hnearLow, hnearHigh⟩ := abs_le.mp hnear
  have hL' : 0 < logTwoRest.value ∧ logTwoRest.value < 1 / 2 ^ 55 := by
    rw [value_logTwoRest]
    norm_num
  have hproduct : 0 < x.value * logTwoRest.value ∧
      x.value * logTwoRest.value < 9 / 8 * (1 / 2 ^ 55) :=
    ⟨by nlinarith, by nlinarith⟩
  -- what the product has lost is almost recovered
  have hlost := (rounds_fusedMulAdd h.finite within_logTwo.finite hhigh.neg.finite).near
    hinner.finite (-53) (by norm_num) (by
      rw [value_neg, abs_lt]
      norm_num at hnearLow hnearHigh ⊢
      constructor <;> linarith)
  rw [value_neg] at hlost
  obtain ⟨hlostLow, hlostHigh⟩ := abs_le.mp hlost
  have hsum := (rounds_fusedMulAdd h.finite within_logTwoRest.finite hinner.finite).near
    hrest.finite (-53) (by norm_num) (by
      rw [abs_lt]
      norm_num at hnearLow hnearHigh hlostLow hlostHigh hproduct ⊢
      constructor <;> linarith)
  obtain ⟨hsumLow, hsumHigh⟩ := abs_le.mp hsum
  change _ ≤ (rest x).value - _ at hsumLow
  change (rest x).value - _ ≤ _ at hsumHigh
  refine ⟨hrest.finite, abs_le.mpr ?_, abs_le.mpr ?_⟩ <;>
    norm_num at hnearLow hnearHigh hlostLow hlostHigh hproduct hsumLow hsumHigh ⊢ <;>
    constructor <;> linarith

end

/-- What is left of an exponent in two parts once `k` steps are taken out. -/
def reduced (k : ℤ) (x rest : Binary64) : Binary64 :=
  fusedMulAdd (ofInt k) stepLogRest (fusedMulAdd (ofInt k) stepLog x) + rest

/-- The steps that are nearest to the first part of an exponent leave little of both parts, and
little is lost. -/
theorem reduced_near {x : Binary64} (h : Within 1 x) (hlow : 1 ≤ x.value)
    (hmost : x.value ≤ 9 / 8) {k : ℕ} (hk : k < 256)
    (hnearest : |(k : ℚ) - stepsPerUnit.value * (high x).value| ≤ 1 / 2) :
    Within 0 (reduced k (high x) (rest x)) ∧
      |(reduced k (high x) (rest x)).value - (k * (stepLog.value + stepLogRest.value) +
        x.value * (logTwo.value + logTwoRest.value))| ≤ 1 / 2 ^ 60 := by
  obtain ⟨hhighFinite, hhighLow, hhighNear⟩ := high_near h hlow hmost
  obtain ⟨hrestFinite, hrestBound, hrestNear⟩ := rest_near h hlow hmost
  have hsteps : (ofInt k).value = k := value_ofNat (n := k) (by omega)
  have hstepsFinite : (ofInt k).isFinite = true := isFinite_ofNat (n := k) (by omega)
  have hfew : (0 : ℚ) ≤ k ∧ (k : ℚ) < 256 := ⟨by positivity, by exact_mod_cast hk⟩
  have hk8 : Within 8 (ofInt k) := .ofInt (by
    rw [abs_of_nonneg (by positivity)]
    exact_mod_cast hk.le) (by decide)
  have hhigh1 : Within 1 (high x) := h.mul within_logTwo (by decide)
  have hfirst := hk8.fusedMulAdd within_stepLog hhigh1 (by decide)
  have hsecond := hk8.fusedMulAdd within_stepLogRest hfirst (by decide)
  obtain ⟨hnearestLow, hnearestHigh⟩ := abs_le.mp hnearest
  obtain ⟨hhighNearLow, hhighNearHigh⟩ := abs_le.mp hhighNear
  obtain ⟨hboundLow, hboundHigh⟩ := abs_le.mp hrestBound
  obtain ⟨hrestNearLow, hrestNearHigh⟩ := abs_le.mp hrestNear
  rw [value_stepsPerUnit] at hnearestLow hnearestHigh
  rw [value_logTwo] at hhighLow hhighNearLow hhighNearHigh hrestNearLow hrestNearHigh
  rw [value_logTwoRest] at hrestNearLow hrestNearHigh
  norm_num at hnearestLow hnearestHigh hhighLow hhighNearLow hhighNearHigh
  norm_num at hboundLow hboundHigh hrestNearLow hrestNearHigh
  -- each of three sums is below `2 ^ -8`
  have hnear₁ := (rounds_fusedMulAdd hstepsFinite within_stepLog.finite hhighFinite).near
    hfirst.finite (-8) (by norm_num) (by
      rw [hsteps, value_stepLog, abs_lt]
      norm_num
      constructor <;> linarith)
  obtain ⟨hnear₁Low, hnear₁High⟩ := abs_le.mp hnear₁
  rw [hsteps, value_stepLog] at hnear₁Low hnear₁High
  norm_num at hnear₁Low hnear₁High
  have hnear₂ := (rounds_fusedMulAdd hstepsFinite within_stepLogRest.finite hfirst.finite).near
    hsecond.finite (-8) (by norm_num) (by
      rw [hsteps, value_stepLogRest, abs_lt]
      norm_num
      constructor <;> linarith)
  obtain ⟨hnear₂Low, hnear₂High⟩ := abs_le.mp hnear₂
  rw [hsteps, value_stepLogRest] at hnear₂Low hnear₂High
  norm_num at hnear₂Low hnear₂High
  have hsmall : |(fusedMulAdd (ofInt k) stepLogRest (fusedMulAdd (ofInt k) stepLog
      (high x))).value + (rest x).value| < 2 ^ (-8 : ℤ) := by
    rw [abs_lt]
    norm_num
    constructor <;> linarith
  have hrounds := rounds_add hsecond.finite hrestFinite
  have hfinite := hrounds.within (k := 0) (by norm_num) (hsmall.le.trans (by norm_num))
  refine ⟨hfinite, ?_⟩
  have hnear₃ := hrounds.near hfinite.finite (-8) (by norm_num) hsmall
  obtain ⟨hnear₃Low, hnear₃High⟩ := abs_le.mp hnear₃
  norm_num at hnear₃Low hnear₃High
  rw [value_stepLog, value_stepLogRest, value_logTwo, value_logTwoRest, reduced, abs_le]
  norm_num
  constructor <;> linarith

/-! ### Powers above an octave -/

theorem step_zero : (Step.ofIndex 0).head = 2 ^ 52 ∧ (Step.ofIndex 0).tail = zero false := by
  decide +kernel

/-- The heads of the next steps are above one, and what they lack is very little. -/
theorem step_bounds : ∀ i < 18, 0 < i →
    1005 * 2 ^ 52 ≤ 1000 * (Step.ofIndex i).head ∧ (Step.ofIndex i).head ≤ 2 ^ 53 ∧
      -ofDyadic false 1 (-40) ≤ (Step.ofIndex i).tail := by
  decide +kernel

theorem Rounds.two_lt {q : ℚ} {x : Binary64} (h : Rounds q x) (hx : x.isFinite = true)
    (hq : 2 + 5 / 4 * (1 / 2 ^ 52) ≤ q) : 2 < x.value := by
  rcases lt_or_ge q 4 with hlt | hge
  · have hnear := h.near hx 2 (by norm_num) (by
      rw [abs_of_nonneg (by linarith)]
      norm_num
      exact hlt)
    have hlow := (abs_le.mp hnear).1
    norm_num at hlow hq
    linarith
  · have hfour : (4 : Binary64).value = 4 := value_ofNat (by norm_num)
    have hle := h.le_value hx (isFinite_ofNat (n := 4) (by norm_num)) (hfour.trans_le hge)
    rw [hfour] at hle
    linarith

section

variable {x : Binary64} (h : Within 1 x) (hlow : 1 < x.value) (hmost : x.value ≤ 9 / 8)
include h hlow hmost

/-- If no step is taken out beyond the octave, what is left is most of what the exponent is above
one. -/
theorem first_power_bound
    (hnearest : |((128 : ℕ) : ℚ) - stepsPerUnit.value * (high x).value| ≤ 1 / 2) :
    5 / 8 * (1 / 2 ^ 52) ≤
      (smallPower (Step.ofIndex 0).tail (reduced (128 : ℕ) (high x) (rest x))).value := by
  obtain ⟨hreduced, hnear⟩ := reduced_near h hlow.le hmost (by norm_num) hnearest
  have habove := le_value_of_lt (m := 2 ^ 52) (e := -52) le_rfl (by norm_num; exact hlow)
  have hle := le_smallPower (within_tail (show 0 < 128 by norm_num)) hreduced hreduced.finite (by
    rw [step_zero.2, value_zero, zero_add])
  refine le_trans ?_ hle
  have hleft := (abs_le.mp hnear).1
  rw [value_stepLog, value_stepLogRest, value_logTwo, value_logTwoRest] at hleft
  norm_num at hleft habove ⊢
  linarith

/-- If further steps are taken out, what is left takes away less than the steps give. -/
theorem later_power_bound {i : ℕ} (hi : i < 18) (hpos : 0 < i)
    (hnearest : |((128 + i : ℕ) : ℚ) - stepsPerUnit.value * (high x).value| ≤ 1 / 2) :
    -(1 / 256) ≤
      (smallPower (Step.ofIndex i).tail (reduced (128 + i : ℕ) (high x) (rest x))).value := by
  obtain ⟨hreduced, hnear⟩ := reduced_near h hlow.le hmost (by omega) hnearest
  obtain ⟨-, -, htail⟩ := step_bounds i hi hpos
  have hwithin := within_tail (show i < 128 by omega)
  obtain ⟨hpowFinite, hpowValue⟩ := value_wholePower (w := -40) (by norm_num) (by norm_num)
  obtain ⟨hleastFinite, hleastValue⟩ := value_wholePower (w := -8) (by norm_num) (by norm_num)
  rw [le_iff (by rw [isFinite_neg, hpowFinite]) hwithin.finite, value_neg, hpowValue] at htail
  have hvalue : (-ofDyadic false 1 (-8)).value = -(1 / 256) := by
    rw [value_neg, hleastValue]
    norm_num
  rw [← hvalue]
  refine le_smallPower hwithin hreduced (by rw [isFinite_neg, hleastFinite]) ?_
  rw [hvalue]
  obtain ⟨-, -, hhigh⟩ := high_near h hlow.le hmost
  have hleft := (abs_le.mp hnear).1
  have hsteps := (abs_le.mp hnearest).2
  have hfirst := (abs_le.mp hhigh).2
  rw [value_stepLog, value_stepLogRest, value_logTwo, value_logTwoRest] at hleft
  rw [value_stepsPerUnit] at hsteps
  rw [value_logTwo] at hfirst
  norm_num at hleft hsteps hfirst htail ⊢
  linarith

/-- A step that the exponent is rounded to, with what is left of it, is a power above two. -/
theorem two_lt_scaled {i : ℕ} (hi : i < 18)
    (hnearest : |((128 + i : ℕ) : ℚ) - stepsPerUnit.value * (high x).value| ≤ 1 / 2) :
    (scaled (Step.ofIndex i).head (smallPower (Step.ofIndex i).tail
        (reduced (128 + i : ℕ) (high x) (rest x))) 1).isFinite = true ∧
      2 < (scaled (Step.ofIndex i).head (smallPower (Step.ofIndex i).tail
        (reduced (128 + i : ℕ) (high x) (rest x))) 1).value := by
  have hpower : Within 3 _ := within_smallPower (within_tail (show i < 128 by omega))
    (reduced_near h hlow.le hmost (by omega) hnearest).1 (Nat.zero_le _)
  have hrounds := rounds_scaled (Step.ofIndex i).head hpower.finite 1
  obtain ⟨hpowerLow, hpowerHigh⟩ := abs_le.mp hpower.bound
  obtain ⟨hhead, habove⟩ : ((Step.ofIndex i).head : ℚ) ≤ 2 ^ 53 ∧
      2 + 5 / 4 * (1 / 2 ^ 52) ≤ ((Step.ofIndex i).head : ℚ) * 2 ^ (-52 : ℤ) *
        (1 + (smallPower (Step.ofIndex i).tail
          (reduced (128 + i : ℕ) (high x) (rest x))).value) * 2 ^ (1 : ℤ) := by
    rcases Nat.eq_zero_or_pos i with rfl | hpos
    · have hbound := first_power_bound h hlow hmost hnearest
      rw [step_zero.1]
      norm_num at hbound ⊢
      linarith
    · have hbound := later_power_bound h hlow hmost hi hpos hnearest
      obtain ⟨hleast, hmost', -⟩ := step_bounds i hi hpos
      have hleast' : (1005 * 2 ^ 52 : ℚ) ≤ 1000 * (Step.ofIndex i).head := by
        exact_mod_cast hleast
      have hmost'' : ((Step.ofIndex i).head : ℚ) ≤ 2 ^ 53 := by exact_mod_cast hmost'
      refine ⟨hmost'', ?_⟩
      norm_num at hleast' hbound ⊢
      nlinarith
  have hone : |1 + (smallPower (Step.ofIndex i).tail
      (reduced (128 + i : ℕ) (high x) (rest x))).value| ≤ 9 :=
    abs_le.mpr ⟨by linarith, by linarith⟩
  have hstep : |((Step.ofIndex i).head : ℚ) * 2 ^ (-52 : ℤ)| ≤ 2 := by
    rw [abs_of_nonneg (by positivity)]
    exact (mul_le_mul_of_nonneg_right hhead (by positivity)).trans (by norm_num)
  have hfinite := hrounds.within (k := 6) (by norm_num) (by
    rw [abs_mul, abs_mul]
    exact (mul_le_mul_of_nonneg_right (mul_le_mul hstep hone (abs_nonneg _) (by norm_num))
      (abs_nonneg _)).trans (by norm_num))
  exact ⟨hfinite.finite, hrounds.two_lt hfinite.finite habove⟩

/-- Between 128 and 145 steps are taken out. -/
theorem exists_steps : ∃ i < 18, nearestProduct stepsPerUnit (high x) = (128 + i : ℕ) ∧
    |((128 + i : ℕ) : ℚ) - stepsPerUnit.value * (high x).value| ≤ 1 / 2 := by
  obtain ⟨hfinite, hleast, hnear⟩ := high_near h hlow.le hmost
  have hnearest := nearestProduct_near within_stepsPerUnit.finite hfinite
  obtain ⟨hnearestLow, hnearestHigh⟩ := abs_le.mp hnearest
  have hfirst := (abs_le.mp hnear).2
  rw [value_stepsPerUnit] at hnearestLow hnearestHigh
  rw [value_logTwo] at hfirst hleast
  norm_num at hnearestLow hnearestHigh hfirst hleast
  have hlow' : (127 : ℚ) < nearestProduct stepsPerUnit (high x) := by linarith
  have hhigh' : (nearestProduct stepsPerUnit (high x) : ℚ) < 146 := by linarith
  have hlow'' : 127 < nearestProduct stepsPerUnit (high x) := by exact_mod_cast hlow'
  have hhigh'' : nearestProduct stepsPerUnit (high x) < 146 := by exact_mod_cast hhigh'
  obtain ⟨n, hn⟩ := Int.eq_ofNat_of_zero_le (by omega : 0 ≤ nearestProduct stepsPerUnit (high x))
  have hsum : n = 128 + (n - 128) := by omega
  rw [hn] at hnearest
  exact ⟨n - 128, by omega, by rw [hn, ← hsum], by rw [← hsum]; exact_mod_cast hnearest⟩

/-- The power of an exponent above one is above two before it is kept in its bounds. -/
theorem two_lt_expOf :
    (expOf (high x) (rest x)).isFinite = true ∧ 2 < (expOf (high x) (rest x)).value := by
  obtain ⟨i, hi, hk, hnearest⟩ := exists_steps h hlow hmost
  obtain ⟨hfinite, hleast, -⟩ := high_near h hlow.le hmost
  have hlarge : ¬(high x).abs < ofDyadic false 1 (-54) := by
    obtain ⟨hpow, hvalue⟩ := value_wholePower (w := -54) (by norm_num) (by norm_num)
    rw [lt_iff (by rw [isFinite_abs, hfinite]) hpow, value_abs, hvalue, not_lt]
    rw [value_logTwo] at hleast
    refine le_trans ?_ (le_abs_self _)
    refine le_trans ?_ hleast
    norm_num
  have hmod : (((128 + i : ℕ) : ℤ) % (1 <<< stepBits : ℕ)).toNat = i := by
    have hbits : ((1 <<< stepBits : ℕ) : ℤ) = 128 := rfl
    rw [hbits]
    omega
  have hdiv : ((128 + i : ℕ) : ℤ) / (1 <<< stepBits : ℕ) = 1 := by
    have hbits : ((1 <<< stepBits : ℕ) : ℤ) = 128 := rfl
    rw [hbits]
    omega
  have heq : expOf (high x) (rest x) = scaled (Step.ofIndex i).head
      (smallPower (Step.ofIndex i).tail (reduced (128 + i : ℕ) (high x) (rest x))) 1 := by
    unfold expOf
    rw [if_neg hlarge]
    dsimp only
    rw [hk, hmod, hdiv]
    rfl
  rw [heq]
  exact two_lt_scaled h hlow hmost hi hnearest

/-- The power of an exponent above one exceeds two, and it is at most four. -/
theorem two_lt_exp2 : (exp2 x).isFinite = true ∧ 2 < (exp2 x).value ∧ (exp2 x).value ≤ 4 := by
  have hfloor : ⌊x.value⌋ = 1 := by
    rw [Int.floor_eq_iff]
    constructor
    · exact_mod_cast hlow.le
    · norm_num
      linarith
  obtain ⟨hfinite, -, hmost'⟩ := exp2_between_powers h
  rw [hfloor] at hmost'
  refine ⟨hfinite, ?_, hmost'.trans (by norm_num)⟩
  obtain ⟨hexp, habove⟩ := two_lt_expOf h hlow hmost
  obtain ⟨hlowFinite, hlowValue⟩ := value_wholePower (w := 1) (by norm_num) (by norm_num)
  obtain ⟨hhighFinite, hhighValue⟩ := value_wholePower (w := 2) (by norm_num) (by norm_num)
  have heq : exp2 x =
      clamp (ofDyadic false 1 1) (ofDyadic false 1 2) (expOf (high x) (rest x)) := by
    rw [exp2_eq_clamp h, hfloor]
    rfl
  rw [heq, clamp, if_neg]
  · split
    · rw [hhighValue]
      norm_num
    · exact habove
  · rw [lt_iff hexp hlowFinite, hlowValue, not_lt, zpow_one]
    exact habove.le

end

/-! ### Powers up to an octave -/

theorem eq_one_of_value {x : Binary64} (hx : x.isFinite = true) (h : x.value = 1) : x = 1 := by
  have hone : (1 : Binary64) = .finite false (2 ^ 52) (-52) (by decide) := rfl
  obtain _ | _ | ⟨s, m, e, hc⟩ := x <;> try cases hx
  cases s with
  | true =>
      have hneg : (finite true m e hc).value ≤ 0 := by
        simp only [value, signed, if_true]
        push_cast
        have hm : (0 : ℚ) ≤ m * 2 ^ e := by positivity
        linarith
      linarith
  | false =>
      change (m : ℚ) * 2 ^ e = 1 at h
      obtain ⟨hm, hleast, -, hfull⟩ := hc
      simp only [Nat.shiftLeft_eq, one_mul] at hm hfull
      -- the significand is the inverse of the power, so it is a power as well
      have hpower : (m : ℚ) = 2 ^ (-e) := by
        rw [zpow_neg]
        exact eq_inv_of_mul_eq_one_left h
      rcases le_or_gt e 0 with he | he
      · obtain ⟨n, rfl⟩ : ∃ n : ℕ, e = -n := ⟨e.natAbs, by omega⟩
        rw [Int.neg_neg, zpow_natCast] at hpower
        obtain rfl : m = 2 ^ n := by exact_mod_cast hpower
        have hn : n < 53 := (Nat.pow_lt_pow_iff_right (by norm_num)).mp hm
        have hn' : 52 ≤ n := by
          rcases hfull with hfull | hfull
          · omega
          · exact (Nat.pow_le_pow_iff_right (by norm_num)).mp hfull
        obtain rfl : n = 52 := by omega
        exact hone.symm
      · have hm' : (m : ℚ) < 1 := by
          rw [hpower]
          exact zpow_lt_one_of_neg₀ (by norm_num) (by omega)
        have hzero : m = 0 := by
          have hlt : m < 1 := by exact_mod_cast hm'
          omega
        rw [hzero] at h
        norm_num at h

theorem exp2_le_two {x : Binary64} (h : Within 1 x) (hmost : x.value ≤ 1) :
    (exp2 x).value ≤ 2 := by
  rcases lt_or_eq_of_le hmost with hlt | heq
  · obtain ⟨-, -, hhigh⟩ := exp2_between_powers h
    have hfloor : ⌊x.value⌋ + 1 ≤ 1 := by
      have hless : ⌊x.value⌋ < 1 := Int.floor_lt.mpr (by exact_mod_cast hlt)
      omega
    exact hhigh.trans ((two_zpow_le hfloor).trans (by norm_num))
  · rw [eq_one_of_value h.finite heq]
    have htwo : exp2 1 = 2 := by decide +kernel
    rw [htwo, show (2 : Binary64).value = 2 from value_ofNat (by norm_num)]

end Soundworks.Binary64
