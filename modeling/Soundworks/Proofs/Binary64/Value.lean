import Mathlib.Algebra.Order.Field.Power
import Mathlib.Data.Rat.Lemmas
import Mathlib.Tactic.Linarith
import Mathlib.Tactic.Positivity
import Mathlib.Tactic.Ring
import Soundworks.Binary64.Arithmetic
/-!
The values of floating-point numbers. A finite number stands for a rational, sums and comparisons
on a common grid are those of the values, and a sign turned over turns the order over.
-/

namespace Soundworks.Binary64

def value : Binary64 → ℚ
  | .finite s m e _ => signed s m * 2 ^ e
  | _ => 0

/-! ### Shifts and signs -/

theorem two_zpow_pos (e : ℤ) : (0 : ℚ) < 2 ^ e := by positivity

theorem two_zpow_le {a b : ℤ} (h : a ≤ b) : (2 : ℚ) ^ a ≤ 2 ^ b :=
  zpow_le_zpow_right₀ (by norm_num) h

theorem two_zpow_add (a b : ℤ) : (2 : ℚ) ^ (a + b) = 2 ^ a * 2 ^ b :=
  zpow_add₀ (by norm_num) a b

theorem cast_shiftLeft (m k : ℕ) : ((m <<< k : ℕ) : ℚ) = m * 2 ^ (k : ℤ) := by
  rw [Nat.shiftLeft_eq, zpow_natCast]
  push_cast
  ring

theorem signed_shiftLeft (s : Bool) (m k : ℕ) :
    (signed s (m <<< k) : ℚ) = signed s m * 2 ^ (k : ℤ) := by
  have hcast := cast_shiftLeft m k
  cases s
  · exact hcast
  · show ((-((m <<< k : ℕ) : ℤ) : ℤ) : ℚ) = ((-(m : ℤ) : ℤ) : ℚ) * 2 ^ (k : ℤ)
    rw [Int.cast_neg, Int.cast_neg, Int.cast_natCast, Int.cast_natCast, hcast, neg_mul]

theorem signed_not (s : Bool) (m : ℕ) : signed (!s) m = -signed s m := by
  cases s <;> simp [signed]

/-- A shift to the left by the distance of two exponents. -/
theorem signed_aligned {e e' : ℤ} (s : Bool) (m : ℕ) (h : e' ≤ e) :
    (signed s (m <<< (e - e').toNat) : ℚ) * 2 ^ e' = signed s m * 2 ^ e := by
  rw [signed_shiftLeft, Int.toNat_of_nonneg (by omega), mul_assoc, ← two_zpow_add]
  congr 2
  omega

theorem alignedSum_value (s₁ : Bool) (m₁ : ℕ) (e₁ : ℤ) (s₂ : Bool) (m₂ : ℕ) (e₂ : ℤ) :
    (alignedSum s₁ m₁ e₁ s₂ m₂ e₂ : ℚ) * 2 ^ min e₁ e₂ =
      signed s₁ m₁ * 2 ^ e₁ + signed s₂ m₂ * 2 ^ e₂ := by
  unfold alignedSum
  push_cast
  rw [add_mul, signed_aligned s₁ m₁ (min_le_left _ _), signed_aligned s₂ m₂ (min_le_right _ _)]

/-! ### The value of a number -/

@[simp] theorem value_zero (s : Bool) : (zero s).value = 0 := by
  cases s <;> simp [zero, value, signed]

@[simp] theorem isFinite_zero (s : Bool) : (zero s).isFinite = true := rfl

@[simp] theorem value_neg (x : Binary64) : (-x).value = -x.value := by
  cases x with
  | finite s m e h =>
      show (signed (!s) m : ℚ) * 2 ^ e = -(signed s m * 2 ^ e)
      rw [signed_not]
      push_cast
      ring
  | _ => exact neg_zero.symm

@[simp] theorem isFinite_neg (x : Binary64) : (-x).isFinite = x.isFinite := by
  cases x <;> rfl

@[simp] theorem value_abs (x : Binary64) : x.abs.value = |x.value| := by
  cases x with
  | finite s m e h =>
      show (signed false m : ℚ) * 2 ^ e = |(signed s m : ℚ) * 2 ^ e|
      rw [abs_mul, abs_of_pos (two_zpow_pos e)]
      cases s <;> simp [signed]
  | _ => exact abs_zero.symm

@[simp] theorem isFinite_abs (x : Binary64) : x.abs.isFinite = x.isFinite := by
  cases x <;> rfl

theorem neg_neg (x : Binary64) : - -x = x := by
  cases x <;> simp [Neg.neg, neg]

theorem isZero_iff {x : Binary64} : x.isZero = true ↔ x.isFinite = true ∧ x.value = 0 := by
  cases x with
  | finite s m e h =>
      have hpow : (2 : ℚ) ^ e ≠ 0 := (two_zpow_pos e).ne'
      cases s <;> simp [isZero, isFinite, value, signed, hpow]
  | _ => simp [isZero, isFinite]

/-- A magnitude on the grid is below the first number that is out of range. -/
theorem Canonical.lt_range {m : ℕ} {e : ℤ} (h : Canonical m e) :
    (m : ℚ) * 2 ^ e < 2 ^ (1024 : ℤ) := by
  obtain ⟨hm, -, he, -⟩ := h
  have hm' : (m : ℚ) < 2 ^ (53 : ℤ) := by
    rw [Nat.shiftLeft_eq] at hm
    exact_mod_cast (by omega : m < 2 ^ 53)
  calc (m : ℚ) * 2 ^ e < 2 ^ (53 : ℤ) * 2 ^ e := mul_lt_mul_of_pos_right hm' (two_zpow_pos e)
    _ ≤ 2 ^ (53 : ℤ) * 2 ^ (971 : ℤ) := by
        exact mul_le_mul_of_nonneg_left (two_zpow_le he) (two_zpow_pos _).le
    _ = 2 ^ (1024 : ℤ) := by rw [← two_zpow_add]; norm_num

theorem value_lt_range (x : Binary64) : x.value < 2 ^ (1024 : ℤ) := by
  have hpow := two_zpow_pos 1024
  cases x with
  | finite s m e h =>
      refine lt_of_le_of_lt ?_ h.lt_range
      refine mul_le_mul_of_nonneg_right ?_ (two_zpow_pos e).le
      cases s
      · exact le_refl _
      · show ((-(m : ℤ) : ℤ) : ℚ) ≤ m
        push_cast
        linarith [Nat.cast_nonneg (α := ℚ) m]
  | _ => exact hpow

/-! ### Order -/

theorem compare?_finite {x y : Binary64} (hx : x.isFinite = true) (hy : y.isFinite = true) :
    x.compare? y = some (compare x.value y.value) := by
  cases x with
  | finite s₁ m₁ e₁ h₁ =>
      cases y with
      | finite s₂ m₂ e₂ h₂ =>
          have hsum := alignedSum_value s₁ m₁ e₁ (!s₂) m₂ e₂
          rw [signed_not] at hsum
          push_cast at hsum
          have hpow := two_zpow_pos (min e₁ e₂)
          show some (compare _ (0 : ℤ)) = some (compare _ _)
          congr 1
          rcases lt_trichotomy (alignedSum s₁ m₁ e₁ (!s₂) m₂ e₂) 0 with h | h | h
          · have hlt : (alignedSum s₁ m₁ e₁ (!s₂) m₂ e₂ : ℚ) < 0 := by exact_mod_cast h
            have hneg := mul_neg_of_neg_of_pos hlt hpow
            rw [compare_lt_iff_lt.mpr h, eq_comm, compare_lt_iff_lt]
            simp only [value]
            linarith
          · rw [h] at hsum
            rw [compare_eq_iff_eq.mpr h, eq_comm, compare_eq_iff_eq]
            simp only [value]
            push_cast at hsum
            linarith
          · have hgt : (0 : ℚ) < alignedSum s₁ m₁ e₁ (!s₂) m₂ e₂ := by exact_mod_cast h
            have hpos := mul_pos hgt hpow
            rw [compare_gt_iff_gt.mpr h, eq_comm, compare_gt_iff_gt]
            simp only [value]
            linarith
      | _ => cases hy
  | _ => cases hx

theorem le_def {x y : Binary64} : x ≤ y ↔ x.compare? y = some .lt ∨ x.compare? y = some .eq := by
  show le x y = true ↔ _
  unfold le
  rcases x.compare? y with _ | ⟨_ | _ | _⟩ <;> simp

theorem lt_def {x y : Binary64} : x < y ↔ x.compare? y = some .lt := by
  show lt x y = true ↔ _
  simp [lt]

/-- Finite numbers are ordered as their values are. -/
theorem le_iff {x y : Binary64} (hx : x.isFinite = true) (hy : y.isFinite = true) :
    x ≤ y ↔ x.value ≤ y.value := by
  rw [le_def, compare?_finite hx hy]
  simp only [Option.some.injEq, compare_lt_iff_lt, compare_eq_iff_eq]
  exact le_iff_lt_or_eq.symm

theorem lt_iff {x y : Binary64} (hx : x.isFinite = true) (hy : y.isFinite = true) :
    x < y ↔ x.value < y.value := by
  rw [lt_def, compare?_finite hx hy]
  simp only [Option.some.injEq, compare_lt_iff_lt]

theorem infinite_true_le {x : Binary64} (hx : x.isFinite = true) : infinite true ≤ x := by
  cases x with
  | finite => exact le_def.mpr (.inl rfl)
  | _ => cases hx

theorem le_infinite_false {x : Binary64} (hx : x.isFinite = true) : x ≤ infinite false := by
  cases x with
  | finite => exact le_def.mpr (.inl rfl)
  | _ => cases hx

theorem isFinite_of_le_of_le {x y z : Binary64} (hx : x.isFinite = true) (hz : z.isFinite = true)
    (hxy : x ≤ y) (hyz : y ≤ z) : y.isFinite = true := by
  cases x with
  | finite =>
      cases z with
      | finite =>
          cases y with
          | finite => rfl
          | nan => simp [le_def, compare?] at hxy
          | infinite s => cases s <;> simp [le_def, compare?] at hxy hyz
      | _ => cases hz
  | _ => cases hx

theorem isFinite_of_abs_le {x y : Binary64} (hy : y.isFinite = true) (h : x.abs ≤ y) :
    x.isFinite = true := by
  cases y with
  | finite =>
      cases x with
      | finite => rfl
      | _ => simp [le_def, compare?, abs] at h
  | _ => cases hy

/-- A sign turned over turns the order over. -/
theorem neg_le_neg {x y : Binary64} (h : x ≤ y) : -y ≤ -x := by
  cases x with
  | nan => simp [le_def, compare?] at h
  | infinite s =>
      cases y with
      | nan => simp [le_def, compare?] at h
      | infinite s' => cases s <;> cases s' <;> first | decide | exact absurd h (by decide)
      | finite => cases s <;> first | exact le_infinite_false rfl | simp [le_def, compare?] at h
  | finite =>
      cases y with
      | nan => simp [le_def, compare?] at h
      | infinite s => cases s <;> first | exact infinite_true_le rfl | simp [le_def, compare?] at h
      | finite =>
          rw [le_iff (by rw [isFinite_neg]; rfl) (by rw [isFinite_neg]; rfl), value_neg, value_neg]
          rw [le_iff rfl rfl] at h
          linarith

end Soundworks.Binary64
