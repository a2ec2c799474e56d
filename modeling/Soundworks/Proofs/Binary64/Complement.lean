import Soundworks.Proofs.Binary64.Nearest
/-!
What a share leaves of one. The difference is rounded, so its exact sum with the share may miss one
by a quarter of a unit in the last place; but the sum is rounded too, and then it is one again. The
difference is exact just for the shares that are multiples of `2 ^ (-53)`.
-/

namespace Soundworks.Binary64

/-! ### Rounding to one -/

/-- A quotient a quarter of a unit below one, or half a unit above it, is rounded to one. -/
theorem ofFraction_eq_one {num den : ℕ} (hden : 0 < den)
    (hlow : 1 - 2 ^ (-54 : ℤ) ≤ (num : ℚ) / den) (hhigh : (num : ℚ) / den ≤ 1 + 2 ^ (-53 : ℤ)) :
    ofFraction false num den = 1 := by
  have hnear : Near (2 ^ 52) (-52) ((num : ℚ) / den) := by
    refine ⟨?_, ?_, fun hodd => absurd hodd (by decide)⟩
    · rw [reachBelow, if_pos (by norm_num)]
      norm_num [zpow_neg] at hlow ⊢
      linarith
    · norm_num [zpow_neg] at hhigh ⊢
      linarith
  exact (hnear.ofFraction_eq false (by norm_num) hden (by decide)).trans (by decide)

variable {x y : Binary64}

/-- A sum a quarter of a unit below one, or half a unit above it, is rounded to one. -/
theorem add_eq_one (hx : x.isFinite = true) (hy : y.isFinite = true)
    (hlow : 1 - 2 ^ (-54 : ℤ) ≤ x.value + y.value)
    (hhigh : x.value + y.value ≤ 1 + 2 ^ (-53 : ℤ)) : x + y = 1 := by
  obtain _ | _ | ⟨s₁, m₁, e₁, h₁⟩ := x <;> try cases hx
  obtain _ | _ | ⟨s₂, m₂, e₂, h₂⟩ := y <;> try cases hy
  set t := alignedSum s₁ m₁ e₁ s₂ m₂ e₂ with ht
  have hvalue : (t : ℚ) * 2 ^ min e₁ e₂ =
      (finite s₁ m₁ e₁ h₁).value + (finite s₂ m₂ e₂ h₂).value := alignedSum_value ..
  rw [← hvalue] at hlow hhigh
  have hpos : 0 < t := by
    have hsum : (0 : ℚ) < t * 2 ^ min e₁ e₂ := lt_of_lt_of_le (by norm_num [zpow_neg]) hlow
    exact_mod_cast (pos_iff_pos_of_mul_pos hsum).mpr (two_zpow_pos _)
  have hsum : finite s₁ m₁ e₁ h₁ + finite s₂ m₂ e₂ h₂ = ofDyadic false t.natAbs (min e₁ e₂) := by
    show (if t = 0 then _ else ofDyadic (t < 0) t.natAbs (min e₁ e₂)) = _
    rw [if_neg hpos.ne', decide_eq_false hpos.not_gt]
  have hquotient := dyadic_quotient false t.natAbs (min e₁ e₂)
  simp only [signed, Bool.false_eq_true, if_false, Int.natAbs_of_nonneg hpos.le,
    Int.cast_natCast] at hquotient
  rw [← hquotient] at hlow hhigh
  rw [hsum]
  exact ofFraction_eq_one (one_shiftLeft_pos _) hlow hhigh

/-! ### What is left of one -/

/-- What is left of one is the exact difference, rounded. -/
theorem rounds_one_sub (hx : x.isFinite = true) : Rounds (1 - x.value) (1 - x) := by
  have hrounds := rounds_sub (isFinite_ofNat (n := 1) (by norm_num)) hx
  rwa [value_one] at hrounds

/-- Nothing is taken from one. -/
theorem one_sub_value_of_zero (hx : x.isFinite = true) (h : x.value = 0) : (1 - x).value = 1 := by
  have hrest := rounds_one_sub hx
  rw [h, sub_zero] at hrest
  exact (hrest.value_eq (isFinite_ofNat (n := 1) (by norm_num)) value_one).2

theorem one_sub_share (h : 0 ≤ x ∧ x ≤ 1) : 0 ≤ 1 - x ∧ 1 - x ≤ 1 := by
  obtain ⟨hx, hlow, hhigh⟩ := value_share h
  have hrest := rounds_one_sub hx
  refine ⟨hrest.above (zero false) (isFinite_zero false) ?_,
    hrest.below _ (isFinite_ofNat (by norm_num)) ?_⟩
  · rw [value_zero]
    linarith
  · rw [value_one]
    linarith

/-- What is left of one misses the exact difference by at most a quarter of a unit. -/
theorem one_sub_near (h : 0 ≤ x ∧ x ≤ 1) : |(1 - x).value - (1 - x.value)| ≤ 2 ^ (-54 : ℤ) := by
  obtain ⟨hx, hlow, hhigh⟩ := value_share h
  have hrest := rounds_one_sub hx
  have hfinite := (value_share (one_sub_share h)).1
  rcases hlow.eq_or_lt with hzero | hpos
  · rw [one_sub_value_of_zero hx hzero.symm, ← hzero, sub_zero, sub_self, abs_zero]
    exact (two_zpow_pos _).le
  · refine hrest.near hfinite 0 (by norm_num) ?_
    rw [abs_of_nonneg (by linarith), zpow_zero]
    linarith

/-- With the share itself it is one again. -/
theorem one_sub_add_share (h : 0 ≤ x ∧ x ≤ 1) : 1 - x + x = 1 := by
  obtain ⟨hlow, hhigh⟩ := abs_le.mp (one_sub_near h)
  have hunit : (2 : ℚ) ^ (-54 : ℤ) ≤ 2 ^ (-53 : ℤ) := two_zpow_le (by norm_num)
  exact add_eq_one (value_share (one_sub_share h)).1 (value_share h).1 (by linarith) (by linarith)

/-! ### Shares that leave a number -/

/-- The significand of a number from a half on does not reach below the places of a half. -/
theorem exists_multiple_of_half_le (h : 1 / 2 ≤ x.value) :
    ∃ k : ℕ, x.value = k * 2 ^ (-53 : ℤ) := by
  obtain _ | _ | ⟨s, m, e, hc⟩ := x
  · norm_num [value] at h
  · norm_num [value] at h
  cases s with
  | true =>
      have hneg : (finite true m e hc).value ≤ 0 := by
        have hpos : (0 : ℚ) ≤ m * 2 ^ e := by positivity
        simp only [value, signed, if_true]
        push_cast
        linarith
      linarith
  | false =>
      have he : -53 ≤ e := by
        by_contra hless
        have hm : (m : ℚ) < 2 ^ (53 : ℤ) := by
          have hlt := hc.1
          rw [Nat.one_shiftLeft] at hlt
          exact_mod_cast hlt
        have hsmall : (m : ℚ) * 2 ^ e < 1 / 2 := by
          calc (m : ℚ) * 2 ^ e < 2 ^ (53 : ℤ) * 2 ^ e :=
                mul_lt_mul_of_pos_right hm (two_zpow_pos e)
            _ ≤ 2 ^ (53 : ℤ) * 2 ^ (-54 : ℤ) :=
                mul_le_mul_of_nonneg_left (two_zpow_le (by omega)) (two_zpow_pos _).le
            _ = 1 / 2 := by norm_num [zpow_neg]
        exact absurd (h.trans_lt hsmall) (lt_irrefl _)
      exact ⟨m <<< (e - -53).toNat, (signed_aligned false m he).symm⟩

/-- What a number of these places leaves of one. -/
theorem one_sub_multiple {k : ℕ} (h : (k : ℚ) * 2 ^ (-53 : ℤ) ≤ 1) :
    ((2 ^ 53 - k : ℕ) : ℚ) * 2 ^ (-53 : ℤ) = 1 - k * 2 ^ (-53 : ℤ) := by
  have hunits : ((2 ^ 53 : ℕ) : ℚ) * 2 ^ (-53 : ℤ) = 1 := by norm_num [zpow_neg]
  have hmost : k ≤ 2 ^ 53 := by
    rw [← hunits] at h
    exact_mod_cast le_of_mul_le_mul_right h (two_zpow_pos _)
  rw [Nat.cast_sub hmost, sub_mul, hunits]

/-- What a share leaves of one is exact for the multiples of `2 ^ (-53)`, and for no other share:
one of the two is at least a half, and if both are exact they have the same places. -/
theorem one_sub_value_eq_iff (h : 0 ≤ x ∧ x ≤ 1) :
    (1 - x).value = 1 - x.value ↔ ∃ k : ℕ, x.value = k * 2 ^ (-53 : ℤ) := by
  obtain ⟨hx, hlow, hhigh⟩ := value_share h
  constructor
  · intro hexact
    rcases le_total (1 / 2) x.value with hhalf | hhalf
    · exact exists_multiple_of_half_le hhalf
    · obtain ⟨k, hk⟩ := exists_multiple_of_half_le (x := 1 - x) (by rw [hexact]; linarith)
      rw [hexact] at hk
      refine ⟨2 ^ 53 - k, ?_⟩
      rw [one_sub_multiple (by linarith)]
      linarith
  · rintro ⟨k, hk⟩
    rw [hk] at hhigh
    rcases Nat.eq_zero_or_pos k with rfl | hpos
    · rw [Nat.cast_zero, zero_mul] at hk
      rw [one_sub_value_of_zero hx hk, hk, sub_zero]
    · obtain ⟨y, hy, hvalue⟩ := exists_dyadic (m := 2 ^ 53 - k) (by omega)
        (e := -53) (by norm_num) (by norm_num)
      refine ((rounds_one_sub hx).value_eq hy ?_).2
      rw [hvalue, one_sub_multiple hhigh, hk]

end Soundworks.Binary64
