import Soundworks.Proofs.Binary64.Range
/-!
What is rounded to a number. Half a unit away on either side are the last rationals that are rounded
to `m * 2 ^ e`; below a power of two, where the grid is finer, it is a quarter of a unit. These ends
themselves belong to the number if its significand is even.
-/

namespace Soundworks.Binary64

section

variable {num den : ℕ}

/-- What is less than a half away from a number is rounded to it, and what is just a half away too
if the number is even. -/
theorem roundDiv_eq {n : ℕ} (hden : 0 < den) (hlow : 2 * (n * den) ≤ 2 * num + den)
    (hhigh : 2 * num ≤ 2 * (n * den) + den)
    (htie : n % 2 = 1 → 2 * (n * den) < 2 * num + den ∧ 2 * num < 2 * (n * den) + den) :
    roundDiv num den = n := by
  have hdiv := Nat.div_add_mod num den
  have hmod := Nat.mod_lt num hden
  unfold roundDiv
  dsimp only
  generalize num / den = q at hdiv ⊢
  generalize num % den = r at hdiv hmod ⊢
  have hq : q ≤ n := by
    by_contra hq
    have hmul : den * (n + 1) ≤ den * q := Nat.mul_le_mul_left den (by omega)
    rw [Nat.mul_add, Nat.mul_comm den n] at hmul
    omega
  have hq' : n ≤ q + 1 := by
    by_contra hq
    have hmul : den * (q + 2) ≤ den * n := Nat.mul_le_mul_left den (by omega)
    rw [Nat.mul_add, Nat.mul_comm den n] at hmul
    omega
  -- the quotient is the number itself or the one before it
  rcases (by omega : q = n ∨ q + 1 = n) with rfl | rfl
  · rw [Nat.mul_comm den q] at hdiv
    split_ifs <;> omega
  · rw [Nat.add_mul, Nat.mul_comm q den] at hlow hhigh htie
    split_ifs <;> omega

/-- The grid of a quotient between two powers of two. -/
theorem gridExponent_eq (hnum : 0 < num) (hden : 0 < den) {k : ℤ} (hk : -1022 ≤ k)
    (hlow : (2 : ℚ) ^ k ≤ (num : ℚ) / den) (hhigh : (num : ℚ) / den < 2 ^ (k + 1)) :
    gridExponent num den = k - 52 := by
  obtain ⟨hupper, -, hwide⟩ := gridExponent_spec hnum hden
  have hpow : ∀ {i j : ℤ}, (2 : ℚ) ^ i < 2 ^ j → i < j :=
    (zpow_lt_zpow_iff_right₀ (by norm_num : (1 : ℚ) < 2)).mp
  have hleast := hpow (hlow.trans_lt hupper)
  rcases hwide with hfinest | hfull
  · omega
  · have hmost := hpow (hfull.trans_lt hhigh)
    omega

theorem gridSignificand_eq {n : ℕ} (hden : 0 < den)
    (hlow : (n - 1 / 2) * 2 ^ gridExponent num den ≤ (num : ℚ) / den)
    (hhigh : (num : ℚ) / den ≤ (n + 1 / 2) * 2 ^ gridExponent num den)
    (htie : n % 2 = 1 → (n - 1 / 2) * 2 ^ gridExponent num den < (num : ℚ) / den ∧
      (num : ℚ) / den < (n + 1 / 2) * 2 ^ gridExponent num den) :
    gridSignificand num den = n := by
  have hpow := two_zpow_pos (gridExponent num den)
  have hshifted := shiftLeft_pos hden (gridExponent num den).toNat
  have hscaled := shifted_div (num : ℚ) den (gridExponent num den)
  rw [← cast_shiftLeft] at hscaled
  simp only [← le_div_iff₀ hpow, ← div_le_iff₀ hpow, ← lt_div_iff₀ hpow, ← div_lt_iff₀ hpow,
    ← hscaled] at hlow hhigh htie
  simp only [le_div_iff₀ hshifted, div_le_iff₀ hshifted, lt_div_iff₀ hshifted,
    div_lt_iff₀ hshifted] at hlow hhigh htie
  unfold gridSignificand
  generalize num <<< (-gridExponent num den).toNat = N at *
  generalize den <<< (gridExponent num den).toNat = D at *
  refine roundDiv_eq (by exact_mod_cast hshifted) ?_ ?_ fun hodd => ?_
  · have hdouble : 2 * ((n : ℚ) * D) ≤ 2 * N + D := by linarith
    exact_mod_cast hdouble
  · have hdouble : 2 * (N : ℚ) ≤ 2 * (n * D) + D := by linarith
    exact_mod_cast hdouble
  · obtain ⟨hless, hmore⟩ := htie hodd
    have hdouble : 2 * ((n : ℚ) * D) < 2 * N + D := by linarith
    have hdouble' : 2 * (N : ℚ) < 2 * (n * D) + D := by linarith
    exact ⟨by exact_mod_cast hdouble, by exact_mod_cast hdouble'⟩

end

/-- How far below a number, in its units, the rationals reach that are rounded to it. -/
def reachBelow (m : ℕ) (e : ℤ) : ℚ := if m = 2 ^ 52 ∧ -1074 < e then 1 / 4 else 1 / 2

/-- A rational that is rounded to `m * 2 ^ e`. -/
structure Near (m : ℕ) (e : ℤ) (q : ℚ) : Prop where
  below : (m - reachBelow m e) * 2 ^ e ≤ q
  above : q ≤ (m + 1 / 2) * 2 ^ e
  tie : m % 2 = 1 → (m - reachBelow m e) * 2 ^ e < q ∧ q < (m + 1 / 2) * 2 ^ e

theorem reachBelow_bounds (m : ℕ) (e : ℤ) : 1 / 4 ≤ reachBelow m e ∧ reachBelow m e ≤ 1 / 2 := by
  unfold reachBelow
  split <;> norm_num

namespace Near

variable {m : ℕ} {e : ℤ} {q : ℚ}

/-- The number itself is rounded to itself. -/
theorem of_eq (h : q = m * 2 ^ e) : Near m e q := by
  have hpow := two_zpow_pos e
  obtain ⟨hreach, -⟩ := reachBelow_bounds m e
  have hless : (m - reachBelow m e) * 2 ^ e < q := by
    rw [h]
    exact mul_lt_mul_of_pos_right (by linarith) hpow
  have hmore : q < (m + 1 / 2) * 2 ^ e := by
    rw [h]
    exact mul_lt_mul_of_pos_right (by linarith) hpow
  exact ⟨hless.le, hmore.le, fun _ => ⟨hless, hmore⟩⟩

/-- What is rounded to a number that is not zero is at least half of its unit. -/
theorem half_unit_le (h : Near m e q) (hm : 0 < m) : 2 ^ (e - 1) ≤ q := by
  obtain ⟨-, hreach⟩ := reachBelow_bounds m e
  have hm' : (1 : ℚ) ≤ m := by exact_mod_cast hm
  refine le_trans ?_ h.below
  rw [zpow_sub_one₀ two_ne_zero, mul_comm]
  exact mul_le_mul_of_nonneg_right (by linarith) (two_zpow_pos e).le

theorem pos (h : Near m e q) (hm : 0 < m) : 0 < q := (two_zpow_pos _).trans_le (h.half_unit_le hm)

/-- What is rounded to a number stays on its grid. -/
theorem lt_of_canonical (h : Near m e q) (hc : Canonical m e) : q < 2 ^ (e + 53) := by
  have hm : (m : ℚ) + 1 ≤ 2 ^ (53 : ℤ) := by
    have hlt := hc.1
    rw [Nat.shiftLeft_eq] at hlt
    exact_mod_cast (by omega : m + 1 ≤ 2 ^ 53)
  refine h.above.trans_lt ?_
  rw [add_comm e, two_zpow_add]
  exact mul_lt_mul_of_pos_right (by linarith) (two_zpow_pos e)

/-- On a grid of fractions a whole number is only near to itself. -/
theorem eq_mul_of_natCast {n : ℕ} (h : Near m e n) (he : e ≤ 0) : m = n * 2 ^ (-e).toNat := by
  obtain ⟨k, hk⟩ := Int.eq_ofNat_of_zero_le (by omega : 0 ≤ -e)
  obtain rfl : e = -k := by omega
  obtain ⟨-, hreach⟩ := reachBelow_bounds m (-k)
  have hscale : (0 : ℚ) < 2 ^ k := by positivity
  have hbelow := h.below
  have habove := h.above
  rw [zpow_neg, zpow_natCast, ← div_eq_mul_inv] at hbelow habove
  rw [div_le_iff₀ hscale] at hbelow
  rw [le_div_iff₀ hscale] at habove
  have hlow : 2 * (m : ℚ) ≤ 2 * (n * 2 ^ k) + 1 := by linarith
  have hhigh : 2 * ((n : ℚ) * 2 ^ k) ≤ 2 * m + 1 := by linarith
  norm_cast at hlow hhigh
  rw [(by omega : (- -(k : ℤ)).toNat = k)]
  omega

section

variable {num den : ℕ}

theorem num_pos (h : Near m e ((num : ℚ) / den)) (hm : 0 < m) (hden : 0 < den) : 0 < num := by
  have hpos := h.pos hm
  rw [div_pos_iff_of_pos_right (by exact_mod_cast hden)] at hpos
  exact_mod_cast hpos

/-- A quotient near a number has the grid of this number, or the finer one below a power of two. -/
theorem gridExponent_cases (h : Near m e ((num : ℚ) / den)) (hm : 0 < m) (hden : 0 < den)
    (hc : Canonical m e) : gridExponent num den = e ∨
      gridExponent num den = e - 1 ∧ m = 2 ^ 52 ∧ -1074 < e := by
  have hnum := h.num_pos hm hden
  have hupper := h.lt_of_canonical hc
  obtain ⟨-, hleast, -, hfull⟩ := hc
  rw [Nat.shiftLeft_eq, one_mul] at hfull
  rcases le_or_gt (2 ^ (e + 52)) ((num : ℚ) / den) with hge | hlt
  · left
    rw [gridExponent_eq hnum hden (by omega) hge (by rwa [add_assoc]), add_sub_cancel_right]
  rcases hleast.eq_or_lt with rfl | hgreater
  · left
    obtain ⟨-, hfloor, hwide⟩ := gridExponent_spec hnum hden
    refine hwide.resolve_right fun hle => ?_
    have hpow := (zpow_lt_zpow_iff_right₀ (by norm_num : (1 : ℚ) < 2)).mp (hle.trans_lt hlt)
    omega
  -- a significand above `2 ^ 52` is more than half a unit above it
  have hpow := two_zpow_pos e
  have hscale : (2 : ℚ) ^ (e + 52) = 2 ^ 52 * 2 ^ e := by
    rw [add_comm, two_zpow_add]
    norm_num
  have hreach := (reachBelow_bounds m e).2
  have hm52 : m = 2 ^ 52 := by
    by_contra hne
    have hmore : (2 ^ 52 + 1 : ℚ) ≤ m := by
      exact_mod_cast (by omega : 2 ^ 52 + 1 ≤ m)
    have hbelow := h.below
    rw [hscale] at hlt
    have hcontra := lt_of_mul_lt_mul_right (hbelow.trans_lt hlt) hpow.le
    linarith
  right
  refine ⟨?_, hm52, hgreater⟩
  rw [gridExponent_eq (k := e + 51) hnum hden (by omega) ?_ (by rwa [add_assoc])]
  · omega
  · refine le_trans ?_ h.below
    have hhalf : (2 : ℚ) ^ (e + 51) = 2 ^ 51 * 2 ^ e := by
      rw [add_comm, two_zpow_add]
      norm_num
    rw [hhalf, hm52]
    refine mul_le_mul_of_nonneg_right ?_ hpow.le
    rw [hm52] at hreach
    push_cast
    linarith

theorem ofFraction_eq (s : Bool) (h : Near m e ((num : ℚ) / den)) (hm : 0 < m) (hden : 0 < den)
    (hc : Canonical m e) : ofFraction s num den = .finite s m e hc := by
  suffices hpositive : ofFraction false num den = .finite false m e hc by
    cases s with
    | false => exact hpositive
    | true =>
        rw [ofFraction_true, hpositive]
        rfl
  have hpow := two_zpow_pos e
  have hreach := (reachBelow_bounds m e).2
  rw [Binary64.ofFraction_eq (h.num_pos hm hden) den]
  rcases h.gridExponent_cases hm hden hc with hgrid | ⟨hgrid, rfl, he⟩
  · have hsignificand : gridSignificand num den = m := by
      have hhalf : ((m : ℚ) - 1 / 2) * 2 ^ e ≤ (m - reachBelow m e) * 2 ^ e :=
        mul_le_mul_of_nonneg_right (by linarith) hpow.le
      refine gridSignificand_eq hden ?_ ?_ fun hodd => ?_
      · rw [hgrid]
        exact hhalf.trans h.below
      · rw [hgrid]
        exact h.above
      · rw [hgrid]
        exact ⟨hhalf.trans_lt (h.tie hodd).1, (h.tie hodd).2⟩
    rw [hsignificand, hgrid, if_neg hc.1.ne]
    exact dif_pos hc
  -- the significand is rounded up to the next power of two
  · have hhalf : (2 : ℚ) ^ (e - 1) = 2 ^ e / 2 := zpow_sub_one₀ two_ne_zero e
    have hsignificand : gridSignificand num den = 2 ^ 53 := by
      have hbelow := h.below
      rw [reachBelow, if_pos ⟨rfl, he⟩] at hbelow
      have habove := (gridExponent_spec (h.num_pos hm hden) hden).1
      rw [hgrid, add_comm, two_zpow_add, hhalf] at habove
      refine gridSignificand_eq hden ?_ ?_ (fun hodd => absurd hodd (by decide))
      · rw [hgrid, hhalf]
        push_cast at hbelow ⊢
        linarith
      · rw [hgrid, hhalf]
        norm_num at habove ⊢
        linarith
    rw [hsignificand, hgrid, if_pos (by decide), sub_add_cancel]
    exact dif_pos hc

end

end Near

end Soundworks.Binary64
