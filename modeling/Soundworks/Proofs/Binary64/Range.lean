import Soundworks.Proofs.Binary64.Rounding
/-!
Numbers in range. Small whole numbers and powers of two are floating-point numbers, and what is
rounded from a magnitude below one of them stays below it.
-/

namespace Soundworks.Binary64

/-! ### Whole numbers -/

/-- A natural number below `2 ^ 53` times a power of two in range is a floating-point number. -/
theorem exists_dyadic {m : ℕ} (hm : m < 2 ^ 53) {e : ℤ} (hlow : -1074 ≤ e) (hhigh : e ≤ 971) :
    ∃ y : Binary64, y.isFinite = true ∧ y.value = m * 2 ^ e := by
  rcases Nat.eq_zero_or_pos m with rfl | hpos
  · exact ⟨zero false, rfl, by rw [value_zero, Nat.cast_zero, zero_mul]⟩
  have hlog : m.log2 < 53 := (Nat.log2_lt hpos.ne').mpr hm
  have hleast : 2 ^ m.log2 ≤ m := Nat.log2_self_le hpos.ne'
  have hmost : m < 2 ^ (m.log2 + 1) := Nat.lt_log2_self
  -- the significand is shifted until it is full or the exponent is the smallest one
  obtain ⟨k, hk, hfull⟩ : ∃ k : ℕ, (k ≤ 52 - m.log2 ∧ (k : ℤ) ≤ e + 1074) ∧
      ((k : ℤ) = e + 1074 ∨ k = 52 - m.log2) := by
    rcases le_total (52 - m.log2) (e + 1074).toNat with h | h
    · exact ⟨52 - m.log2, by omega, .inr rfl⟩
    · exact ⟨(e + 1074).toNat, by omega, .inl (by omega)⟩
  have hcanonical : Canonical (m <<< k) (e - k) := by
    have hless : m * 2 ^ k < 2 ^ 53 := by
      calc m * 2 ^ k < 2 ^ (m.log2 + 1) * 2 ^ k :=
            Nat.mul_lt_mul_of_pos_right hmost (by positivity)
        _ = 2 ^ (m.log2 + 1 + k) := (pow_add ..).symm
        _ ≤ 2 ^ 53 := Nat.pow_le_pow_right (by norm_num) (by omega)
    have hgreat : k = 52 - m.log2 → 2 ^ 52 ≤ m * 2 ^ k := by
      rintro rfl
      calc 2 ^ 52 = 2 ^ m.log2 * 2 ^ (52 - m.log2) := by rw [← pow_add]; congr 1; omega
        _ ≤ m * 2 ^ (52 - m.log2) := Nat.mul_le_mul_right _ hleast
    simp only [Canonical, Nat.shiftLeft_eq]
    exact ⟨by omega, by omega, by omega, hfull.imp (by omega) (by omega)⟩
  refine ⟨.finite false _ _ hcanonical, rfl, ?_⟩
  show ((m <<< k : ℕ) : ℚ) * 2 ^ (e - k) = m * 2 ^ e
  rw [cast_shiftLeft, mul_assoc, ← two_zpow_add, add_sub_cancel]

/-- A natural number below `2 ^ 53` is a floating-point number. -/
theorem exists_natural {n : ℕ} (h : n < 2 ^ 53) :
    ∃ y : Binary64, y.isFinite = true ∧ y.value = n := by
  simpa using exists_dyadic h (e := 0) (by norm_num) (by norm_num)

theorem rounds_ofNat (n : ℕ) : Rounds n (OfNat.ofNat n : Binary64) := by
  exact_mod_cast rounds_ofInt n

theorem isFinite_ofNat {n : ℕ} (h : n < 2 ^ 53) :
    (OfNat.ofNat n : Binary64).isFinite = true := by
  obtain ⟨y, hy, hvalue⟩ := exists_natural h
  exact ((rounds_ofNat n).value_eq hy hvalue).1

theorem value_ofNat {n : ℕ} (h : n < 2 ^ 53) :
    (OfNat.ofNat n : Binary64).value = n := by
  obtain ⟨y, hy, hvalue⟩ := exists_natural h
  exact ((rounds_ofNat n).value_eq hy hvalue).2

/-- A small whole number is a floating-point number. -/
theorem value_ofInt {n : ℤ} (h : n.natAbs < 2 ^ 53) : (ofInt n).value = n := by
  obtain ⟨y, hy, hvalue⟩ := exists_natural h
  rcases Int.natAbs_eq n with hn | hn
  · refine ((rounds_ofInt n).value_eq hy ?_).2
    rw [hvalue, hn]
    simp
  · refine ((rounds_ofInt n).value_eq (y := -y) (by rwa [isFinite_neg]) ?_).2
    rw [value_neg, hvalue, hn]
    simp

theorem value_nought : (0 : Binary64).value = 0 := value_zero false

theorem value_one : (1 : Binary64).value = 1 := value_ofNat (by norm_num)

theorem value_half : (0.5 : Binary64).isFinite = true ∧ (0.5 : Binary64).value = 1 / 2 := by
  have hhalf : (0.5 : Binary64) = .finite false (2 ^ 52) (-53) (by decide) := rfl
  rw [hhalf]
  refine ⟨rfl, ?_⟩
  show ((2 ^ 52 : ℕ) : ℚ) * 2 ^ (-53 : ℤ) = _
  norm_num [zpow_neg]

/-! ### Magnitudes -/

/-- A finite number of magnitude at most `2 ^ k`. -/
structure Within (k : ℕ) (x : Binary64) : Prop where
  finite : x.isFinite = true
  bound : |x.value| ≤ 2 ^ k

/-- A power of two that is in range. -/
theorem exists_power {k : ℤ} (hlow : -1022 ≤ k) (hhigh : k ≤ 1023) :
    ∃ y : Binary64, y.isFinite = true ∧ y.value = 2 ^ k := by
  have hcanonical : Canonical (2 ^ 52) (k - 52) := by
    simp only [Canonical, Nat.shiftLeft_eq]
    omega
  refine ⟨.finite false (2 ^ 52) (k - 52) hcanonical, rfl, ?_⟩
  show ((2 ^ 52 : ℕ) : ℚ) * 2 ^ (k - 52) = 2 ^ k
  rw [zpow_sub₀ two_ne_zero]
  norm_num
  ring

/-- What is rounded stays below every number that is not exceeded. -/
theorem Rounds.abs_le_value {q : ℚ} {x y : Binary64} (h : Rounds q x) (hy : y.isFinite = true)
    (hq : |q| ≤ y.value) : x.isFinite = true ∧ |x.value| ≤ y.value := by
  obtain ⟨hlow, hhigh⟩ := abs_le.mp hq
  rw [← value_neg] at hlow
  have hneg : (-y).isFinite = true := by rw [isFinite_neg, hy]
  have hfinite := h.isFinite hneg hy hlow hhigh
  refine ⟨hfinite, abs_le.mpr ⟨?_, h.value_le hfinite hy hhigh⟩⟩
  rw [← value_neg]
  exact h.le_value hfinite hneg hlow

theorem Rounds.abs_value_le {q : ℚ} {x : Binary64} (h : Rounds q x) {n : ℕ} (hn : n < 2 ^ 53)
    (hq : |q| ≤ n) : x.isFinite = true ∧ |x.value| ≤ n := by
  have hvalue : (OfNat.ofNat n : Binary64).value = n := value_ofNat hn
  rw [← hvalue] at hq ⊢
  exact h.abs_le_value (isFinite_ofNat hn) hq

theorem Rounds.nonneg {q : ℚ} {x : Binary64} (h : Rounds q x) (hx : x.isFinite = true)
    (hq : 0 ≤ q) : 0 ≤ x.value := by
  rw [← value_nought]
  exact h.le_value hx rfl (by rwa [value_nought])

/-- What is rounded from a magnitude in range stays below the same power of two. -/
theorem Rounds.within {q : ℚ} {x : Binary64} (h : Rounds q x) {k : ℕ} (hk : k ≤ 1023)
    (hq : |q| ≤ 2 ^ k) : Within k x := by
  obtain ⟨y, hy, hvalue⟩ := exists_power (by omega : -1022 ≤ (k : ℤ)) (by omega)
  rw [zpow_natCast] at hvalue
  rw [← hvalue] at hq
  obtain ⟨hfinite, hbound⟩ := h.abs_le_value hy hq
  exact ⟨hfinite, hvalue ▸ hbound⟩

/-- A number between two others. -/
theorem value_between {x least most : Binary64} (hl : least.isFinite = true)
    (hm : most.isFinite = true) (h : least ≤ x ∧ x ≤ most) :
    x.isFinite = true ∧ least.value ≤ x.value ∧ x.value ≤ most.value := by
  have hx := isFinite_of_le_of_le hl hm h.1 h.2
  exact ⟨hx, (le_iff hl hx).mp h.1, (le_iff hx hm).mp h.2⟩

theorem nonneg_iff_value {x : Binary64} (hx : x.isFinite = true) : 0 ≤ x ↔ 0 ≤ x.value := by
  rw [le_iff rfl hx, value_nought]

theorem pos_iff_value {x : Binary64} (hx : x.isFinite = true) : 0 < x ↔ 0 < x.value := by
  rw [lt_iff rfl hx, value_nought]

/-- A share is a number from zero to one. -/
theorem value_share {x : Binary64} (h : 0 ≤ x ∧ x ≤ 1) :
    x.isFinite = true ∧ 0 ≤ x.value ∧ x.value ≤ 1 := by
  obtain ⟨hx, hlow, hhigh⟩ := value_between (isFinite_zero false) (isFinite_ofNat (by norm_num)) h
  rw [value_zero] at hlow
  rw [value_one] at hhigh
  exact ⟨hx, hlow, hhigh⟩

theorem share_of_value {x : Binary64} (hx : x.isFinite = true) (hlow : 0 ≤ x.value)
    (hhigh : x.value ≤ 1) : 0 ≤ x ∧ x ≤ 1 := by
  refine ⟨(nonneg_iff_value hx).mpr hlow, (le_iff hx (isFinite_ofNat (by norm_num))).mpr ?_⟩
  rwa [value_one]

/-- The numbers between minus and plus `n` are those of magnitude at most `n`. -/
theorem between_iff {x : Binary64} {n : ℕ} (hn : n < 2 ^ 53) :
    -OfNat.ofNat n ≤ x ∧ x ≤ OfNat.ofNat n ↔ x.isFinite = true ∧ |x.value| ≤ n := by
  have hfinite := isFinite_ofNat hn
  have hneg : (-(OfNat.ofNat n : Binary64)).isFinite = true := by rw [isFinite_neg, hfinite]
  have hvalue : (OfNat.ofNat n : Binary64).value = n := value_ofNat hn
  constructor
  · intro h
    obtain ⟨hx, hlow, hhigh⟩ := value_between hneg hfinite h
    rw [value_neg, hvalue] at hlow
    rw [hvalue] at hhigh
    exact ⟨hx, abs_le.mpr ⟨hlow, hhigh⟩⟩
  · rintro ⟨hx, hbound⟩
    obtain ⟨hlow, hhigh⟩ := abs_le.mp hbound
    refine ⟨(le_iff hneg hx).mpr ?_, (le_iff hx hfinite).mpr ?_⟩
    · rwa [value_neg, hvalue]
    · rwa [hvalue]

/-- A number below one whose significand is above `2 ^ 52` is at most the neighbour of that one. -/
theorem value_le_of_lt {x : Binary64} {m : ℕ} {e : ℤ} (hm : 2 ^ 52 < m)
    (h : x.value < m * 2 ^ e) : x.value ≤ ((m - 1 : ℕ) : ℚ) * 2 ^ e := by
  have hnonneg : (0 : ℚ) ≤ ((m - 1 : ℕ) : ℚ) * 2 ^ e := by positivity
  obtain _ | _ | ⟨s, k, e', hc⟩ := x
  · exact hnonneg
  · exact hnonneg
  · cases s with
    | true =>
        refine le_trans ?_ hnonneg
        have hpos : (0 : ℚ) ≤ k * 2 ^ e' := by positivity
        simp only [value, signed, if_true]
        push_cast
        linarith
    | false =>
        change (k : ℚ) * 2 ^ e' < m * 2 ^ e at h
        show (k : ℚ) * 2 ^ e' ≤ _
        rcases le_or_gt e e' with he | he
        -- on the same grid or a coarser one, both are multiples of `2 ^ e`
        · have hshift : ((k <<< (e' - e).toNat : ℕ) : ℚ) * 2 ^ e = k * 2 ^ e' :=
            signed_aligned false k he
          rw [← hshift] at h ⊢
          have hlt : k <<< (e' - e).toNat < m := by
            exact_mod_cast lt_of_mul_lt_mul_right h (two_zpow_pos e).le
          refine mul_le_mul_of_nonneg_right ?_ (two_zpow_pos e).le
          exact_mod_cast Nat.le_sub_one_of_lt hlt
        -- on a finer grid, 53 bits do not reach `2 ^ 52` of these multiples
        · have hk := hc.1
          rw [Nat.shiftLeft_eq] at hk
          have hk' : (k : ℚ) ≤ 2 ^ (53 : ℤ) := by exact_mod_cast (by omega : k ≤ 2 ^ 53)
          have hm' : ((2 ^ 52 : ℕ) : ℚ) ≤ ((m - 1 : ℕ) : ℚ) := by
            exact_mod_cast (by omega : 2 ^ 52 ≤ m - 1)
          calc (k : ℚ) * 2 ^ e' ≤ 2 ^ (53 : ℤ) * 2 ^ e' :=
                mul_le_mul_of_nonneg_right hk' (two_zpow_pos e').le
            _ ≤ 2 ^ (53 : ℤ) * 2 ^ (e - 1) :=
                mul_le_mul_of_nonneg_left (two_zpow_le (by omega)) (two_zpow_pos _).le
            _ = (2 ^ 52 : ℕ) * 2 ^ e := by
                rw [← two_zpow_add, show 53 + (e - 1) = 52 + e by ring, two_zpow_add]
                norm_num
            _ ≤ ((m - 1 : ℕ) : ℚ) * 2 ^ e := mul_le_mul_of_nonneg_right hm' (two_zpow_pos e).le

theorem abs_signed (s : Bool) (m : ℕ) : |signed s m| = m := by
  cases s <;> simp [signed]

theorem abs_value (s : Bool) (m : ℕ) (e : ℤ) (h : Canonical m e) :
    |(finite s m e h).value| = m * 2 ^ e := by
  show |(signed s m : ℚ) * 2 ^ e| = _
  rw [abs_mul, abs_of_pos (two_zpow_pos e), ← Int.cast_abs, abs_signed, Int.cast_natCast]

namespace Within

variable {i j k : ℕ} {x y z : Binary64}

theorem mono (h : Within i x) (hij : i ≤ j) : Within j x :=
  ⟨h.finite, h.bound.trans (pow_le_pow_right₀ (by norm_num) hij)⟩

theorem neg (h : Within i x) : Within i (-x) :=
  ⟨by rw [isFinite_neg, h.finite], by rw [value_neg, abs_neg]; exact h.bound⟩

theorem mul (hx : Within i x) (hy : Within j y) (hk : i + j ≤ 1023) :
    Within (i + j) (x * y) := by
  refine (rounds_mul hx.finite hy.finite).within hk ?_
  rw [abs_mul, pow_add]
  exact mul_le_mul hx.bound hy.bound (abs_nonneg _) (by positivity)

/-- A sum is at most twice the larger one of its terms. -/
theorem abs_add_le_pow {p q : ℚ} (hp : |p| ≤ 2 ^ i) (hq : |q| ≤ 2 ^ j) :
    |p + q| ≤ 2 ^ (max i j + 1) := by
  have hi : (2 : ℚ) ^ i ≤ 2 ^ max i j := pow_le_pow_right₀ (by norm_num) (le_max_left _ _)
  have hj : (2 : ℚ) ^ j ≤ 2 ^ max i j := pow_le_pow_right₀ (by norm_num) (le_max_right _ _)
  calc |p + q| ≤ |p| + |q| := abs_add_le p q
    _ ≤ 2 ^ max i j + 2 ^ max i j := add_le_add (hp.trans hi) (hq.trans hj)
    _ = 2 ^ (max i j + 1) := by ring

theorem add (hx : Within i x) (hy : Within j y) (hk : max i j + 1 ≤ 1023) :
    Within (max i j + 1) (x + y) :=
  (rounds_add hx.finite hy.finite).within hk (abs_add_le_pow hx.bound hy.bound)

theorem fusedMulAdd (hx : Within i x) (hy : Within j y) (hz : Within k z)
    (hk : max (i + j) k + 1 ≤ 1023) :
    Within (max (i + j) k + 1) (fusedMulAdd x y z) := by
  refine (rounds_fusedMulAdd hx.finite hy.finite hz.finite).within hk
    (abs_add_le_pow ?_ hz.bound)
  rw [abs_mul, pow_add]
  exact mul_le_mul hx.bound hy.bound (abs_nonneg _) (by positivity)

theorem ofInt {n : ℤ} (h : |n| ≤ 2 ^ k) (hk : k ≤ 1023) :
    Within k (Binary64.ofInt n) :=
  (rounds_ofInt n).within hk (by exact_mod_cast h)

theorem ofDyadic {s : Bool} {m : ℕ} {e : ℤ} (h : (m : ℚ) * 2 ^ e ≤ 2 ^ k)
    (hk : k ≤ 1023) : Within k (Binary64.ofDyadic s m e) := by
  refine (rounds_ofDyadic s m e).within hk ?_
  have hpos : (0 : ℚ) ≤ m * 2 ^ e := by positivity
  cases s
  · simpa [signed, abs_of_nonneg hpos] using h
  · simpa [signed, abs_of_nonneg hpos] using h

end Within

end Soundworks.Binary64
