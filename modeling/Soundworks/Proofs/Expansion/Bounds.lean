import Soundworks.Proofs.Binary64.Range
import Soundworks.Proofs.Expansion.Stream
import Soundworks.Proofs.Validation.Operations
/-!
Draws do not leave their range. However a draw is rounded, it lies within the range of its setting;
a tempo lies within a tenth of one, whatever its range is.
-/

namespace Soundworks

open Binary64

namespace Lcg

theorem step_lt (g : Lcg) : g.step.state < modulus := Nat.mod_lt _ (by decide)

theorem value_within {g : Lcg} (h : g.state < modulus) :
    g.value.isFinite = true ∧ 0 ≤ g.value.value ∧ g.value.value ≤ 1 := by
  have hrounds : Rounds ((g.state : ℚ) / modulus) g.value :=
    rounds_ofFraction false g.state (by decide)
  have hfinite := isFinite_ofNat (n := 1) (by norm_num)
  have hlow : (zero false).value ≤ (g.state : ℚ) / modulus := by
    rw [value_zero]
    positivity
  have hhigh : (g.state : ℚ) / modulus ≤ (1 : Binary64).value := by
    rw [value_one, div_le_one (by norm_num [modulus])]
    exact_mod_cast h.le
  have hx := hrounds.isFinite (isFinite_zero false) hfinite hlow hhigh
  refine ⟨hx, ?_, ?_⟩
  · simpa using hrounds.le_value hx (isFinite_zero false) hlow
  · simpa [value_one] using hrounds.value_le hx hfinite hhigh

/-- A draw around zero. -/
theorem centred (g : Lcg) :
    (g.next.1 - 0.5).isFinite = true ∧ |(g.next.1 - 0.5).value| ≤ 1 / 2 := by
  simp only [next]
  obtain ⟨hx, hlow, hhigh⟩ := value_within g.step_lt
  obtain ⟨hhalf, hvalue⟩ := value_half
  rw [← hvalue]
  refine (rounds_sub hx hhalf).abs_le_value hhalf ?_
  rw [hvalue, abs_le]
  constructor <;> linarith

/-- A draw from a range does not leave it. -/
theorem spread_within {amount : Binary64} (hamount : amount.isFinite = true)
    (h : 0 ≤ amount.value) (g : Lcg) :
    ((g.next.1 - 0.5) * 2 * amount).isFinite = true ∧
      |((g.next.1 - 0.5) * 2 * amount).value| ≤ amount.value := by
  obtain ⟨hx, hbound⟩ := g.centred
  have htwo : (2 : Binary64).value = 2 := value_ofNat (by norm_num)
  have hrounds := rounds_mul hx (isFinite_ofNat (n := 2) (by norm_num))
  obtain ⟨hy, hunit⟩ := hrounds.abs_value_le (n := 1) (by norm_num) (by
    rw [abs_mul, htwo]
    norm_num
    linarith)
  refine (rounds_mul hy hamount).abs_le_value hamount ?_
  rw [abs_mul, abs_of_nonneg h]
  calc _ ≤ 1 * amount.value := mul_le_mul_of_nonneg_right (by exact_mod_cast hunit) h
    _ = amount.value := one_mul _

/-- The magnitude of a draw from a range that goes up to `n`. -/
theorem abs_spread_le {amount : Binary64} {n : ℕ} (hn : n < 2 ^ 53)
    (h : 0 ≤ amount ∧ amount ≤ OfNat.ofNat n) (g : Lcg) :
    ((g.next.1 - 0.5) * 2 * amount).abs ≤ amount := by
  obtain ⟨hamount, hlow, -⟩ := value_between (isFinite_zero false) (isFinite_ofNat hn) h
  rw [value_zero] at hlow
  obtain ⟨hx, hbound⟩ := spread_within hamount hlow g
  rwa [le_iff ((isFinite_abs _).trans hx) hamount, value_abs]

end Lcg

namespace Variation

/-! ### Tempos -/

theorem value_tenth :
    (0.1 : Binary64).isFinite = true ∧ (0.1 : Binary64).value = 7205759403792794 / 2 ^ 56 := by
  have htenth : (0.1 : Binary64) = .finite false 7205759403792794 (-56) (by decide) := rfl
  rw [htenth]
  exact ⟨rfl, by norm_num [value, signed]⟩

theorem value_fifth :
    (0.2 : Binary64).isFinite = true ∧ (0.2 : Binary64).value = 2 * (0.1 : Binary64).value := by
  have hfifth : (0.2 : Binary64) = .finite false 7205759403792794 (-55) (by decide) := rfl
  rw [hfifth, value_tenth.2]
  exact ⟨rfl, by norm_num [value, signed]⟩

/-- One with at most a tenth added or taken away, as the sum is rounded. -/
theorem one_add_within {y : Binary64} (hy : y.isFinite = true)
    (h : |y.value| ≤ (0.1 : Binary64).value) : 0.9 ≤ 1 + y ∧ 1 + y ≤ 1.1 := by
  have hleast : (0.9 : Binary64) = .finite false 8106479329266893 (-53) (by decide) := rfl
  have hmost : (1.1 : Binary64) = .finite false 4953959590107546 (-52) (by decide) := rfl
  have hvleast : (0.9 : Binary64).value = (8106479329266893 : ℕ) * 2 ^ (-53 : ℤ) := by
    rw [hleast]
    rfl
  have hvmost : (1.1 : Binary64).value = (4953959590107546 : ℕ) * 2 ^ (-52 : ℤ) := by
    rw [hmost]
    rfl
  have hfleast : (0.9 : Binary64).isFinite = true := by rw [hleast]; rfl
  have hfmost : (1.1 : Binary64).isFinite = true := by rw [hmost]; rfl
  rw [value_tenth.2] at h
  obtain ⟨hlow, hhigh⟩ := abs_le.mp h
  have hsum := rounds_add (isFinite_ofNat (n := 1) (by norm_num)) hy
  rw [value_one] at hsum
  have hmuch : 1 + y.value ≤ (1.1 : Binary64).value := by
    rw [hvmost]
    norm_num at hhigh ⊢
    linarith
  refine ⟨?_, hsum.below _ hfmost hmuch⟩
  rcases le_or_gt (0.9 : Binary64).value (1 + y.value) with hle | hlt
  · exact hsum.above _ hfleast hle
  · have hfinite : (1 + y).isFinite = true :=
      hsum.isFinite (isFinite_zero false) hfmost (by rw [value_zero]; norm_num at hlow; linarith)
        hmuch
    rw [le_iff hfleast hfinite]
    by_contra hless
    -- the next number below would be more than half a unit away from the sum
    have hbelow := value_le_of_lt (by norm_num) (hvleast ▸ not_le.mp hless)
    have hnear := hsum.near hfinite 0 (by norm_num) (by
      rw [abs_of_pos (by norm_num at hlow; linarith), zpow_zero]
      rw [hvleast] at hlt
      norm_num at hlt
      linarith)
    obtain ⟨hapart, -⟩ := abs_le.mp hnear
    norm_num at hbelow hapart hlow
    linarith

theorem drawTempo_within (g : Lcg) :
    0.9 ≤ 1 + (g.next.1 - 0.5) * 0.2 ∧ 1 + (g.next.1 - 0.5) * 0.2 ≤ 1.1 := by
  obtain ⟨hx, hbound⟩ := g.centred
  obtain ⟨hfifth, hvalue⟩ := value_fifth
  have hpos : 0 ≤ (0.2 : Binary64).value := by
    rw [hvalue, value_tenth.2]
    norm_num
  obtain ⟨hy, hnear⟩ := (rounds_mul hx hfifth).abs_le_value value_tenth.1 (by
    rw [abs_mul, abs_of_nonneg hpos]
    calc _ ≤ 1 / 2 * (0.2 : Binary64).value := mul_le_mul_of_nonneg_right hbound hpos
      _ = (0.1 : Binary64).value := by rw [hvalue, one_div, inv_mul_cancel_left₀ two_ne_zero])
  exact one_add_within hy hnear

end Variation

/-! ### Settings -/

/-- A setting within its range. Tempos differ from one by at most a tenth, whatever the range. -/
def Drawn.Within (amount x : Binary64) : Drawn → Prop
  | .factor => 0.9 ≤ x ∧ x ≤ 1.1
  | .semitones | .bass | .treble | .gain => x.abs ≤ amount

namespace VariationRanges

theorem mem_of_nonzero {x : Option Binary64} {amount : Binary64} (h : amount ∈ nonzero x) :
    amount ∈ x := (Option.filter_eq_some_iff.mp h).1

theorem Valid.within {r : VariationRanges} (h : r.Valid) {k : Drawn} {amount : Binary64}
    (hk : r.amount k = some amount) (g : Lcg) : k.Within amount (k.ofDraw amount g.next.1) := by
  cases k <;> simp only [Drawn.Within, Drawn.ofDraw]
  case semitones =>
    exact Lcg.abs_spread_le (n := 12) (by norm_num) (h.pitchRange amount (mem_of_nonzero hk)) g
  case bass =>
    exact Lcg.abs_spread_le (n := 6) (by norm_num) (h.spectralRange amount (mem_of_nonzero hk)) g
  case treble =>
    exact Lcg.abs_spread_le (n := 6) (by norm_num) (h.spectralRange amount (mem_of_nonzero hk)) g
  case factor => exact Variation.drawTempo_within g
  case gain =>
    exact Lcg.abs_spread_le (n := 10) (by norm_num) (h.volumeRange amount (mem_of_nonzero hk)) g

/-- A variation of an accepted set holds every setting that has a range, within that range. -/
theorem Valid.exists_drawn {r : VariationRanges} (h : r.Valid) {k : Drawn} {amount : Binary64}
    (hk : r.amount k = some amount) (g : Lcg) :
    ∃ x, (Variation.draw r g).1.drawn? k = some x ∧ k.Within amount x := by
  obtain ⟨g', hdraw⟩ := Variation.drawn?_draw r g k
  exact ⟨_, by rw [hdraw, hk, Option.map_some], h.within hk g'⟩

/-- What a variation of an accepted set holds for a setting is within the range of the setting. -/
theorem Valid.within_of_drawn {r : VariationRanges} (h : r.Valid) {g : Lcg} {k : Drawn}
    {x : Binary64} (hx : x ∈ (Variation.draw r g).1.drawn? k) :
    ∃ amount, r.amount k = some amount ∧ k.Within amount x := by
  obtain ⟨g', hdraw⟩ := Variation.drawn?_draw r g k
  rw [hdraw] at hx
  obtain ⟨amount, hk, rfl⟩ := Option.map_eq_some_iff.mp hx
  exact ⟨amount, hk, h.within hk g'⟩

end VariationRanges

end Soundworks
