/-!
Binary floating-point numbers of 64 bits, held as exact values: a sign, a significand below
`2 ^ 53` and a power of two. Every number has one representation, `Canonical`, so equality of
values is equality of terms; the two zeros differ in sign only.

The one rounding step is `ofFraction`, which takes an exact quotient of natural numbers to the
nearest representable number, a tie going to the even significand.
-/

namespace Soundworks

namespace Binary64

/-- The significand fills 53 bits, or the exponent is the smallest one. -/
def Canonical (significand : Nat) (exponent : Int) : Prop :=
  significand < 1 <<< 53 ∧ -1074 ≤ exponent ∧ exponent ≤ 971 ∧
    (exponent = -1074 ∨ 1 <<< 52 ≤ significand)

instance (significand : Nat) (exponent : Int) : Decidable (Canonical significand exponent) :=
  inferInstanceAs (Decidable (_ ∧ _ ∧ _ ∧ (_ ∨ _)))

theorem canonical_zero : Canonical 0 (-1074) := by decide

end Binary64

/-- A 64-bit floating-point number; a finite one is `± significand * 2 ^ exponent`. -/
inductive Binary64 where
  | nan
  | infinite (negative : Bool)
  | finite (negative : Bool) (significand : Nat) (exponent : Int)
      (canonical : Binary64.Canonical significand exponent)
  deriving DecidableEq

namespace Binary64

def zero (negative : Bool) : Binary64 :=
  .finite negative 0 (-1074) canonical_zero

instance : Inhabited Binary64 := ⟨zero false⟩

/-- A significand and exponent on the grid; beyond the largest exponent it is infinite. -/
def onGrid (negative : Bool) (significand : Nat) (exponent : Int) : Binary64 :=
  if h : Canonical significand exponent then .finite negative significand exponent h
  else .infinite negative

/-- The quotient rounded to an integer, a half going to the even neighbour. -/
def roundDiv (num den : Nat) : Nat :=
  let q := num / den
  let r := num % den
  if 2 * r < den then q else if den < 2 * r then q + 1 else q + q % 2

/-- The exponent of the grid on which `num / den` has a significand of 53 bits, or the
smallest exponent if that is larger. -/
def gridExponent (num den : Nat) : Int :=
  let d : Int := (num.log2 : Int) - den.log2
  let top : Int :=
    if den <<< d.toNat ≤ num <<< (-d).toNat then d else d - 1
  max (-1074) (top - 52)

/-- The number nearest to `± num / den`, for a positive `den`. -/
def ofFraction (negative : Bool) (num den : Nat) : Binary64 :=
  if num = 0 then zero negative
  else
    let e := gridExponent num den
    let m := roundDiv (num <<< (-e).toNat) (den <<< e.toNat)
    if m = 1 <<< 53 then onGrid negative (1 <<< 52) (e + 1) else onGrid negative m e

def ofDyadic (negative : Bool) (m : Nat) (e : Int) : Binary64 :=
  ofFraction negative (m <<< e.toNat) (1 <<< (-e).toNat)

def ofInt (n : Int) : Binary64 :=
  ofFraction (n < 0) n.natAbs 1

def ofNat (n : Nat) : Binary64 := ofInt n

instance (n : Nat) : OfNat Binary64 n := ⟨ofNat n⟩

instance : OfScientific Binary64 where
  ofScientific m down e :=
    if down then ofFraction false m (Nat.pow 10 e) else ofFraction false (m * Nat.pow 10 e) 1

def isNaN : Binary64 → Bool
  | .nan => true
  | _ => false

def isFinite : Binary64 → Bool
  | .finite .. => true
  | _ => false

def signed (negative : Bool) (m : Nat) : Int :=
  if negative then -(m : Int) else m

/-- The value as an integer, if it is one. -/
def toInt? : Binary64 → Option Int
  | .finite s m e _ =>
    if 0 ≤ e then some (signed s (m <<< e.toNat))
    else if m % (1 <<< (-e).toNat) = 0 then some (signed s (m >>> (-e).toNat))
    else none
  | _ => none

/-- The largest integer that is not above a finite value. -/
def floor? : Binary64 → Option Int
  | .finite s m e _ =>
    if 0 ≤ e then some (signed s (m <<< e.toNat))
    else some ((signed s m).fdiv ((1 <<< (-e).toNat : Nat) : Int))
  | _ => none

end Binary64

end Soundworks
