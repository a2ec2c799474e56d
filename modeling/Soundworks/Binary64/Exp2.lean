import Soundworks.Binary64.Arithmetic
/-!
Powers of two with a fractional exponent. The exponent is turned into a power of `e`, of which a
whole count of steps of `2 ^ (1 / 128)` is taken out; what is left is small and goes through a
polynomial. Every step is rounded as it is written, and a product that is added at once is fused
with the sum, so the result is fixed to the last bit. In the end it is kept between the two whole
powers of two around it.

The steps themselves are integer roots on a grid of `2 ^ -128`, far finer than the result.
-/

namespace Soundworks.Binary64

/-- The number one on the working grid. -/
def unit : Nat := 1 <<< 128

/-- The integer square root, by one bit of the root at a time. -/
def sqrtBits (n : Nat) : Nat → Nat → Nat
  | 0, root => root
  | k + 1, root =>
    let next := root + (1 <<< k)
    sqrtBits n k (if next * next ≤ n then next else root)

def gridRoot (x : Nat) : Nat := sqrtBits (x * unit) 129 0

/-- The power of `base` whose exponent has the given binary digits after the point. -/
def fractionalPower (base : Nat) : List Bool → Nat
  | [] => unit
  | bit :: bits =>
    let root := gridRoot base
    let rest := fractionalPower root bits
    if bit then root * rest / unit else rest

/-- The first binary digits of `num / 2 ^ places`, which is below one. -/
def binaryDigits (num places : Nat) : Nat → List Bool
  | 0 => []
  | k + 1 =>
    let next := 2 * num
    if 1 <<< places ≤ next then true :: binaryDigits (next - (1 <<< places)) places k
    else false :: binaryDigits next places k

/-- The count of steps between one and two, as a power of two. -/
def stepBits : Nat := 7

/-- The size of a step: its nearest number, and what that number lacks, as a fraction of it. -/
structure Step where
  head : Nat
  tail : Binary64

/-- A step on the working grid. The head has 53 bits, of which 52 are behind the point. -/
def Step.ofIndex (i : Nat) : Step :=
  let exact := fractionalPower (2 * unit) (binaryDigits i stepBits stepBits)
  let head := roundDiv exact (1 <<< 76)
  let rest : Int := exact - (head <<< 76 : Nat)
  { head := head, tail := ofFraction (rest < 0) rest.natAbs (head <<< 76) }

/-- The logarithm of two, and what it lacks. -/
def logTwo : Binary64 := ofDyadic false 0x162e42fefa39ef (-53)
def logTwoRest : Binary64 := ofDyadic false 0x1abc9e3b398000 (-108)

/-- The count of steps in a power of `e` with exponent one. -/
def stepsPerUnit : Binary64 := ofDyadic false 0x171547652b82fe (-45)

/-- The logarithm of a step with its sign turned, in two parts. -/
def stepLog : Binary64 := ofDyadic true 0x162e42fefa0000 (-60)
def stepLogRest : Binary64 := ofDyadic true 0x1cf79abc9e3b39 (-99)

/-- The coefficients of the square and the higher powers in the polynomial of a small power of
`e`. -/
def square : Binary64 := ofDyadic false 0x1ffffffffffdbd (-54)
def cube : Binary64 := ofDyadic false 0x1555555555543c (-55)
def fourth : Binary64 := ofDyadic false 0x155555cf172b91 (-57)
def fifth : Binary64 := ofDyadic false 0x11111167a4d017 (-59)

/-- The integer nearest to a product; a half goes to the even neighbour. -/
def nearestProduct : Binary64 → Binary64 → Int
  | .finite s₁ m₁ e₁ _, .finite s₂ m₂ e₂ _ =>
    let e := e₁ + e₂
    signed (s₁ != s₂) (roundDiv ((m₁ * m₂) <<< e.toNat) (1 <<< (-e).toNat))
  | _, _ => 0

/-- A small power of `e`, less one, after what a step lacks. -/
def smallPower (tail r : Binary64) : Binary64 :=
  let r2 := r * r
  let low := fusedMulAdd r2 (fusedMulAdd r cube square) (tail + r)
  fusedMulAdd (r2 * r2) (fusedMulAdd r fifth fourth) low

/-- The head of a step times `1 + x` and a power of two, rounded once. -/
def scaled (head : Nat) (x : Binary64) (exponent : Int) : Binary64 :=
  match x with
  | .finite s m e _ =>
    let t := alignedSum false head (-52) s (head * m) (e - 52)
    ofDyadic (t < 0) t.natAbs (min (-52) (e - 52) + exponent)
  | x => x

def expOf (x rest : Binary64) : Binary64 :=
  if x.abs < ofDyadic false 1 (-54) then 1 + x
  else
    let k := nearestProduct stepsPerUnit x
    let r := fusedMulAdd (ofInt k) stepLogRest (fusedMulAdd (ofInt k) stepLog x) + rest
    let step := Step.ofIndex (k % (1 <<< stepBits : Nat)).toNat
    scaled step.head (smallPower step.tail r) (k / (1 <<< stepBits : Nat))

/-- The power of two of a number; an exponent out of all range gives zero or infinity. -/
def exp2 (x : Binary64) : Binary64 :=
  match x with
  | .nan => .nan
  | .infinite s => if s then zero false else .infinite false
  | .finite .. =>
    match x.floor? with
    | none => .nan
    | some whole =>
      if 1100 < whole then .infinite false
      else if whole < -1200 then zero false
      else
        let high := x * logTwo
        let rest := fusedMulAdd x logTwoRest (fusedMulAdd x logTwo (-high))
        clamp (ofDyadic false 1 whole) (ofDyadic false 1 (whole + 1)) (expOf high rest)

end Soundworks.Binary64
