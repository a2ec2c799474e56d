import Soundworks.Decimal.Literal
/-!
The shortest decimal that reads back as a given number. A decimal reads back exactly when it
lies in the interval of reals that round to the number, whose ends belong to it when the
significand is even. The grids of 1, 2, ... 17 digits are tried in turn; on each one only the
two neighbours of the number can lie inside, and the nearer one is taken.
-/

namespace Soundworks.Decimal

/-- The reals that round to a number, times a common denominator. -/
structure Interval where
  lower : Nat
  centre : Nat
  upper : Nat
  den : Nat
  closed : Bool

/-- The interval of `m * 2 ^ e`; below a power of two the grid is finer. -/
def Interval.of (m : Nat) (e : Int) : Interval :=
  let gap := if m = 1 <<< 52 ∧ -1074 < e then 1 else 2
  let scale := (e - 2).toNat
  { lower := (4 * m - gap) <<< scale
    centre := (4 * m) <<< scale
    upper := (4 * m + 2) <<< scale
    den := 1 <<< (2 - e).toNat
    closed := m % 2 = 0 }

def Interval.contains (i : Interval) (d : Nat) (k : Int) : Bool :=
  let x := d * Nat.pow 10 k.toNat * i.den
  let down := Nat.pow 10 (-k).toNat
  if i.closed then i.lower * down ≤ x && x ≤ i.upper * down
  else i.lower * down < x && x < i.upper * down

/-- The power of ten of the leading digit of `num / den`, for values above `10 ^ -400`. -/
def leadingPlace (num den : Nat) : Int :=
  (width (num * Nat.pow 10 400 / den) : Int) - 401

/-- The better of the two neighbours of the centre among the multiples of `10 ^ k`. -/
def Interval.neighbour? (i : Interval) (k : Int) : Option Nat :=
  let num := i.centre * Nat.pow 10 (-k).toNat
  let den := i.den * Nat.pow 10 k.toNat
  let d := num / den
  let r := num % den
  let upperFirst := den < 2 * r || (2 * r = den && d % 2 = 1)
  let first := if upperFirst then d + 1 else d
  let second := if upperFirst then d else d + 1
  if i.contains first k then some first
  else if i.contains second k then some second
  else none

/-- The first grid with a hit, from the given place downwards. -/
def Interval.search (i : Interval) : Nat → Int → Option (Nat × Int)
  | 0, _ => none
  | n + 1, k =>
    match i.neighbour? k with
    | some d => some (d, k)
    | none => i.search n (k - 1)

/-- Moves zeros at the end of the digits into the exponent. -/
def trim : Nat → Nat → Int → Nat × Int
  | 0, d, k => (d, k)
  | fuel + 1, d, k => if d % 10 = 0 ∧ d ≠ 0 then trim fuel (d / 10) (k + 1) else (d, k)

def expansion (m : Nat) (e : Int) : Nat × Int :=
  if 0 ≤ e then (m <<< e.toNat, 0) else (m * Nat.pow 5 (-e).toNat, e)

/-- The digits and exponent of the shortest decimal that reads back as `m * 2 ^ e`. -/
def shortest (m : Nat) (e : Int) : Nat × Int :=
  let i := Interval.of m e
  let (d, k) := (i.search 17 (leadingPlace i.centre i.den)).getD (expansion m e)
  trim (width d) d k

end Soundworks.Decimal
