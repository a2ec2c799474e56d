import Soundworks.Binary64.Exp2
import Soundworks.Decimal.Layout
/-!
Numbers as they are given, as exact integers of any size or in floating point. An integer joins
floating-point arithmetic only where it has to, and is out of range there if it is too large.
-/

namespace Soundworks

/-- A number as it is given. -/
inductive Numeral where
  | integer (n : Int)
  | binary (x : Binary64)
  deriving DecidableEq

/-- Why a result has no floating-point number. -/
inductive RangeError where
  | integerTooLarge
  | quotientTooLarge
  | powerTooLarge
  deriving DecidableEq

def RangeError.message : RangeError → String
  | .integerTooLarge => "int too large to convert to float"
  | .quotientTooLarge => "integer division result too large for a float"
  | .powerTooLarge => "math range error"

def RangeError.unlessFinite (e : RangeError) (x : Binary64) : Except RangeError Binary64 :=
  match x with
  | .infinite _ => .error e
  | x => .ok x

namespace Numeral

/-- The floating-point number nearest to a numeral. -/
def toBinary64 : Numeral → Except RangeError Binary64
  | .integer n => RangeError.integerTooLarge.unlessFinite (.ofInt n)
  | .binary x => .ok x

def text : Numeral → String
  | .integer n => toString n
  | .binary x => x.text

def plain (x : Numeral) : Except RangeError String :=
  x.toBinary64.map Binary64.plain

def hundredfold : Numeral → Numeral
  | .integer n => .integer (n * 100)
  | .binary x => .binary (x * 100)

def add : Numeral → Numeral → Except RangeError Numeral
  | .integer m, .integer n => .ok (.integer (m + n))
  | x, y => do return .binary ((← x.toBinary64) + (← y.toBinary64))

/-- The quotient by a positive integer, rounded once. -/
def divide (x : Numeral) (d : Nat) : Except RangeError Binary64 :=
  match x with
  | .integer n => RangeError.quotientTooLarge.unlessFinite (.ofFraction (n < 0) n.natAbs d)
  | .binary x => .ok (x / .ofNat d)

def pitchRatio (semitones : Numeral) (cents : Numeral) : Except RangeError Binary64 := do
  let octaves ← (← semitones.hundredfold.add cents).divide 1200
  let ratio := octaves.exp2
  if octaves.isFinite then RangeError.powerTooLarge.unlessFinite ratio else pure ratio

end Numeral

end Soundworks
