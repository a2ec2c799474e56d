import Soundworks.Binary64.Basic
/-!
Decimal literals and the number each one denotes. A literal is an optional sign, digits with an
optional point, and an optional exponent; `Binary64.ofChars?` also knows the words for infinity
and for the undefined number, in any case.
-/

namespace Soundworks

/-- The decimal `± digits * 10 ^ exponent`. -/
structure Decimal where
  negative : Bool
  digits : Nat
  exponent : Int
  deriving DecidableEq

namespace Decimal

def ofDigits (cs : List Char) : Nat :=
  cs.foldl (fun n c => 10 * n + (c.toNat - '0'.toNat)) 0

/-- A sign, if there is one, and what follows it. -/
def splitSign : List Char → Bool × List Char
  | '-' :: cs => (true, cs)
  | '+' :: cs => (false, cs)
  | cs => (false, cs)

/-- The exponent part of a literal, which reaches to its end. -/
def readExponent? : List Char → Option Int
  | [] => some 0
  | c :: cs =>
    if c = 'e' ∨ c = 'E' then
      let (negative, digits) := splitSign cs
      if digits ≠ [] ∧ digits.all Char.isDigit then
        some (if negative then -(ofDigits digits : Int) else ofDigits digits)
      else none
    else none

/-- A literal without its sign. -/
def readUnsigned? (negative : Bool) (cs : List Char) : Option Decimal :=
  let whole := cs.takeWhile Char.isDigit
  let rest := cs.dropWhile Char.isDigit
  let (places, tail) := match rest with
    | '.' :: t => (t.takeWhile Char.isDigit, t.dropWhile Char.isDigit)
    | t => ([], t)
  if whole = [] ∧ places = [] then none
  else (readExponent? tail).map fun e =>
    ⟨negative, ofDigits (whole ++ places), e - places.length⟩

def read? (cs : List Char) : Option Decimal :=
  let (negative, rest) := splitSign cs
  readUnsigned? negative rest

/-- The most digits that an integer may have in a text, its leading zeros among them. -/
def digitLimit : Nat := 4300

def width (n : Nat) : Nat := (Nat.toDigits 10 n).length

/-- The floating-point number nearest to a decimal. Far outside the range of the format the
answer is known from the count of digits alone. -/
def toBinary64 (d : Decimal) : Binary64 :=
  if d.digits = 0 then .zero d.negative
  else
    let magnitude := (width d.digits : Int) + d.exponent
    if 400 < magnitude then .infinite d.negative
    else if magnitude < -400 then .zero d.negative
    else .ofFraction d.negative (d.digits * Nat.pow 10 d.exponent.toNat)
      (Nat.pow 10 (-d.exponent).toNat)

end Decimal

namespace Binary64

/-- The infinity or the undefined number that a word denotes. -/
def ofWord? (cs : List Char) : Option Binary64 :=
  let (negative, word) := Decimal.splitSign cs
  let word := word.map Char.toLower
  if word = "inf".toList ∨ word = "infinity".toList then some (.infinite negative)
  else if word = "nan".toList then some .nan
  else none

/-- The number that a text denotes, without blanks around it. -/
def ofChars? (cs : List Char) : Option Binary64 :=
  match ofWord? cs with
  | some x => some x
  | none => (Decimal.read? cs).map Decimal.toBinary64

end Binary64

end Soundworks
