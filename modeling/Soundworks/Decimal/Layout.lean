import Soundworks.Decimal.Shortest
/-!
The written forms of a floating-point number: `Binary64.text`, which always shows a point or an
exponent, and `Binary64.plain`, which writes integral values as integers.
-/

namespace Soundworks

/-- The choices left open by the digits of a number. -/
structure Decimal.Layout where
  /-- The first power of ten that is written with an exponent. -/
  positionalEnd : Int
  /-- The least power of ten that is written without one. -/
  positionalStart : Int
  /-- The least count of digits in an exponent. -/
  exponentWidth : Nat

namespace Decimal

/-- Numbers from `10 ^ -4` up to `10 ^ 16` are positional; an exponent has a sign and at least
two digits. -/
def Layout.standard : Layout := ⟨16, -4, 2⟩

def Layout.exponentChars (l : Layout) (e : Int) : List Char :=
  let digits := Nat.toDigits 10 e.natAbs
  (if e < 0 then '-' else '+') :: (List.replicate (l.exponentWidth - digits.length) '0' ++ digits)

def Layout.chars (l : Layout) (digits : Nat) (k : Int) : List Char :=
  let ds := Nat.toDigits 10 digits
  let place := (ds.length : Int) + k - 1
  if l.positionalStart ≤ place ∧ place < l.positionalEnd then
    if 0 ≤ k then ds ++ List.replicate k.toNat '0' ++ ['.', '0']
    else if 0 ≤ place then ds.take (place + 1).toNat ++ '.' :: ds.drop (place + 1).toNat
    else '0' :: '.' :: (List.replicate (-place - 1).toNat '0' ++ ds)
  else
    match ds with
    | [] => []
    | [d] => d :: 'e' :: l.exponentChars place
    | d :: rest => d :: '.' :: (rest ++ 'e' :: l.exponentChars place)

def withSign (negative : Bool) (cs : List Char) : List Char :=
  if negative then '-' :: cs else cs

end Decimal

namespace Binary64

open Decimal

/-- The shortest text that reads back as the number. -/
def chars : Binary64 → List Char
  | .nan => "nan".toList
  | .infinite s => withSign s "inf".toList
  | .finite s m e _ =>
    if m = 0 then withSign s "0.0".toList
    else
      let (d, k) := shortest m e
      withSign s (Layout.standard.chars d k)

def integerChars (n : Int) : List Char :=
  withSign (n < 0) (Nat.toDigits 10 n.natAbs)

/-- The text of a number as an argument: integral values have no point and no exponent. -/
def plainChars (x : Binary64) : List Char :=
  match x.toInt? with
  | some n => integerChars n
  | none => x.chars

def text (x : Binary64) : String := String.ofList x.chars

def plain (x : Binary64) : String := String.ofList x.plainChars

end Binary64

end Soundworks
