import Soundworks.Validation.Issue
/-!
Lenient readings of single values. A text may stand for a number, an integer or a truth value;
a truth value counts as 1 or 0; an integral number counts as an integer. A text is never made
from anything else.
-/

namespace Soundworks.Coercion

/-- A text without its underscores, if it has some and none stands at an end or beside
another. -/
def dropUnderscores? (cs : List Char) : Option (List Char) :=
  let doubled := (cs.zip cs.tail).any fun (a, b) => a = '_' && b = '_'
  if '_' ∉ cs ∨ cs.head? = some '_' ∨ cs.getLast? = some '_' ∨ doubled then none
  else some (cs.filter (· ≠ '_'))

/-- The number that a text denotes; spaces around it and underscores inside it are ignored. -/
def numberOfText? (s : String) : Option Binary64 :=
  let cs := Text.trimWhile Text.isSpace s.toList
  match Binary64.ofChars? cs with
  | some x => some x
  | none => (dropUnderscores? cs).bind Binary64.ofChars?

/-- An integer in plain form: an optional minus sign and digits without a leading zero. -/
def plainInteger? (cs : List Char) : Option Int :=
  let (negative, digits) := match cs with
    | '-' :: t => (true, t)
    | t => (false, t)
  if digits = [] ∨ !digits.all Char.isDigit ∨ (digits.head? = some '0' ∧ digits ≠ ['0']) then none
  else
    let n : Int := Decimal.ofDigits digits
    some (if negative then -n else n)

/-- Whether a text starts with an integer of too many characters, its sign among them. -/
def startsOversized (cs : List Char) : Bool :=
  let (sign, digits) := match cs with
    | '-' :: t => (1, t)
    | t => (0, t)
  digits.head? ≠ some '0' && Decimal.digitLimit < sign + (digits.takeWhile Char.isDigit).length

/-- What follows the zeros, and the underscores among them, at the start of a text; the last
zero stays in front of a point or at the end. -/
def afterZeros : Char → List Char → Option (List Char)
  | last, [] => some [last]
  | last, c :: cs =>
    if c = '0' ∨ c = '_' then afterZeros c cs
    else if c.isDigit then some (c :: cs)
    else if c = '.' then some (last :: c :: cs)
    else none

/-- A text of digits without its leading zeros. -/
def dropZeros? : List Char → Option (List Char)
  | '0' :: cs => afterZeros '0' cs
  | c :: cs => if c.isDigit ∨ c = '-' then some (c :: cs) else none
  | [] => none

/-- A text without a point and the zeros that fill the rest of it. -/
def dropZeroFraction (cs : List Char) : List Char :=
  match cs.dropWhile (· ≠ '.') with
  | '.' :: places => if places ≠ [] ∧ places.all (· = '0') then cs.takeWhile (· ≠ '.') else cs
  | _ => cs

/-- A text without what an integer may have beside its plain form: a plus sign, leading zeros, a
zero fraction and underscores between digits. -/
def plainForm? (cs : List Char) : Option (List Char) :=
  let unsigned := match cs with
    | '+' :: t => t
    | t => t
  (dropZeros? unsigned).map fun cs =>
    let digits := dropZeroFraction cs
    (dropUnderscores? digits).getD digits

/-- The integer that a text denotes, with spaces around it. -/
def integerOfText (s : String) : Checked Int :=
  let cs := Text.trimWhile Text.isSpace s.toList
  if startsOversized cs then .fail .oversizedInteger
  else
    match plainInteger? cs, plainForm? cs with
    | some n, _ => .ok n
    | none, none => .fail .unreadableInteger
    | none, some plain =>
      if startsOversized plain then .fail .oversizedInteger
      else (plainInteger? plain).elim (.fail .unreadableInteger) .ok

def number : Value → Checked Binary64
  | .number x => .ok x
  | .integer n =>
    match Binary64.ofInt n with
    | .infinite _ => .fail .notNumber
    | x => .ok x
  | .bool b => .ok (if b then 1 else 0)
  | .text s =>
    match numberOfText? s with
    | some x => .ok x
    | none => .fail .unreadableNumber
  | _ => .fail .notNumber

/-- The least positive integer that 64 bits with a sign cannot hold, `2 ^ 63`. -/
def wordLimit : Int := 9223372036854775808

/-- The integer that a floating-point number denotes; it has to be in the range of 64 bits. -/
def integerOfNumber (x : Binary64) : Checked Int :=
  if !x.isFinite then .fail .infiniteInteger
  else
    match x.toInt? with
    | none => .fail .fractionalInteger
    | some n => if -wordLimit < n ∧ n < wordLimit then .ok n else .fail .oversizedInteger

def integer : Value → Checked Int
  | .integer n => .ok n
  | .number x => integerOfNumber x
  | .bool b => .ok (if b then 1 else 0)
  | .text s => integerOfText s
  | _ => .fail .notInteger

/-- The words for the truth values, in any case. -/
def boolOfText? (s : String) : Option Bool :=
  let word := s.toLower
  if word ∈ ["1", "on", "t", "true", "y", "yes"] then some true
  else if word ∈ ["0", "off", "f", "false", "n", "no"] then some false
  else none

def boolOfInteger (n : Int) : Checked Bool :=
  if n = 0 then .ok false else if n = 1 then .ok true else .fail .unreadableBool

def bool : Value → Checked Bool
  | .bool b => .ok b
  | .text s =>
    match boolOfText? s with
    | some b => .ok b
    | none => .fail .unreadableBool
  | .integer n => if -wordLimit ≤ n ∧ n < wordLimit then boolOfInteger n else .fail .notBool
  | .number x =>
    match integerOfNumber x with
    | .ok n => boolOfInteger n
    | .error _ => .fail .notBool
  | _ => .fail .notBool

def text : Value → Checked String
  | .text s => .ok s
  | _ => .fail .notText

end Soundworks.Coercion
