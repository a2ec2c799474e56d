import Soundworks.Json.Value
/-!
Reading JSON text. Numbers with a point or an exponent become floating-point numbers, others
integers. A text is refused as a whole if any part of it is not JSON, or if something follows the
value. Readers differ in how deep a document may nest, in how long its integers may be, and in
whether they have words for the numbers that are not finite.
-/

namespace Soundworks.Json

/-- What a reader accepts: the greatest nesting of lists and objects, the most characters of an
integer with its sign, and whether `NaN` and the infinities are words. -/
structure Dialect where
  depth : Nat
  digits : Nat
  words : Bool
  deriving DecidableEq

def Dialect.lenient : Dialect := ⟨200, Decimal.digitLimit, true⟩

def isGap (c : Char) : Bool := c = ' ' || c = '\t' || c = '\n' || c = '\r'

def skipGap (cs : List Char) : List Char := cs.dropWhile isGap

def dropWord? : List Char → List Char → Option (List Char)
  | [], cs => some cs
  | w :: ws, c :: cs => if w = c then dropWord? ws cs else none
  | _ :: _, [] => none

def hexDigit? (c : Char) : Option Nat :=
  if c.isDigit then some (c.toNat - 48)
  else if 'a' ≤ c ∧ c ≤ 'f' then some (c.toNat - 87)
  else if 'A' ≤ c ∧ c ≤ 'F' then some (c.toNat - 55)
  else none

def codeUnit? : List Char → Option (Nat × List Char)
  | a :: b :: c :: d :: rest => do
    let a ← hexDigit? a
    let b ← hexDigit? b
    let c ← hexDigit? c
    let d ← hexDigit? d
    pure (((a * 16 + b) * 16 + c) * 16 + d, rest)
  | _ => none

/-- The character of an escaped code unit; a high surrogate needs its low partner. -/
def escapedUnit? (cs : List Char) : Option (Char × List Char) := do
  let (unit, rest) ← codeUnit? cs
  if 0xd800 ≤ unit ∧ unit < 0xdc00 then
    match rest with
    | '\\' :: 'u' :: rest =>
      let (low, rest) ← codeUnit? rest
      if 0xdc00 ≤ low ∧ low < 0xe000 then
        pure (Char.ofNat (0x10000 + (unit - 0xd800) * 0x400 + (low - 0xdc00)), rest)
      else none
    | _ => none
  else if 0xdc00 ≤ unit ∧ unit < 0xe000 then none
  else pure (Char.ofNat unit, rest)

/-- The character of an escape, after the backslash. -/
def escaped? : List Char → Option (Char × List Char)
  | '"' :: cs => some ('"', cs)
  | '\\' :: cs => some ('\\', cs)
  | '/' :: cs => some ('/', cs)
  | 'b' :: cs => some ('\x08', cs)
  | 'f' :: cs => some ('\x0c', cs)
  | 'n' :: cs => some ('\n', cs)
  | 'r' :: cs => some ('\r', cs)
  | 't' :: cs => some ('\t', cs)
  | 'u' :: cs => escapedUnit? cs
  | _ => none

/-- The characters of a string up to its closing quote, after those read so far. -/
def readString : Nat → List Char → List Char → Option (String × List Char)
  | 0, _, _ => none
  | _ + 1, _, [] => none
  | fuel + 1, read, c :: cs =>
    if c = '"' then some (String.ofList read.reverse, cs)
    else if c = '\\' then
      match escaped? cs with
      | some (c, cs) => readString fuel (c :: read) cs
      | none => none
    else if c.toNat < 0x20 then none
    else readString fuel (c :: read) cs

def spanDigits (cs : List Char) : List Char × List Char :=
  (cs.takeWhile Char.isDigit, cs.dropWhile Char.isDigit)

/-- A fraction with at least one digit, if there is a point. -/
def readFraction? : List Char → Option (List Char × List Char)
  | '.' :: cs =>
    let (places, rest) := spanDigits cs
    if places = [] then none else some ('.' :: places, rest)
  | cs => some ([], cs)

/-- An exponent with at least one digit, if there is its letter. -/
def readExponent? : List Char → Option (List Char × List Char)
  | c :: cs =>
    if c = 'e' ∨ c = 'E' then
      let (sign, tail) := match cs with
        | '+' :: t => ([], t)
        | '-' :: t => (['-'], t)
        | t => ([], t)
      let (digits, rest) := spanDigits tail
      if digits = [] then none else some ('e' :: sign ++ digits, rest)
    else some ([], c :: cs)
  | [] => some ([], [])

namespace Dialect

/-- A number after its sign. Leading zeros are refused, and so are more characters before the point
than an integer may have, the sign among them. -/
def readMagnitude? (d : Dialect) (negative : Bool) (cs : List Char) :
    Option (Value × List Char) := do
  let (whole, rest) := spanDigits cs
  if whole = [] ∨ (whole.head? = some '0' ∧ whole ≠ ['0']) ∨
      d.digits < whole.length + (if negative then 1 else 0) then none
  else
    let (fraction, rest) ← readFraction? rest
    let (exponent, rest) ← readExponent? rest
    if fraction = [] ∧ exponent = [] then
      let n : Int := Decimal.ofDigits whole
      pure (.integer (if negative then -n else n), rest)
    else
      let x ← Decimal.readUnsigned? negative (whole ++ fraction ++ exponent)
      pure (.number x.toBinary64, rest)

def readWord? (d : Dialect) (word : String) (x : Binary64) (cs : List Char) :
    Option (Value × List Char) :=
  if d.words then (dropWord? word.toList cs).map fun rest => (.number x, rest) else none

/-- A number that starts with a minus sign, or negative infinity. -/
def readNegative? (d : Dialect) (cs : List Char) : Option (Value × List Char) :=
  match d.readWord? "Infinity" (.infinite true) cs with
  | some read => some read
  | none => d.readMagnitude? true cs

mutual

/-- A value at the start of a text, with the nesting that is still allowed. -/
def readValue (d : Dialect) : Nat → Nat → List Char → Option (Value × List Char)
  | 0, _, _ => none
  | _ + 1, _, [] => none
  | fuel + 1, depth, c :: cs =>
    match c with
    | '"' => (readString (fuel + 1) [] cs).map fun (s, rest) => (.text s, rest)
    | '[' =>
      match depth with
      | 0 => none
      | depth + 1 =>
        match skipGap cs with
        | ']' :: rest => some (.list [], rest)
        | rest => readItems d fuel depth [] rest
    | '{' =>
      match depth with
      | 0 => none
      | depth + 1 =>
        match skipGap cs with
        | '}' :: rest => some (.object [], rest)
        | rest => readFields d fuel depth [] rest
    | 't' => (dropWord? "rue".toList cs).map fun rest => (.bool true, rest)
    | 'f' => (dropWord? "alse".toList cs).map fun rest => (.bool false, rest)
    | 'n' => (dropWord? "ull".toList cs).map fun rest => (.null, rest)
    | 'N' => d.readWord? "aN" .nan cs
    | 'I' => d.readWord? "nfinity" (.infinite false) cs
    | '-' => d.readNegative? cs
    | c => d.readMagnitude? false (c :: cs)

/-- The items of a list up to its end, after those read so far. -/
def readItems (d : Dialect) : Nat → Nat → List Value → List Char → Option (Value × List Char)
  | 0, _, _, _ => none
  | fuel + 1, depth, read, cs =>
    match readValue d fuel depth cs with
    | none => none
    | some (v, rest) =>
      match skipGap rest with
      | ',' :: rest => readItems d fuel depth (v :: read) (skipGap rest)
      | ']' :: rest => some (.list (v :: read).reverse, rest)
      | _ => none

/-- The fields of an object up to its end, after those read so far. -/
def readFields (d : Dialect) :
    Nat → Nat → List (String × Value) → List Char → Option (Value × List Char)
  | 0, _, _, _ => none
  | fuel + 1, depth, read, cs =>
    match cs with
    | '"' :: cs =>
      match readString (fuel + 1) [] cs with
      | none => none
      | some (key, rest) =>
        match skipGap rest with
        | ':' :: rest =>
          match readValue d fuel depth (skipGap rest) with
          | none => none
          | some (v, rest) =>
            match skipGap rest with
            | ',' :: rest => readFields d fuel depth ((key, v) :: read) (skipGap rest)
            | '}' :: rest => some (.object ((key, v) :: read).reverse, rest)
            | _ => none
        | _ => none
    | _ => none

end

/-- The value that a whole text denotes. Every call of the readers consumes a character or
steps from a list to its first item, so twice the length bounds them. -/
def read? (d : Dialect) (s : String) : Option Value :=
  let cs := s.toList
  match d.readValue (2 * cs.length + 2) d.depth (skipGap cs) with
  | some (v, rest) => if skipGap rest = [] then some v else none
  | none => none

end Dialect

def read? (s : String) : Option Value := Dialect.lenient.read? s

end Soundworks.Json
