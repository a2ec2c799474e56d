/-!
Arithmetic expressions of shell scripts over integers. Truth values are one and zero.
-/

namespace Soundworks.Shell.Arithmetic

def isGap (c : Char) : Bool := c = ' ' || c = '\t' || c = '\n'

/-- The operators from the loosest to the tightest level; of one level, longer ones first. -/
def levels : List (List String) :=
  [["||"], ["&&"], ["==", "!="], ["<=", ">=", "<", ">"], ["+", "-"], ["*", "/", "%"]]

def truth (b : Bool) : Int := if b then 1 else 0

/-- The result of an operator; a division by zero has none. -/
def combine? (op : String) (x y : Int) : Option Int :=
  match op with
  | "||" => some (truth (x ≠ 0 ∨ y ≠ 0))
  | "&&" => some (truth (x ≠ 0 ∧ y ≠ 0))
  | "==" => some (truth (x = y))
  | "!=" => some (truth (x ≠ y))
  | "<=" => some (truth (x ≤ y))
  | ">=" => some (truth (x ≥ y))
  | "<" => some (truth (x < y))
  | ">" => some (truth (x > y))
  | "+" => some (x + y)
  | "-" => some (x - y)
  | "*" => some (x * y)
  | "/" => if y = 0 then none else some (x.tdiv y)
  | "%" => if y = 0 then none else some (x.tmod y)
  | _ => none

def operator? (ops : List String) (cs : List Char) : Option (String × List Char) :=
  let cs := cs.dropWhile isGap
  (ops.find? fun op => op.toList.isPrefixOf cs).map fun op => (op, cs.drop op.length)

mutual

/-- A value at the start of a text, with what follows it. Operators of one level group to the
left. -/
def level? (value : String → Int) : Nat → List (List String) → List Char → Option (Int × List Char)
  | 0, _, _ => none
  | fuel + 1, [], cs => operand? value fuel (cs.dropWhile isGap)
  | fuel + 1, ops :: tighter, cs => do
    let (x, rest) ← level? value fuel tighter cs
    more? value fuel ops tighter x rest

def more? (value : String → Int) :
    Nat → List String → List (List String) → Int → List Char → Option (Int × List Char)
  | 0, _, _, _, _ => none
  | fuel + 1, ops, tighter, x, cs =>
    match operator? ops cs with
    | some (op, rest) => do
      let (y, rest) ← level? value fuel tighter rest
      more? value fuel ops tighter (← combine? op x y) rest
    | none => some (x, cs)

/-- A number, a name, a sign or a group. -/
def operand? (value : String → Int) : Nat → List Char → Option (Int × List Char)
  | 0, _ => none
  | fuel + 1, cs =>
    match cs with
    | '(' :: rest => do
      let (x, rest) ← level? value fuel levels rest
      match rest.dropWhile isGap with
      | ')' :: rest => some (x, rest)
      | _ => none
    | '-' :: rest => (operand? value fuel (rest.dropWhile isGap)).map fun (x, rest) => (-x, rest)
    | '+' :: rest => operand? value fuel (rest.dropWhile isGap)
    | '!' :: rest => (operand? value fuel (rest.dropWhile isGap)).map fun (x, rest) =>
        (truth (x = 0), rest)
    | '$' :: rest => operand? value fuel rest
    | cs =>
      let word := cs.takeWhile fun c => c.isAlphanum || c = '_'
      let rest := cs.dropWhile fun c => c.isAlphanum || c = '_'
      if word = [] then none
      else if word.all Char.isDigit then
        some ((String.ofList word).toNat?.getD 0, rest)
      else some (value (String.ofList word), rest)

end

/-- The value of an expression over the values of its names. Each character takes at most two
steps for each level. -/
def evaluate? (value : String → Int) (expression : String) : Option Int :=
  let cs := expression.toList
  match level? value (16 * cs.length + 16) levels cs with
  | some (x, rest) => if rest.all isGap then some x else none
  | none => none

end Soundworks.Shell.Arithmetic
