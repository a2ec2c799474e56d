import Soundworks.Shell.Syntax
/-!
The tokens of a script: words with the line they stand on, redirections and marks.
-/

namespace Soundworks.Shell

/-- A token of a script. -/
inductive Token where
  | word (line : Nat) (w : Word)
  | redirect (line : Nat) (stream : Option Nat) (mark : String)
  | mark (s : String)
  deriving DecidableEq

namespace Token

def endsWord (c : Char) : Bool := c ∈ [' ', '\t', '\n', ';', '&', '|', '(', ')', '<', '>']

def isPlain (c : Char) : Bool := !endsWord c && c ∉ ['\'', '"', '\\', '$', '\x60']

def isPlainQuoted (c : Char) : Bool := c ∉ ['"', '\\', '$', '\x60']

def startsName (c : Char) : Bool := c.isAlpha || c = '_'

def isNameChar (c : Char) : Bool := c.isAlphanum || c = '_'

def isSpecial (c : Char) : Bool := c.isDigit || c ∈ ['@', '*', '#', '?', '$', '!', '-']

/-- An arithmetic expression up to its two closing parentheses. -/
def readArithmetic? (depth : Nat) (read : List Char) : List Char → Option (String × List Char)
  | ')' :: ')' :: cs =>
    if depth = 0 then some (String.ofList read.reverse, cs)
    else readArithmetic? (depth - 1) (')' :: read) (')' :: cs)
  | '(' :: cs => readArithmetic? (depth + 1) ('(' :: read) cs
  | ')' :: cs => readArithmetic? (depth - 1) (')' :: read) cs
  | c :: cs => readArithmetic? depth (c :: read) cs
  | [] => none
termination_by cs => cs.length

def readDollar? (quoted : Bool) : List Char → Option (Piece × List Char)
  | '(' :: '(' :: cs => (readArithmetic? 0 [] cs).map fun (e, rest) => (.arithmetic quoted e, rest)
  | '(' :: _ => none
  | '\x7b' :: cs =>
    let name := cs.takeWhile (· ≠ '\x7d')
    if name ≠ [] ∧ (name.all isNameChar ∨ (name.length = 1 ∧ name.all isSpecial)) then
      match cs.dropWhile (· ≠ '\x7d') with
      | _ :: rest => some (.parameter quoted (String.ofList name), rest)
      | [] => none
    else none
  | c :: cs =>
    if startsName c then
      some (.parameter quoted (String.ofList (c :: cs.takeWhile isNameChar)),
        cs.dropWhile isNameChar)
    else if isSpecial c then some (.parameter quoted (String.ofList [c]), cs)
    else some (.text quoted "$", c :: cs)
  | [] => some (.text quoted "$", [])

/-- The pieces of a word, between double quotes or outside of quotes. Each piece takes at least
one character. -/
def readPieces? : Nat → Bool → List Char → Option (Word × List Char)
  | 0, _, _ => none
  | fuel + 1, quoted, cs =>
    let more := fun (p : Piece) (rest : List Char) =>
      (readPieces? fuel quoted rest).map fun (ps, rest) => (p :: ps, rest)
    let plain := if quoted then isPlainQuoted else isPlain
    let run := cs.takeWhile plain
    if run ≠ [] then more (.text quoted (String.ofList run)) (cs.dropWhile plain)
    else
      match cs with
      | [] => if quoted then none else some ([], [])
      | '$' :: cs => (readDollar? quoted cs).bind fun (p, rest) => more p rest
      | '\x60' :: _ => none
      | '"' :: cs =>
        if quoted then (readPieces? fuel false cs)
        else (readPieces? fuel true cs).map fun (ps, rest) => (.text true "" :: ps, rest)
      | '\'' :: cs =>
        match cs.dropWhile (· ≠ '\'') with
        | _ :: rest => more (.text true (String.ofList (cs.takeWhile (· ≠ '\'')))) rest
        | [] => none
      | '\\' :: '\n' :: cs => more (.text quoted "") cs
      | '\\' :: c :: cs =>
        let kept := quoted && c ∉ ['$', '\x60', '"', '\\']
        more (.text true (String.ofList (if kept then ['\\', c] else [c]))) cs
      | ['\\'] => more (.text true "\\") []
      | _ => some ([], cs)

/-- The marks, longer ones first. -/
def marks : List String := ["&&", "||", ";;", ";", "&", "|", "(", ")"]

/-- The marks of redirections, longer ones first. -/
def redirectMarks : List String := [">>", ">&", "<&", ">|", ">", "<"]

def stripAny? (starts : List String) (cs : List Char) : Option (String × List Char) :=
  (starts.find? fun s => s.toList.isPrefixOf cs).map fun s => (s, cs.drop s.length)

/-- The tokens of a text from a line on. Each step takes at least one character. -/
def scan? : Nat → Nat → List Char → Option (List Token)
  | 0, _, _ => none
  | _, _, [] => some []
  | fuel + 1, line, c :: cs =>
    let whole := c :: cs
    let digits := whole.takeWhile Char.isDigit
    if c = '\n' then (scan? fuel (line + 1) cs).map (.mark "\n" :: ·)
    else if c = ' ' ∨ c = '\t' then scan? fuel line cs
    else if c = '#' then scan? fuel line (cs.dropWhile (· ≠ '\n'))
    else if c = '\\' ∧ cs.head? = some '\n' then scan? fuel (line + 1) cs.tail
    else
      match stripAny? redirectMarks (whole.dropWhile Char.isDigit), stripAny? marks whole with
      | some (sign, rest), _ =>
        let stream := if digits = [] then none else (String.ofList digits).toNat?
        (scan? fuel line rest).map (.redirect line stream sign :: ·)
      | none, some (sign, rest) => (scan? fuel line rest).map (.mark sign :: ·)
      | none, none => do
        let (w, rest) ← readPieces? (2 * whole.length + 1) false whole
        let lines := (whole.take (whole.length - rest.length)).count '\n'
        let tokens ← scan? fuel (line + lines) rest
        some (.word line w :: tokens)

/-- The tokens of a script, unless a quotation is not closed or a substitution is not known. -/
def ofText? (script : String) : Option (List Token) :=
  scan? (script.length + 1) 1 script.toList

end Token

end Soundworks.Shell
