/-!
Wildcards in names: a star stands for any text, a question mark for one character, and brackets
for one of several characters or, after an exclamation mark, for any other one.
-/

namespace Soundworks

/-- A part of a pattern. -/
inductive Wildcard where
  | star
  | anyChar
  | char (c : Char)
  | oneOf (negated : Bool) (ranges : List (Char × Char))
  deriving DecidableEq

namespace Wildcard

/-- The ranges of a character class; a hyphen between two characters makes a range of them. -/
def classRanges : List Char → List (Char × Char)
  | a :: '-' :: b :: rest => (a, b) :: classRanges rest
  | a :: rest => (a, a) :: classRanges rest
  | [] => []

/-- A text up to a closing bracket that is not its first character, and what follows it. -/
def closeClass? : List Char → Option (List Char × List Char)
  | ']' :: cs => (closeLater? cs).map fun (inside, rest) => (']' :: inside, rest)
  | cs => closeLater? cs
where
  closeLater? (cs : List Char) : Option (List Char × List Char) :=
    match cs.dropWhile (· ≠ ']') with
    | _ :: rest => some (cs.takeWhile (· ≠ ']'), rest)
    | [] => none

def readClass? : List Char → Option (Wildcard × List Char)
  | '!' :: cs => (closeClass? cs).map fun (inside, rest) => (.oneOf true (classRanges inside), rest)
  | cs => (closeClass? cs).map fun (inside, rest) => (.oneOf false (classRanges inside), rest)

/-- The parts of a pattern; a bracket that is not closed stands for itself. -/
def readWithin : Nat → List Char → List Wildcard
  | 0, _ => []
  | _, [] => []
  | fuel + 1, c :: cs =>
    if c = '*' then .star :: readWithin fuel cs
    else if c = '?' then .anyChar :: readWithin fuel cs
    else if c = '[' then
      match readClass? cs with
      | some (w, rest) => w :: readWithin fuel rest
      | none => .char '[' :: readWithin fuel cs
    else .char c :: readWithin fuel cs

/-- The parts of a pattern. Each part takes at least one character. -/
def read (cs : List Char) : List Wildcard := readWithin cs.length cs

def isPattern (cs : List Char) : Bool := cs.any fun c => c = '*' || c = '?' || c = '['

/-- The ends of a text, from the whole text to the empty one. -/
def ends : List Char → List (List Char)
  | [] => [[]]
  | c :: cs => (c :: cs) :: ends cs

def matchesChar (c : Char) : Wildcard → Bool
  | .star => false
  | .anyChar => true
  | .char d => c = d
  | .oneOf negated ranges => (ranges.any fun (a, b) => a ≤ c ∧ c ≤ b) != negated

def matchesAll : List Wildcard → List Char → Bool
  | [], cs => cs = []
  | .star :: ws, cs => (ends cs).any fun rest => matchesAll ws rest
  | w :: ws, cs =>
    match cs with
    | c :: rest => matchesChar c w && matchesAll ws rest
    | [] => false

end Wildcard

end Soundworks
