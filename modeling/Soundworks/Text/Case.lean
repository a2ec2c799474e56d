import Soundworks.Text.CaseTable
/-!
Upper and lower case for all of Unicode. A capital sigma at the end of a word becomes the final
sigma.
-/

namespace Soundworks.Text

/-- The image of a code point under the first row that holds it. -/
def shiftBy (rows : List CaseRow) (n : Nat) : Nat :=
  match rows.find? fun (first, last, step, _) =>
    first ≤ n && n ≤ last && (n - first) % step = 0 with
  | some (_, _, _, shift) => ((n : Int) + shift).toNat
  | none => n

def mapCase (rows : List CaseRow) (expansions : List (Nat × List Nat)) (c : Char) : List Char :=
  match expansions.find? fun (n, _) => n = c.toNat with
  | some (_, images) => images.map Char.ofNat
  | none => [Char.ofNat (shiftBy rows c.toNat)]

def upperChar : Char → List Char := mapCase upperRows upperExpansions

def lowerChar : Char → List Char := mapCase lowerRows lowerExpansions

def isCased (c : Char) : Bool := upperChar c ≠ [c] || lowerChar c ≠ [c]

/-- Punctuation that may stand inside a word. -/
def isInnerMark (c : Char) : Bool :=
  c ∈ ['\'', '.', ':', '^', '\x60', '\u00a8', '\u00ad', '\u00af', '\u00b4', '\u00b7', '\u00b8',
    '\u2018', '\u2019']

/-- Whether the nearest character that is no inner mark is a cased letter. -/
def endsWord (cs : List Char) : Bool :=
  match cs.dropWhile isInnerMark with
  | c :: _ => isCased c
  | [] => false

/-- The lower-case form of the rest of a text; `before` holds what precedes it, reversed. -/
def lowerChars (before : List Char) : List Char → List Char
  | [] => []
  | c :: cs =>
    let image :=
      if c = 'Σ' && endsWord before && !endsWord cs then ['ς'] else lowerChar c
    image ++ lowerChars (c :: before) cs

def upper (s : String) : String := String.ofList (s.toList.flatMap upperChar)

def lower (s : String) : String := String.ofList (lowerChars [] s.toList)

end Soundworks.Text
