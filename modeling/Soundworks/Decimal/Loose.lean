import Soundworks.Decimal.Literal
import Soundworks.Text.Blank
import Soundworks.Text.DecimalDigit
/-!
Numbers as people write them: with spaces around them, in the digits of any script, and with
single underscores between digits.
-/

namespace Soundworks.Decimal

/-- A text without its underscores, each of which has to stand between two digits; `last` is the
character before the text. -/
def dropSeparators? (last : Char) : List Char → Option (List Char)
  | [] => some []
  | c :: cs =>
    if c = '_' then
      if last.isDigit ∧ (cs.head?.any Char.isDigit) then dropSeparators? '_' cs else none
    else (dropSeparators? c cs).map (c :: ·)

def plainForm? (s : String) : Option (List Char) :=
  dropSeparators? ' ' ((Text.trimWhile Text.isSpace s.toList).map Text.foldDigit)

def looseInteger? (s : String) : Option Int := do
  let (negative, digits) := splitSign (← plainForm? s)
  if digits ≠ [] ∧ digits.all Char.isDigit ∧ digits.length ≤ digitLimit then
    pure (if negative then -(ofDigits digits : Int) else ofDigits digits)
  else none

def looseNumber? (s : String) : Option Binary64 := do
  Binary64.ofChars? (← plainForm? s)

end Soundworks.Decimal
