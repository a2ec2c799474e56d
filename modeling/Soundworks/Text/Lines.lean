/-!
Line boundaries. Besides the line feed and the carriage return, the other vertical separators
of ASCII and Unicode end a line.
-/

namespace Soundworks.Text

def endsLine (c : Char) : Bool :=
  let n := c.toNat
  (0x0a ≤ n && n ≤ 0x0d) || (0x1c ≤ n && n ≤ 0x1e) || n = 0x85 || n = 0x2028 || n = 0x2029

/-- The first line of a text, without its end. -/
def firstLine (s : String) : String :=
  String.ofList (s.toList.takeWhile fun c => !endsLine c)

def unifyLineEnds : List Char → List Char
  | '\r' :: '\n' :: cs => '\n' :: unifyLineEnds cs
  | '\r' :: cs => '\n' :: unifyLineEnds cs
  | c :: cs => c :: unifyLineEnds cs
  | [] => []

end Soundworks.Text
