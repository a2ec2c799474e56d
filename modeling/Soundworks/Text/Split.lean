/-!
Splitting a text at a character. Every part is kept, so that joining them again gives the text.
-/

namespace Soundworks.Text

def splitAt (sep : Char) : List Char → List (List Char)
  | [] => [[]]
  | c :: cs =>
    if c = sep then [] :: splitAt sep cs
    else
      match splitAt sep cs with
      | [] => [[c]]
      | part :: parts => (c :: part) :: parts

def afterLast (sep : Char) (cs : List Char) : List Char :=
  (cs.reverse.takeWhile (· ≠ sep)).reverse

/-- A text up to its last `sep`, which is kept. -/
def throughLast (sep : Char) (cs : List Char) : List Char :=
  (cs.reverse.dropWhile (· ≠ sep)).reverse

theorem throughLast_append_afterLast (sep : Char) (cs : List Char) :
    throughLast sep cs ++ afterLast sep cs = cs := by
  rw [throughLast, afterLast, ← List.reverse_append, List.takeWhile_append_dropWhile,
    List.reverse_reverse]

end Soundworks.Text
