import Soundworks.Text.Split
/-!
Alternatives in braces. `a{b,c}d` stands for `abd` and `acd`; inner groups are expanded before
the groups around them, and a brace without a partner stands for itself.
-/

namespace Soundworks.Braces

/-- The text before the first group without inner braces, the group, and the text after it. -/
def splitGroup? : List Char → Option (List Char × List Char × List Char)
  | [] => none
  | c :: cs =>
    let inside := cs.takeWhile fun d => d ≠ '{' ∧ d ≠ '}'
    match c, cs.dropWhile fun d => d ≠ '{' ∧ d ≠ '}' with
    | '{', '}' :: after => some ([], inside, after)
    | _, _ => (splitGroup? cs).map fun (before, group, after) => (c :: before, group, after)

/-- Expands at most `fuel` groups of each text one after the other. -/
def expandWithin : Nat → List Char → List (List Char)
  | 0, cs => [cs]
  | fuel + 1, cs =>
    match splitGroup? cs with
    | none => [cs]
    | some (before, group, after) =>
      (Text.splitAt ',' group).flatMap fun option => expandWithin fuel (before ++ option ++ after)

/-- All texts that a pattern stands for. An expansion removes one opening brace, so their count
bounds the expansions. -/
def expand (cs : List Char) : List (List Char) := expandWithin (cs.count '{') cs

end Soundworks.Braces
