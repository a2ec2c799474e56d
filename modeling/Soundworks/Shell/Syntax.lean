/-!
The language of shell scripts: words that are expanded before they are used, and commands that
are built from words, lists, loops and choices.
-/

namespace Soundworks.Shell

/-- A piece of a word. What is not quoted is split at blanks after its expansion. -/
inductive Piece where
  | text (quoted : Bool) (s : String)
  | parameter (quoted : Bool) (name : String)
  | arithmetic (quoted : Bool) (expression : String)
  deriving DecidableEq

abbrev Word := List Piece

def plainText? : Word → Option String
  | [.text false s] => some s
  | _ => none

/-- What a redirection does with an output stream. -/
inductive Redirection where
  | toFile (stream : Nat) (append : Bool) (target : Word)
  | toStream (stream : Nat) (target : Word)
  | ofFile (target : Word)
  deriving DecidableEq

/-- A command of a script. -/
inductive Command where
  | skip
  | simple (line : Nat) (bindings : List (String × Word)) (words : List Word)
      (redirections : List Redirection)
  | sequence (first second : Command)
  | both (first second : Command)
  | either (first second : Command)
  | negate (c : Command)
  | loop (untilTrue : Bool) (condition body : Command)
  | forEach (name : String) (items : Option (List Word)) (body : Command)
  | branch (condition yes no : Command)
  | select (subject : Word) (arms : List (List Word × Command))
  | redirected (line : Nat) (c : Command) (redirections : List Redirection)

end Soundworks.Shell
