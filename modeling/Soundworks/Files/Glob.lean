import Soundworks.Files.Tree
import Soundworks.Files.Wildcard
/-!
Finding the paths that a pattern with several parts leads to. Names that start with a dot are
matched only by patterns that start with one.
-/

namespace Soundworks

/-- One part of a pattern. -/
inductive GlobPart where
  | name (part : String)
  | pattern (dotted : Bool) (wildcards : List Wildcard)
  | anyDepth
  deriving DecidableEq

namespace GlobPart

def isHidden (name : String) : Bool := name.toList.head? = some '.'

/-- The part of a pattern that a text denotes; two stars stand for any depth if the pattern may
be recursive. -/
def ofText (recursive : Bool) (part : String) : GlobPart :=
  if recursive ∧ part = "**" then .anyDepth
  else if Wildcard.isPattern part.toList then
    .pattern (isHidden part) (Wildcard.read part.toList)
  else .name part

def admits (dotted : Bool) (wildcards : List Wildcard) (name : String) : Bool :=
  (dotted || !isHidden name) && Wildcard.matchesAll wildcards name.toList

end GlobPart

namespace FileTree

/-- All directories and files below a path that are not hidden, and the path itself. The depth
of a tree is bounded by the length of its longest path. -/
def descendants (t : FileTree) : Nat → List String → List (List String)
  | 0, path => [path]
  | depth + 1, path =>
    path :: ((t.children path).filter fun name => !GlobPart.isHidden name).flatMap fun name =>
      descendants t depth (path ++ [name])

def depth (t : FileTree) : Nat := (t.entries.map fun e => e.1.length).foldl max 0

def stepTo (t : FileTree) (path : List String) : GlobPart → List (List String)
  | .name part =>
    match t.walk path [part] with
    | some next => if (t.lookup next).isSome then [next] else []
    | none => []
  | .pattern dotted wildcards =>
    if t.lookup path = some .directory then
      ((t.children path).filter (GlobPart.admits dotted wildcards)).map fun name => path ++ [name]
    else []
  | .anyDepth => if t.lookup path = some .directory then t.descendants t.depth path else []

def glob (t : FileTree) (path : List String) : List GlobPart → List (List String)
  | [] => [path]
  | part :: rest => (t.stepTo path part).flatMap fun next => glob t next rest

end FileTree

end Soundworks
