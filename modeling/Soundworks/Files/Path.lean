import Soundworks.Text.Split
/-!
Paths as texts: their parts, names and extensions, and the absolute path of a path that is
relative to a directory or to the home directory.
-/

namespace Soundworks

/-- What may not be done to files: those that cannot be read, and the directories in which nothing
can be written, by the parts of their paths. -/
structure Rights where
  unreadable : List (List String) := []
  unwritable : List (List String) := []
  deriving DecidableEq

namespace Rights

def mayRead (r : Rights) (path : List String) : Bool := path ∉ r.unreadable

def mayWrite (r : Rights) (path : List String) : Bool := path ∉ r.unwritable

end Rights

/-- Where relative paths start, and what may be done to files. -/
structure Workplace where
  directory : String
  home : String
  rights : Rights := {}
  deriving DecidableEq

namespace Path

/-- The parts of a path between its slashes, without the empty ones. -/
def parts (p : String) : List String :=
  ((Text.splitAt '/' p.toList).filter (· ≠ [])).map String.ofList

def name (p : String) : String := String.ofList (Text.afterLast '/' p.toList)

/-- A path without its name and the slashes in front of it; the slash of a root stays. -/
def parent (p : String) : String :=
  let head := Text.throughLast '/' p.toList
  let trimmed := (head.reverse.dropWhile (· = '/')).reverse
  String.ofList (if trimmed = [] then head else trimmed)

/-- A name without its extension, and the extension with its dot. Dots at the start of a name
are not the start of an extension. -/
def splitName (name : List Char) : List Char × List Char :=
  let body := name.dropWhile (· = '.')
  if '.' ∈ body then
    (name.takeWhile (· = '.') ++ (Text.throughLast '.' body).dropLast,
      '.' :: Text.afterLast '.' body)
  else (name, [])

/-- The extension of a path, with its dot. -/
def extension (p : String) : String :=
  String.ofList (splitName (Text.afterLast '/' p.toList)).2

/-- The name of a path without its extension. -/
def stem (p : String) : String :=
  String.ofList (splitName (Text.afterLast '/' p.toList)).1

/-- A path below a directory; an absolute path stays as it is. -/
def join (directory p : String) : String :=
  if p.toList.head? = some '/' then p
  else if directory = "" ∨ directory.toList.getLast? = some '/' then directory ++ p
  else directory ++ "/" ++ p

/-- Adds a part to the parts of an absolute path, the last one first. -/
def descend (stack : List String) (part : String) : List String :=
  if part = "." then stack else if part = ".." then stack.drop 1 else part :: stack

/-- The parts of an absolute path without the steps to itself and to a parent. -/
def collapse (parts : List String) : List String := (parts.foldl descend []).reverse

def ofParts (parts : List String) : String := "/" ++ "/".intercalate parts

/-- A path that starts with exactly two slashes. -/
def isDoubled (p : String) : Bool :=
  match p.toList with
  | '/' :: '/' :: '/' :: _ => false
  | '/' :: '/' :: _ => true
  | _ => false

/-- The absolute form of a path. Two slashes at the start are kept. -/
def absolute (directory p : String) : String :=
  let whole := join directory p
  let text := ofParts (collapse (parts whole))
  if isDoubled whole then "/" ++ text else text

/-- A path without doubled slashes and steps to itself. Two slashes at the start are kept, and
steps to a parent too. -/
def tidy (p : String) : String :=
  let body := "/".intercalate ((parts p).filter (· ≠ "."))
  if isDoubled p then "//" ++ body
  else if p.toList.head? = some '/' then "/" ++ body
  else if body = "" then "." else body

/-- Replaces a tilde at the start by the home directory. -/
def expandHome (home p : String) : String :=
  match p.toList with
  | '~' :: rest =>
    if rest = [] ∨ rest.head? = some '/' then
      let base := (home.toList.reverse.dropWhile (· = '/')).reverse
      let whole := base ++ rest
      if whole = [] then "/" else String.ofList whole
    else p
  | _ => p

end Path

/-- The absolute form of a path as a user gives it. -/
def Workplace.resolve (w : Workplace) (p : String) : String :=
  Path.absolute w.directory (Path.expandHome w.home p)

end Soundworks
