import Soundworks.Files.Path
import Soundworks.Text.Lines
import Soundworks.Text.Quoted
/-!
File trees. A tree lists what stands at each absolute path, given by its parts; the root is
always a directory.
-/

namespace Soundworks

/-- What stands at a path. -/
inductive Entry where
  | directory
  | file (text : String) (mode : Nat)
  deriving DecidableEq

/-- Why the file system refuses an operation. -/
inductive FileError where
  | notFound (path : String)
  | notDirectory (path : String)
  | isDirectory (path : String)
  | alreadyExists (path : String)
  | nameTooLong (path : String)
  | permissionDenied (path : String)
  | notProgram (path : String)
  | nullCharacter
  deriving DecidableEq

def numbered (n : Nat) (what path : String) : String :=
  "[Errno " ++ toString n ++ "] " ++ what ++ ": " ++ Text.literal path

def FileError.message : FileError → String
  | .notFound p => numbered 2 "No such file or directory" p
  | .notDirectory p => numbered 20 "Not a directory" p
  | .isDirectory p => numbered 21 "Is a directory" p
  | .alreadyExists p => numbered 17 "File exists" p
  | .nameTooLong p => numbered 36 "File name too long" p
  | .permissionDenied p => numbered 13 "Permission denied" p
  | .notProgram p => numbered 8 "Exec format error" p
  | .nullCharacter => "embedded null byte"

structure FileTree where
  entries : List (List String × Entry)
  deriving DecidableEq

namespace FileTree

def empty : FileTree := ⟨[]⟩

def lookup (t : FileTree) (path : List String) : Option Entry :=
  if path = [] then some .directory
  else (t.entries.find? fun e => e.1 = path).map (·.2)

def at? (t : FileTree) (path : String) : Option Entry := t.lookup (Path.parts path)

def isDirectory (t : FileTree) (path : String) : Bool :=
  t.at? path = some .directory

def isFile (t : FileTree) (path : String) : Bool :=
  match t.at? path with
  | some (.file ..) => true
  | _ => false

/-- Puts an entry at a path, in the place of what stands there. -/
def put (t : FileTree) (path : List String) (e : Entry) : FileTree :=
  if (t.entries.any fun f => f.1 = path) then
    ⟨t.entries.map fun f => if f.1 = path then (path, e) else f⟩
  else ⟨t.entries ++ [(path, e)]⟩

def children (t : FileTree) (path : List String) : List String :=
  t.entries.filterMap fun e =>
    if e.1.dropLast = path then e.1.getLast? else none

/-- The length of a name in bytes that the file system allows. -/
def nameLimit : Nat := 255

def entryError? (t : FileTree) (text : String) (path : List String) : Option FileError :=
  let name := path.getLast?.getD ""
  if '\x00' ∈ name.toList then some .nullCharacter
  else
    match t.lookup path.dropLast with
    | some (.file ..) => some (.notDirectory text)
    | none => some (.notFound text)
    | some .directory => if nameLimit < name.utf8ByteSize then some (.nameTooLong text) else none

def makeDirectory (t : FileTree) (r : Rights) (path : List String) : Except FileError FileTree :=
  let text := Path.ofParts path
  match t.lookup path, t.entryError? text path with
  | some _, _ => .error (.alreadyExists text)
  | none, some e => .error e
  | none, none =>
    if r.mayWrite path.dropLast then .ok (t.put path .directory)
    else .error (.permissionDenied text)

/-- Makes the directories of a path that are missing, from above. The directories that were
made before one failed remain. -/
def makeMissing (t : FileTree) (r : Rights) (above : List String) :
    List String → Option FileError × FileTree
  | [] => (none, t)
  | part :: rest =>
    let path := above ++ [part]
    if rest ≠ [] ∧ (t.lookup path).isSome then makeMissing t r path rest
    else
      match t.makeDirectory r path with
      | .ok t => makeMissing t r path rest
      | .error e => (some e, t)

/-- Makes a directory and those above it, unless it is there. -/
def makeDirectories (t : FileTree) (r : Rights) (path : String) : Option FileError × FileTree :=
  if t.isDirectory path then (none, t) else makeMissing t r [] (Path.parts path)

def write (t : FileTree) (path text : String) : Except FileError FileTree :=
  let parts := Path.parts path
  match t.lookup parts, t.entryError? path parts with
  | some .directory, _ => .error (.isDirectory path)
  | some (.file _ mode), _ => .ok (t.put parts (.file text mode))
  | none, some e => .error e
  | none, none => .ok (t.put parts (.file text 0o644))

/-- Follows the parts of a path step by step; a step to a parent needs a directory. -/
def walk (t : FileTree) : List String → List String → Option (List String)
  | here, [] => some here
  | here, part :: rest =>
    if t.lookup here ≠ some .directory then none
    else if part = "." then walk t here rest
    else if part = ".." then walk t here.dropLast rest
    else walk t (here ++ [part]) rest

/-- What a path leads to, step by step from a directory. -/
def resolve (t : FileTree) (directory path : String) : Option (List String × Entry) := do
  let parts ← t.walk [] (Path.parts (Path.join directory path))
  let entry ← t.lookup parts
  pure (parts, entry)

/-- A path leads to something; one that ends in a slash leads to directories only. -/
def present (t : FileTree) (directory path : String) : Bool :=
  match t.resolve directory path with
  | some (_, .directory) => path ≠ ""
  | some (_, .file ..) => path.toList.getLast? ≠ some '/'
  | none => false

def read (t : FileTree) (r : Rights) (directory path : String) : Except FileError String :=
  if '\x00' ∈ path.toList then .error .nullCharacter
  else if path = "" then .error (.notFound path)
  else
    match t.resolve directory path with
    | some (parts, .file text _) =>
      if path.toList.getLast? = some '/' then .error (.notDirectory path)
      else if r.mayRead parts then .ok (String.ofList (Text.unifyLineEnds text.toList))
      else .error (.permissionDenied path)
    | some (_, .directory) => .error (.isDirectory path)
    | none =>
      let parts := Path.parts path
      if parts.any fun p => nameLimit < p.utf8ByteSize then .error (.nameTooLong path)
      else .error (.notFound path)

end FileTree

end Soundworks
