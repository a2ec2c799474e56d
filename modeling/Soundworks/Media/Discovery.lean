import Soundworks.Files.Braces
import Soundworks.Files.Glob
import Soundworks.Text.Case
/-!
Which files are sound files, where they are found, and where their outputs go.
-/

namespace Soundworks

/-- The extensions of sound files, in order. -/
def supportedExtensions : List String :=
  [".aac", ".aif", ".aiff", ".flac", ".m4a", ".mp3", ".ogg", ".wav"]

/-- An extension of a sound file, in any case. -/
def isSupported (path : String) : Bool :=
  Text.lower (Path.extension path) ∈ supportedExtensions

/-- Why an input is refused, or no input is found. -/
inductive InputError where
  | missing (path : String)
  | notRegular (path : String)
  | unreadable (path : String)
  | unsupported (extension : String)
  | noDirectory (path : String)
  | outputExists (path : String)
  deriving DecidableEq

def InputError.message : InputError → String
  | .missing path => "Input file not found: " ++ path
  | .notRegular path => "Input path is not a regular file: " ++ path
  | .unreadable path => "Input file is not readable: " ++ path
  | .unsupported extension =>
    "Unsupported input format '" ++ (if extension = "" then "(none)" else extension) ++
      "'. Supported: " ++ ", ".intercalate supportedExtensions
  | .noDirectory path => "no_files_found: Input directory not found: " ++ path
  | .outputExists path =>
    "Output file already exists: " ++ path ++ " (set overwrite=true to replace it)"

/-- Why no output can be written. -/
inductive OutputError where
  | file (e : FileError)
  | notWritable (directory : String)
  deriving DecidableEq

def OutputError.message : OutputError → String
  | .file e => e.message
  | .notWritable directory => "Output directory is not writable: " ++ directory

namespace FileTree

/-- The absolute path of an input, if it is a sound file that can be read. -/
def input (t : FileTree) (w : Workplace) (path : String) : Except InputError String :=
  let resolved := w.resolve path
  match t.at? resolved with
  | none => .error (.missing path)
  | some .directory => .error (.notRegular path)
  | some (.file ..) =>
    if !w.rights.mayRead (Path.parts resolved) then .error (.unreadable path)
    else if isSupported resolved then .ok resolved
    else .error (.unsupported (Text.lower (Path.extension resolved)))

/-- Makes the directory of an output if it is missing, and tells why nothing can be written in
it. -/
def outputDirectory (t : FileTree) (w : Workplace) (directory : String) :
    Option OutputError × FileTree :=
  match t.makeDirectories w.rights directory with
  | (some e, t) => (some (.file e), t)
  | (none, t) =>
    (if w.rights.mayWrite (Path.parts directory) then none else some (.notWritable directory), t)

/-- The absolute path of an output, whose directory is made if it is missing. -/
def output (t : FileTree) (w : Workplace) (path : String) :
    Except OutputError String × FileTree :=
  let resolved := w.resolve path
  match t.outputDirectory w (Path.parent resolved) with
  | (none, t) => (.ok resolved, t)
  | (some e, t) => (.error e, t)

/-- Refuses an output that is there, unless it may be replaced. -/
def vacant (t : FileTree) (w : Workplace) (path : String) (overwrite : Bool) :
    Except InputError Unit :=
  if t.present w.directory path ∧ !overwrite then .error (.outputExists path) else .ok ()

end FileTree

def defaultPattern : String :=
  "*.\x7b" ++ ",".intercalate (supportedExtensions.map fun e => String.ofList (e.toList.drop 1))
    ++ "\x7d"

/-- Inserts a text in an increasing list, unless it is there. -/
def insertIncreasing (s : String) : List String → List String
  | [] => [s]
  | t :: ts => if s < t then s :: t :: ts else if s = t then t :: ts else t :: insertIncreasing s ts

namespace FileTree

/-- The paths of the files that one alternative of a pattern leads to from a directory. -/
def filesMatching (t : FileTree) (directory : String) (pattern : List Char) : List String :=
  let recursive := (pattern.zip pattern.tail).any fun (a, b) => a = '*' && b = '*'
  let text := String.ofList pattern
  let parts := (Path.parts text).map (GlobPart.ofText recursive)
  let (start, doubled) :=
    if pattern.head? = some '/' then ([], Path.isDoubled text)
    else (Path.parts directory, Path.isDoubled directory)
  let found := if pattern.getLast? = some '/' then [] else t.glob start parts
  let files := found.filter fun path =>
    match t.lookup path with
    | some (.file ..) => true
    | _ => false
  files.map fun path =>
    if doubled then "/" ++ Path.ofParts path else Path.ofParts path

/-- The sound files of a directory that match a pattern, in order; without a pattern all files
with a supported extension. -/
def discover (t : FileTree) (w : Workplace) (directory : String) (pattern : Option String) :
    Except InputError (List String) :=
  let root := w.resolve directory
  if t.isDirectory root then
    let given := (pattern.filter (· ≠ "")).getD defaultPattern
    let found := (Braces.expand given.toList).flatMap (t.filesMatching root)
    let files := found.foldl (fun files path => insertIncreasing path files) []
    .ok (if pattern.isNone then files.filter isSupported else files)
  else .error (.noDirectory directory)

end FileTree

/-- The path of the output of an input: its stem and a suffix in another directory, with the
extension of the input or another one. -/
def derivedOutput (inputPath directory suffix : String) (extension : Option String) : String :=
  let own := Path.extension inputPath
  let ext := (extension.filter (· ≠ "")).elim own fun e =>
    String.ofList ('.' :: e.toList.dropWhile (· = '.'))
  Path.join directory (Path.stem inputPath ++ suffix ++ ext)

end Soundworks
