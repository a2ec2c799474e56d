import Soundworks.Files.Glob
import Soundworks.Settings.Environment
/-!
Where the audio engine is. A path given by the user comes first, then the search path, then the
places where installers put the program.
-/

namespace Soundworks

/-- A workplace with the directories in which programs are searched. -/
structure Host extends Workplace where
  searchPath : List String
  deriving DecidableEq

def Host.ofEnvironment (directory : String) (env : Environment) : Host where
  directory := directory
  home := (env.get? "HOME").getD ""
  searchPath := ((env.get? "PATH").filter (· ≠ "")).elim [] fun path =>
    (Text.splitAt ':' path.toList).map String.ofList

def isExecutable (mode : Nat) : Bool := mode &&& 0o111 ≠ 0

namespace FileTree

def isProgram (t : FileTree) (directory path : String) : Bool :=
  match t.resolve directory path with
  | some (_, .file _ mode) => isExecutable mode && path.toList.getLast? ≠ some '/'
  | _ => false

end FileTree

namespace Host

def candidates (h : Host) (name : String) : List String :=
  if '/' ∈ name.toList then [name] else h.searchPath.map fun d => Path.join d name

def program? (h : Host) (t : FileTree) (name : String) : Option String :=
  (h.candidates name).find? (t.isProgram h.directory)

def userPrograms (h : Host) : String :=
  Path.join (Path.tidy (Path.expandHome h.home "~")) "AppData/Local/Microsoft/WinGet"

/-- The places of an engine outside the search path. -/
def installations (h : Host) : List String :=
  ["/usr/local/bin/ffmpeg", "/opt/homebrew/bin/ffmpeg",
    Path.join h.userPrograms "Links/ffmpeg.exe"]

def packagePattern : List GlobPart :=
  [.pattern true (Wildcard.read "Gyan.FFmpeg.*".toList), .pattern true [.star], .name "bin",
    .name "ffmpeg.exe"]

/-- The first engine among the packages of a user. -/
def packaged? (h : Host) (t : FileTree) : Option String := do
  let root := Path.join h.userPrograms "Packages"
  let (base, _) ← t.resolve h.directory root
  let found ← (t.glob base packagePattern).head?
  pure (Path.join root ("/".intercalate (found.drop base.length)))

/-- The path of the engine; a path that is given has to lead to something, or be the name of a
program. -/
def engine? (h : Host) (t : FileTree) (given : Option String) : Option String :=
  match given.filter (· ≠ "") with
  | some path =>
    let tidied := Path.tidy path
    if t.present h.directory tidied then some tidied
    else (h.program? t path).map Path.tidy
  | none =>
    (h.program? t "ffmpeg").map Path.tidy <|>
      h.installations.find? (t.present h.directory) <|> h.packaged? t

end Host

end Soundworks
