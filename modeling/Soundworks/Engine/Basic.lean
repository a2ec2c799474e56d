import Soundworks.Engine.Program
import Soundworks.Numeral
import Soundworks.Plan.Command
import Soundworks.Text.Lines
/-!
The audio engine: a program that carries out plans. It is looked for anew each time, and its
command line shows in the errors of a run that fails.
-/

namespace Soundworks

/-- Why a plan was not carried out. -/
inductive EngineError where
  | notFound
  | launch (e : FileError)
  | timedOut (limit : Numeral) (command : String)
  | failed (code : Int) (detail command : String)
  deriving DecidableEq

def EngineError.message : EngineError → String
  | .notFound => "ffmpeg_not_found: ffmpeg binary not found on PATH."
  | .launch e => e.message
  | .timedOut limit _ => "ffmpeg timed out after " ++ limit.text ++ "s"
  | .failed code detail _ =>
    "ffmpeg processing failed (rc=" ++ toString code ++ "): " ++
      (if detail = "" then "no output" else detail)

/-- The count of characters that are kept of what an engine complains about. -/
def detailLength : Nat := 600

def engineDetail (errors : List Nat) : String :=
  let cs := (Text.strip (Utf8.lossy errors)).toList
  String.ofList (cs.drop (cs.length - detailLength))

/-- An engine: the path that was given for it, and how many seconds a run may take. -/
structure Engine where
  host : Host
  path : Option String := none
  limit : Option Numeral := none

namespace Engine

def binary (e : Engine) (t : FileTree) : Except EngineError String :=
  (e.host.engine? t e.path).elim (.error .notFound) .ok

def command (e : Engine) (t : FileTree) (p : Plan) (inputs : List String) (output : String) :
    Except EngineError (List String) :=
  (e.binary t).map fun binary => p.command binary inputs output

def seconds (e : Engine) : Option Binary64 :=
  e.limit.map fun
    | .integer n => .ofInt n
    | .binary x => x

/-- What the end of a run means. -/
def conclude (e : Engine) (words : List String) (c : Completion) : Except EngineError Unit :=
  match c.code with
  | some 0 => .ok ()
  | some code => .error (.failed code (engineDetail c.errors) (Text.shellLine words))
  | none => .error (.timedOut (e.limit.getD (.integer 0)) (Text.shellLine words))

def execute (e : Engine) (t : FileTree) (p : Plan) (inputs : List String) (output : String) :
    Except EngineError Unit × FileTree :=
  match e.command t p inputs output with
  | .error error => (.error error, t)
  | .ok words =>
    match e.host.launch t (words.headD "") words.tail e.seconds with
    | .error error => (.error (.launch error), t)
    | .ok c => (e.conclude words c, c.tree)

end Engine

/-- Whether an engine is there, where, and what it says its version is. -/
structure EngineStatus where
  available : Bool
  path : Option String := none
  version : Option String := none
  deriving DecidableEq

/-- The seconds that an engine may take to tell its version. -/
def versionLimit : Binary64 := 10

/-- The version in what an engine wrote: its first line. -/
def versionOf (c : Completion) : Except Utf8.Flaw (Option String) :=
  if c.code = none then .ok none
  else do
    let text ← Utf8.strict c.output
    let _ ← Utf8.strict c.errors
    let line := Text.firstLine (String.ofList (Text.unifyLineEnds text.toList))
    pure (if text = "" then none else some line)

def Host.checkEngine (h : Host) (t : FileTree) (given : Option String) :
    Except Utf8.Flaw EngineStatus × FileTree :=
  match h.engine? t given with
  | none => (.ok { available := false }, t)
  | some path =>
    match h.launch t path ["-version"] (some versionLimit) with
    | .error _ => (.ok { available := true, path := path }, t)
    | .ok c =>
      ((versionOf c).map fun version => { available := true, path := path, version := version },
        c.tree)

end Soundworks
