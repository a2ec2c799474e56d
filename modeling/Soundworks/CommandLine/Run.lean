import Soundworks.CommandLine.Source
import Soundworks.Json.Printer
import Soundworks.Settings.Basic
import Soundworks.Studio.Performer
import Soundworks.Studio.Request
/-!
Carrying out a command. The exit code is zero if everything succeeded, one if a job failed or the
engine is missing, and two if the command was refused; a refused command writes no document. A
command without an output breaks off, for its result has no place for that.
-/

namespace Soundworks

/-- Where a command is carried out: the directory it starts in, its variables, and the files with
what may be done to them. -/
structure Surroundings where
  directory : String
  environment : Environment
  tree : FileTree
  rights : Rights := {}

namespace Surroundings

def variableFile : String := ".env"

/-- The same surroundings with the variables of a file added, if it is there. -/
def withVariables (s : Surroundings) (path : String) : Except FileError Surroundings :=
  match s.tree.read s.rights s.directory path with
  | .ok text => .ok { s with environment := s.environment.load text }
  | .error (.permissionDenied path) => .error (.permissionDenied path)
  | .error _ => .ok s

def settings (s : Surroundings) : Settings := .ofEnvironment s.environment

def host (s : Surroundings) : Host :=
  { Host.ofEnvironment s.directory s.environment with rights := s.rights }

def engine (s : Surroundings) : Engine where
  host := s.host
  path := s.settings.enginePath
  limit := s.settings.engineTimeout.map .binary

def studio (s : Surroundings) : Studio where
  place := s.host.toWorkplace
  capability := if s.settings.advanced then .advanced else .basic

/-- A studio that does the given count of jobs at once. -/
def floor? (s : Surroundings) (concurrency : Int) : Option Floor :=
  (Queue.ofLimit? concurrency).map fun queue => { studio := s.studio, queue, tree := s.tree }

end Surroundings

/-- What a command leaves behind: its exit code, what it wrote, the files, and the calls of the
engine that it made for outputs. -/
structure Finish where
  code : Nat
  output : String := ""
  complaint : String := ""
  tree : FileTree
  calls : List EngineCall := []

/-- Why a command has no exit code: its arguments are not carried out, the variables beside it
cannot be read, or a result cannot be told. -/
inductive Halt where
  | stop (s : CommandLine.Stop)
  | variables (e : FileError)
  | result (r : Rejection)
  deriving DecidableEq

namespace CommandLine

def document (v : Value) : String := Json.pretty v ++ "\n"

def refuse (t : FileTree) (complaint : String) : Finish := { code := 2, complaint, tree := t }

def jobCode (successful : Bool) : Nat := if successful then 0 else 1

def listPresets (s : Surroundings) (category : Option String) : Finish where
  code := 0
  output := document (.list ((Preset.inCategory category).map Preset.form.dump))
  tree := s.tree

def statusValue (e : EngineStatus) : Value :=
  let text := fun (s : Option String) => s.elim Value.null Value.text
  .object [("available", .bool e.available), ("path", text e.path), ("version", text e.version)]

def check (s : Surroundings) : Finish :=
  match s.host.checkEngine s.tree s.settings.enginePath with
  | (.ok status, tree) =>
    { code := jobCode status.available, output := document (statusValue status), tree }
  | (.error flaw, tree) => { code := 1, complaint := flaw.message, tree }

def withoutOutput : Rejection := ⟨Report.form.title, [⟨[.key "output_path"], .notText⟩]⟩

def process (p : Performer) (f : Floor) (j : Job) : Finish :=
  let f := Floor.complete p (f.runSingle p j)
  match f.singles.head?.join with
  | some report =>
    { code := jobCode report.success, output := document (Report.form.dump report)
      tree := f.tree, calls := f.calls }
  | none => refuse f.tree ""

def batch (p : Performer) (f : Floor) (b : Batch) : Finish :=
  match b.jobs f.studio.place f.tree with
  | .error refusal => refuse f.tree refusal.message
  | .ok jobs =>
    let f := Floor.complete p (f.submit jobs)
    match f.reports? (List.range jobs.length) with
    | some reports =>
      let report := BatchReport.ofResults reports
      { code := jobCode (report.failed = 0), output := document (BatchReport.form.dump report)
        tree := f.tree, calls := f.calls }
    | none => refuse f.tree ""

/-- Loads operations and opens a studio, or refuses the command. -/
def withOperations (s : Surroundings) (source : OperationSource) (concurrency : Option Int)
    (k : Floor → OperationSet → Except Halt Finish) : Except Halt Finish :=
  match source.load s.tree s.rights s.directory with
  | .error e => .ok (refuse s.tree ("Invalid operations: " ++ e.message))
  | .ok operations =>
    if concurrency.any (· < 1) then .ok (refuse s.tree "--concurrency must be at least 1")
    else
      match s.floor? (concurrency.getD s.settings.concurrency) with
      | some f => k f operations
      | none => .ok (refuse s.tree concurrencyMessage)

/-- Carries out a command in its surroundings; the calls of its jobs are answered by a
performer. -/
def carryOut (s : Surroundings) (p : Performer) : Invocation → Except Halt Finish
  | .presets category => .ok (listPresets s category)
  | .check => .ok (check s)
  | .process input output source overwrite =>
    withOperations s source none fun f operations =>
      match output with
      | some output => .ok (process p f { inputs := [input], output, operations, overwrite })
      | none => .error (.result withoutOutput)
  | .batch inputDirectory outputDirectory pattern suffix extension concurrency source overwrite =>
    withOperations s source concurrency fun f operations =>
      .ok (batch p f
        { inputDirectory := some inputDirectory
          outputDirectory, pattern, suffix, extension, operations, overwrite })

/-- Carries out a command line, with the variables of the file beside it. -/
def runWith (performer : Surroundings → Performer) (s : Surroundings) (args : List String) :
    Except Halt Finish := do
  let i ← (parse args).mapError Halt.stop
  let s ← (s.withVariables Surroundings.variableFile).mapError Halt.variables
  carryOut s (performer s) i

/-- Carries out a command line with the engine that the settings choose. -/
def run (s : Surroundings) (args : List String) : Except Halt Finish :=
  runWith (fun s => .ofEngine s.engine) s args

end CommandLine

end Soundworks
