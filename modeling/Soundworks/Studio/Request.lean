import Soundworks.Expansion.Harmonics
import Soundworks.Expansion.Variation
import Soundworks.Job.Basic
import Soundworks.Preset.Table
import Soundworks.Tool.Fault
import Soundworks.Tool.Request
/-!
The jobs that a request stands for. A request is refused before any of its jobs is made.
-/

namespace Soundworks

/-- Why a request is refused. -/
inductive Refusal where
  | noSource
  | noDestination
  | noFiles (pattern : Option String) (directory : String)
  | input (e : InputError)
  | unsupported (feature : String)
  | noInputs
  | tooManyInputs
  | noIntervals
  | unknownPreset (name : String)
  | rejected (r : Rejection)
  deriving DecidableEq

namespace Refusal

/-- The message of a refusal, with its code in front. -/
def message : Refusal → String
  | .noSource => "invalid_arguments: Provide input_directory or input_file."
  | .noDestination => "invalid_arguments: Provide output_directory or output_file."
  | .noFiles pattern directory =>
    "no_files_found: No files match '" ++ (pattern.filter (· ≠ "")).getD "default pattern" ++
      "' in " ++ directory
  | .input e => e.message
  | .unsupported feature =>
    "unsupported_operation: " ++ feature ++ " requires the advanced processor."
  | .noInputs => "no_inputs: layer_sounds needs at least one input file."
  | .tooManyInputs =>
    "too_many_inputs: layer_sounds accepts at most " ++ toString maxLayers ++ " input files."
  | .noIntervals => "no_harmonics: Set at least one interval mix level above 0."
  | .unknownPreset name => Preset.unknownMessage name
  | .rejected r => r.headline

/-- A refusal as what goes wrong below a tool. -/
def fault : Refusal → Fault
  | .rejected r => .rejected r
  | r => .refused r.message

end Refusal

/-- A batch: where its files come from, and where its outputs go. -/
structure Batch where
  inputDirectory : Option String := none
  inputFile : Option String := none
  pattern : Option String := none
  outputDirectory : Option String := none
  outputFile : Option String := none
  suffix : String := defaultSuffix
  extension : Option String := none
  operations : OperationSet
  overwrite : Bool := false

namespace Batch

def given (s : Option String) : Option String := s.filter (· ≠ "")

def files (b : Batch) (w : Workplace) (t : FileTree) : Except Refusal (List String) :=
  match given b.inputFile, given b.inputDirectory with
  | some file, _ => .ok [file]
  | none, some directory =>
    match t.discover w directory b.pattern with
    | .error e => .error (.input e)
    | .ok [] => .error (.noFiles b.pattern directory)
    | .ok files => .ok files
  | none, none => .error .noSource

/-- Where the output of a file goes. -/
def destination (b : Batch) : Except Refusal (String → String) :=
  match given b.outputFile, given b.outputDirectory with
  | some file, _ => .ok fun _ => file
  | none, some directory => .ok fun path => derivedOutput path directory b.suffix b.extension
  | none, none => .error .noDestination

def job (b : Batch) (destination : String → String) (path : String) : Job where
  inputs := [path]
  output := destination path
  operations := b.operations
  overwrite := b.overwrite

/-- The jobs of a batch, in the order of its files. -/
def jobs (b : Batch) (w : Workplace) (t : FileTree) : Except Refusal (List Job) := do
  let files ← b.files w t
  let destination ← b.destination
  pure (files.map (b.job destination))

end Batch

def memberOutput (inputPath directory label : String) : String :=
  Path.join directory (Path.stem inputPath ++ "_" ++ label ++ Path.extension inputPath)

def memberJob (inputPath directory : String) (overwrite : Bool) (label : String)
    (operations : OperationSet) : Job where
  inputs := [inputPath]
  output := memberOutput inputPath directory label
  operations := operations
  overwrite := overwrite

namespace Studio

def require (s : Studio) (feature : String) : Except Refusal Unit :=
  match s.capability with
  | .basic => .error (.unsupported feature)
  | .advanced => .ok ()

/-- The job that mixes several files. -/
def layered (s : Studio) (inputs : List String) (output : String) (layering : Layering)
    (overwrite : Bool) : Except Refusal Job := do
  s.require "layering"
  if inputs = [] then throw .noInputs
  if maxLayers < inputs.length then throw .tooManyInputs
  pure { inputs, output, operations := { advanced := some { layering := layering } }, overwrite }

/-- The jobs of a set of variations, with the seed of the set. -/
def variations (s : Studio) (t : FileTree) (chosenSeed : Int) (inputPath directory : String)
    (ranges : VariationRanges) (base : OperationSet) (overwrite : Bool) :
    Except Refusal (Int × List Job) := do
  s.require "variations"
  let _ ← (t.input s.place inputPath).mapError Refusal.input
  let (seed, sets) ← (ranges.generate base chosenSeed).mapError Refusal.rejected
  let jobs := sets.zipIdx.map fun (operations, i) =>
    memberJob inputPath directory overwrite ("var" ++ toString (i + 1)) operations
  pure (seed, jobs)

/-- The jobs of a set of harmonics, one for each interval. -/
def harmonics (s : Studio) (t : FileTree) (inputPath directory : String) (h : Harmonics)
    (overwrite : Bool) : Except Refusal (List Job) := do
  s.require "harmonics"
  let _ ← (t.input s.place inputPath).mapError Refusal.input
  if h.intervals = [] then throw .noIntervals
  h.intervals.mapM fun i =>
    (i.operations.mapError Refusal.rejected).map (memberJob inputPath directory overwrite i.name)

end Studio

end Soundworks
