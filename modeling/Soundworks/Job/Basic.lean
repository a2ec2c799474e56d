import Soundworks.Media.Discovery
import Soundworks.Plan.Basic
import Soundworks.Queue.Basic
/-!
Jobs: one output made from one or several inputs. A job first prepares a call of the engine, and
then reports what came of it. Preparing looks at every input before it touches any file.
-/

namespace Soundworks

/-- One output to be made. -/
structure Job where
  inputs : List String
  output : String
  operations : OperationSet
  overwrite : Bool := false
  deriving DecidableEq

/-- What the engine is asked for. -/
structure EngineCall where
  plan : Plan
  inputs : List String
  output : String
  deriving DecidableEq

/-- How an engine fails: in a way that is known, or in an unexpected one. -/
inductive Failure where
  | known (message : String)
  | unexpected (message : String)
  deriving DecidableEq

def Failure.message : Failure → String
  | .known message => message
  | .unexpected message => "Unexpected error: " ++ message

/-- Why a job did not call the engine. -/
inductive JobError where
  | input (e : InputError)
  | output (e : OutputError)
  | plan (e : PlanError)
  deriving DecidableEq

def JobError.message : JobError → String
  | .input e => e.message
  | .output e => e.message
  | .plan e => e.message

/-- A job that does not get to its call: the output path as far as it is known, and why. -/
structure Setback where
  output : String
  error : JobError
  deriving DecidableEq

/-- Where jobs are done: how their paths are read, and what the processor can do. -/
structure Studio where
  place : Workplace
  capability : Capability
  deriving DecidableEq

namespace Job

def inputText (j : Job) : String := ", ".intercalate j.inputs

def report (j : Job) (output : String) (error : Option String) : Report where
  success := error.isNone
  inputPath := j.inputText
  outputPath := output
  elapsedMs := 0
  operations := j.operations
  error := error

def discarded (j : Job) : Report := j.report j.output (some discardMessage)

/-- The inputs that the engine reads; a single one is read once for each layer of a mix. -/
def engineInputs (j : Job) (c : Capability) (inputs : List String) : List String :=
  match inputs, j.operations.mixedLayers c with
  | [input], some layers => List.replicate layers.length input
  | inputs, _ => inputs

def call (j : Job) (s : Studio) (t : FileTree) (inputs : List String) (output : String) :
    Except JobError EngineCall := do
  (t.vacant s.place output j.overwrite).mapError JobError.input
  let inputs := j.engineInputs s.capability inputs
  let plan ← (j.operations.plan s.capability inputs.length).mapError JobError.plan
  pure { plan, inputs, output }

/-- Prepares the call of a job, or tells why there is none. -/
def prepare (j : Job) (s : Studio) (t : FileTree) : Except Setback EngineCall × FileTree :=
  match j.inputs.mapM (t.input s.place) with
  | .error e => (.error ⟨j.output, .input e⟩, t)
  | .ok inputs =>
    match t.output s.place j.output with
    | (.error e, t) => (.error ⟨j.output, .output e⟩, t)
    | (.ok output, t) => ((j.call s t inputs output).mapError fun e => ⟨output, e⟩, t)

def failed (j : Job) (s : Setback) : Report := j.report s.output (some s.error.message)

def conclude (j : Job) (call : EngineCall) (result : Except Failure Unit) : Report :=
  match result with
  | .ok () => j.report call.output none
  | .error f => j.report call.output (some f.message)

end Job

end Soundworks
