import Soundworks.CommandLine.Words
import Soundworks.Decimal.Loose
import Soundworks.Tool.Request
/-!
The commands and how each one is read from the words of a command line.
-/

namespace Soundworks

/-- Where the operations of a command come from. -/
structure OperationSource where
  preset : Option String
  operations : Option String
  deriving DecidableEq

/-- A command with its arguments. Where its output goes may be left open, by a double dash in its
place. -/
inductive Invocation where
  | process (input : String) (output : Option String) (source : OperationSource)
      (overwrite : Bool)
  | batch (inputDirectory : String) (outputDirectory : Option String) (pattern : Option String)
      (suffix : String) (extension : Option String) (concurrency : Option Int)
      (source : OperationSource) (overwrite : Bool)
  | presets (category : Option String)
  | check
  deriving DecidableEq

namespace CommandLine

/-- The shape of a command: how many values it has, and its options with whether they take a
value. -/
structure Shape where
  places : Nat
  options : List (String × Bool)

/-- What has been read of a command: the values in its places and its options, whether something was
left over, and whether a value or the double dash in front of one came last. -/
structure Given where
  values : List (Option String) := []
  options : List (String × Option String) := []
  surplus : Bool := false
  afterValue : Bool := false
  afterDashes : Bool := false

namespace Given

def find? (g : Given) (name : String) : Option String :=
  (g.options.reverse.lookup name).bind id

def has (g : Given) (name : String) : Bool := g.options.any fun o => o.1 = name

def place (g : Given) (i : Nat) : Option String := g.values[i]?.join

end Given

/-- An option may be given beside the ones before it. The two sources of operations exclude each
other, and a concurrency is an integer. -/
def mayFollow (g : Given) (name : String) (value : Option String) : Bool :=
  if name = "--preset" then !g.has "--operations"
  else if name = "--operations" then !g.has "--preset"
  else if name = "--concurrency" then (value.bind Decimal.looseInteger?).isSome
  else true

def Given.record (g : Given) (name : String) (value : Option String) : Except Stop Given :=
  if mayFollow g name value then
    .ok { g with options := g.options ++ [(name, value)], afterValue := false }
  else .error .usage

/-- Reads the words of a command one after the other. Double dashes count as part of a value
beside them. They are taken out of its text, so that nothing is left of a value that is itself a
double dash, unless there is one in front of it. -/
def scan (shape : Shape) : Given → List Word → Except Stop Given
  | g, [] => .ok g
  | g, .value s :: rest =>
    if g.values.length < shape.places then
      let value := if s = "--" ∧ !g.afterDashes then none else some s
      scan shape { g with values := g.values ++ [value], afterValue := true, afterDashes := false }
        rest
    else scan shape { g with surplus := true, afterValue := false } rest
  | g, .dashes :: rest =>
    let leads := rest.head?.any fun w => w matches .value _
    let joined := g.afterValue ∨ (g.values.length < shape.places ∧ leads)
    scan shape
      { g with
        surplus := g.surplus || !decide joined
        afterValue := false
        afterDashes := !g.afterValue } rest
  | g, .option name attached :: rest =>
    if shape.options.lookup name = some true then
      match attached with
      | some v => do scan shape (← g.record name (some v)) rest
      | none =>
        match rest with
        | .value v :: rest => do scan shape (← g.record name (some v)) rest
        | _ => .error .usage
    else if attached.isSome then .error .usage
    else do scan shape (← g.record name none) rest
  | g, .unknown :: rest => scan shape { g with surplus := true, afterValue := false } rest
  | _, .help :: _ => .error .help
  | _, .ambiguous :: _ => .error .usage
  | _, .wrong :: _ => .error .usage

/-- Reads the arguments of a command; every place has to be filled, and nothing is left over. -/
def read (shape : Shape) (args : List String) : Except Stop Given := do
  let words := classifyAll ("--help" :: shape.options.map (·.1)) args
  if .ambiguous ∈ words then throw .usage
  let g ← scan shape {} words
  if g.values.length < shape.places ∨ g.surplus then throw .usage
  pure g

def operationOptions : List (String × Bool) :=
  [("--preset", true), ("--operations", true), ("--overwrite", false)]

def Given.source (g : Given) : OperationSource :=
  { preset := g.find? "--preset", operations := g.find? "--operations" }

def processShape : Shape := ⟨2, operationOptions⟩

def batchShape : Shape :=
  ⟨2, [("--pattern", true), ("--suffix", true), ("--format", true), ("--concurrency", true)] ++
    operationOptions⟩

def presetsShape : Shape := ⟨0, [("--category", true)]⟩

def readCommand (name : String) (args : List String) : Except Stop Invocation :=
  match name with
  | "process" => do
    let g ← read processShape args
    pure (.process ((g.place 0).getD "") (g.place 1) g.source (g.has "--overwrite"))
  | "batch" => do
    let g ← read batchShape args
    pure (.batch ((g.place 0).getD "") (g.place 1) (g.find? "--pattern")
      ((g.find? "--suffix").getD defaultSuffix) (g.find? "--format")
      ((g.find? "--concurrency").bind Decimal.looseInteger?) g.source (g.has "--overwrite"))
  | "presets" => do
    let g ← read presetsShape args
    pure (.presets (g.find? "--category"))
  | "check" => do
    let _ ← read ⟨0, []⟩ args
    pure .check
  | _ => .error .usage

/-- Reads a command line: a command and its arguments. -/
def parse : List String → Except Stop Invocation
  | [] => .error .usage
  | text :: rest =>
    if text = "--" then .error .usage
    else
      match classify ["--help"] text with
      | .value name => readCommand name rest
      | .help => .error .help
      | .unknown =>
        match parse rest with
        | .error .help => .error .help
        | _ => .error .usage
      | _ => .error .usage

end CommandLine

end Soundworks
