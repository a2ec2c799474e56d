import Soundworks.CommandLine.Invocation
import Soundworks.Files.Tree
import Soundworks.Preset.Table
import Soundworks.Validation.Document
/-!
Loading the operations that a command names: those of a preset, of a JSON text or of a file.
-/

namespace Soundworks

/-- Why operations cannot be loaded. -/
inductive LoadError where
  | unknownPreset (name : String)
  | file (e : FileError)
  | rejected (r : Rejection)
  deriving DecidableEq

/-- The message of an error; a rejection is told by its first line. -/
def LoadError.message : LoadError → String
  | .unknownPreset name => Preset.unknownMessage name
  | .file e => e.message
  | .rejected r => r.headline

namespace OperationSource

def ofDocument (text : String) : Except LoadError OperationSet :=
  (OperationSet.form.validateDocument text).mapError .rejected

/-- The operations of a source. A preset is looked up first; a text that starts with `@` names a
file; an absent or empty text stands for no operations. -/
def load (s : OperationSource) (t : FileTree) (r : Rights) (directory : String) :
    Except LoadError OperationSet :=
  match s.preset.filter (· ≠ "") with
  | some name => ((Preset.find? name).map (·.operations)).elim (.error (.unknownPreset name)) .ok
  | none =>
    match (s.operations.getD "").toList with
    | [] => .ok {}
    | '@' :: path =>
      match t.read r directory (String.ofList path) with
      | .ok text => ofDocument text
      | .error e => .error (.file e)
    | text => ofDocument (String.ofList text)

end OperationSource

end Soundworks
