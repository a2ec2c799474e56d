import Soundworks.Text.Blank
import Soundworks.Tool.Response
/-!
Faults below the tools, and the errors they are answered with. The message of a refused request
may start with a code and a colon, which then becomes the code of the error.
-/

namespace Soundworks

/-- What can go wrong below a tool. -/
inductive Fault where
  | rejected (r : Rejection)
  | refused (message : String)
  | unexpected (name message : String)
  deriving DecidableEq

namespace Fault

def startsCode (c : Char) : Bool := 'a' ≤ c ∧ c ≤ 'z'

def continuesCode (c : Char) : Bool := startsCode c || c.isDigit || c = '_'

/-- A code, and what follows it after a colon and blanks. -/
def splitCode? (message : String) : Option (String × String) :=
  let cs := message.toList
  let code := cs.takeWhile continuesCode
  match code, cs.dropWhile continuesCode with
  | c :: _, ':' :: detail =>
    if startsCode c then
      some (String.ofList code, String.ofList (detail.dropWhile Text.isBlank))
    else none
  | _, _ => none

/-- The code and the message of an error. -/
def describe : Fault → String × String
  | .rejected r => ("invalid_arguments", r.headline)
  | .refused message =>
    match splitCode? message with
    | some (code, detail) => (code, if detail = "" then code else detail)
    | none => ("invalid_request", message)
  | .unexpected name message => ("tool_execution_failed", if message = "" then name else message)

def toolError (toolName : String) (f : Fault) : ToolError :=
  { code := f.describe.1, message := f.describe.2, toolName := toolName }

end Fault

end Soundworks
