import Soundworks.Json.Value
import Soundworks.Text.Blank
/-!
What can be wrong with a value that is read as an operation or a request: a reason, with its
code and message, and the place in the value where it was found.
-/

namespace Soundworks

/-- Whether a value was read from a document or was at hand. -/
inductive Source where
  | document
  | value
  deriving DecidableEq

/-- Why a value is refused. -/
inductive Reason where
  | missing
  | unknownKey
  | notObject (title : String) (source : Source)
  | notNumber
  | unreadableNumber
  | notInteger
  | unreadableInteger
  | fractionalInteger
  | infiniteInteger
  | oversizedInteger
  | notBool
  | unreadableBool
  | notText
  | notList
  | notMember (members : List String)
  | belowLeast (bound : Binary64)
  | aboveMost (bound : Binary64)
  | tooFew (least actual : Nat)
  | tooMany (most actual : Nat)
  | countMismatch
  | invalidDocument
  deriving DecidableEq

/-- The last of several words follows an "or". -/
def joinOr : List String → String
  | [] => ""
  | [w] => w
  | [v, w] => v ++ " or " ++ w
  | w :: ws => w ++ ", " ++ joinOr ws

def itemCount (n : Nat) : String :=
  toString n ++ (if n = 1 then " item" else " items")

namespace Reason

def code : Reason → String
  | .missing => "missing"
  | .unknownKey => "extra_forbidden"
  | .notObject .. => "model_type"
  | .notNumber => "float_type"
  | .unreadableNumber => "float_parsing"
  | .notInteger => "int_type"
  | .unreadableInteger => "int_parsing"
  | .fractionalInteger => "int_from_float"
  | .infiniteInteger => "finite_number"
  | .oversizedInteger => "int_parsing_size"
  | .notBool => "bool_type"
  | .unreadableBool => "bool_parsing"
  | .notText => "string_type"
  | .notList => "list_type"
  | .notMember _ => "literal_error"
  | .belowLeast _ => "greater_than_equal"
  | .aboveMost _ => "less_than_equal"
  | .tooFew .. => "too_short"
  | .tooMany .. => "too_long"
  | .countMismatch => "value_error"
  | .invalidDocument => "json_invalid"

def message : Reason → String
  | .missing => "Field required"
  | .unknownKey => "Extra inputs are not permitted"
  | .notObject _ .document => "Input should be an object"
  | .notObject title .value => "Input should be a valid dictionary or instance of " ++ title
  | .notNumber => "Input should be a valid number"
  | .unreadableNumber => "Input should be a valid number, unable to parse string as a number"
  | .notInteger => "Input should be a valid integer"
  | .unreadableInteger => "Input should be a valid integer, unable to parse string as an integer"
  | .fractionalInteger => "Input should be a valid integer, got a number with a fractional part"
  | .infiniteInteger => "Input should be a finite number"
  | .oversizedInteger => "Unable to parse input string as an integer, exceeded maximum size"
  | .notBool => "Input should be a valid boolean"
  | .unreadableBool => "Input should be a valid boolean, unable to interpret input"
  | .notText => "Input should be a valid string"
  | .notList => "Input should be a valid list"
  | .notMember members => "Input should be " ++ joinOr members
  | .belowLeast bound => "Input should be greater than or equal to " ++ bound.plain
  | .aboveMost bound => "Input should be less than or equal to " ++ bound.plain
  | .tooFew least actual =>
    "List should have at least " ++ itemCount least ++ " after validation, not " ++ toString actual
  | .tooMany most actual =>
    "List should have at most " ++ itemCount most ++ " after validation, not " ++ toString actual
  | .countMismatch => "Value error, file_count_mismatch"
  | .invalidDocument => "Invalid JSON"

end Reason

/-- One step into a value. -/
inductive Step where
  | key (name : String)
  | index (i : Nat)
  deriving DecidableEq

/-- A reason and the place it concerns. -/
structure Issue where
  path : List Step
  reason : Reason
  deriving DecidableEq

/-- The same issue, seen from one level further out. -/
def Issue.under (step : Step) (i : Issue) : Issue := { i with path := step :: i.path }

abbrev Checked (α : Type) := Except (List Issue) α

namespace Checked

def fail {α : Type} (r : Reason) : Checked α := .error [⟨[], r⟩]

def under {α : Type} (step : Step) : Checked α → Checked α
  | .ok a => .ok a
  | .error issues => .error (issues.map (Issue.under step))

/-- Applies a function to an argument; the issues of both are kept, those of the function
first. -/
def apply {α β : Type} : Checked (α → β) → Checked α → Checked β
  | .ok f, .ok a => .ok (f a)
  | .ok _, .error issues => .error issues
  | .error issues, .ok _ => .error issues
  | .error issues, .error more => .error (issues ++ more)

end Checked

/-- A refused value: the title of what it should have been, and the issues. -/
structure Rejection where
  title : String
  issues : List Issue
  deriving DecidableEq

def Rejection.headline (r : Rejection) : String :=
  let n := r.issues.length
  toString n ++ (if n = 1 then " validation error for " else " validation errors for ") ++ r.title

end Soundworks
