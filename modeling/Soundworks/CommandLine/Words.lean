import Soundworks.Text.DecimalDigit
/-!
The words of a command line: values, options, and the double dash after which every word is a
value. The long name of an option may be shortened as long as it stays unambiguous, and its
value may follow an equals sign.
-/

namespace Soundworks.CommandLine

/-- Why a command line is not carried out. -/
inductive Stop where
  | help
  | usage
  deriving DecidableEq

/-- What a word is. -/
inductive Word where
  | value (text : String)
  | dashes
  | option (name : String) (attached : Option String)
  | help
  | unknown
  | ambiguous
  | wrong
  deriving DecidableEq

/-- A negative number is a value, although it starts with a dash. -/
def isNegativeNumber (cs : List Char) : Bool :=
  let cs := if cs.getLast? = some '\n' then cs.dropLast else cs
  let isDigit := fun c => (Text.digitValue? c).isSome
  match cs with
  | '-' :: rest =>
    match rest.dropWhile isDigit with
    | [] => rest ≠ []
    | '.' :: places => places ≠ [] && places.all isDigit
    | _ => false
  | _ => false

def splitAttached (cs : List Char) : List Char × Option String :=
  match cs.dropWhile (· ≠ '=') with
  | _ :: value => (cs.takeWhile (· ≠ '='), some (String.ofList value))
  | [] => (cs, none)

def otherWord (text : String) : Word :=
  if isNegativeNumber text.toList ∨ ' ' ∈ text.toList then .value text else .unknown

/-- The option of a name; the option for help takes no value. -/
def namedOption (name : String) (attached : Option String) : Word :=
  if name = "--help" then if attached.isSome then .wrong else .help else .option name attached

def longWord (names : List String) (text : String) : Word :=
  let (typed, attached) := splitAttached text.toList
  if text ∈ names then namedOption text none
  else if String.ofList typed ∈ names then namedOption (String.ofList typed) attached
  else
    match names.filter fun name => typed.isPrefixOf name.toList with
    | [] => otherWord text
    | [name] => namedOption name attached
    | _ => .ambiguous

/-- A word that starts with one dash. The only short option asks for help; what follows it in
the same word is read as more short options. -/
def shortWord (text : String) : List Char → Word
  | '-' :: 'h' :: [] => .help
  | '-' :: 'h' :: c :: _ => if c = '=' ∨ c = '-' then .wrong else .help
  | _ => otherWord text

/-- What a word is, given the names of the long options. -/
def classify (names : List String) (text : String) : Word :=
  match text.toList with
  | '-' :: '-' :: _ => longWord names text
  | '-' :: c :: _ => shortWord text ('-' :: c :: text.toList.drop 2)
  | _ => .value text

def classifyAll (names : List String) : List String → List Word
  | [] => []
  | text :: rest =>
    if text = "--" then .dashes :: rest.map .value
    else classify names text :: classifyAll names rest

end Soundworks.CommandLine
