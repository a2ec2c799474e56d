import Soundworks.Text.Blank
/-!
Environments, and the files that add variables to them. A line of such a file assigns a value to
a name; the value may stand in quotes, and may refer to other variables.
-/

namespace Soundworks

/-- The variables of an environment; a name occurs once. -/
abbrev Environment := List (String × String)

namespace Environment

def get? (env : Environment) (name : String) : Option String := env.lookup name

def set (env : Environment) (name value : String) : Environment :=
  if (env.lookup name).isSome then env.map fun v => if v.1 = name then (name, value) else v
  else env ++ [(name, value)]

def isGap (c : Char) : Bool := Text.isBlank c && c ≠ '\n' && c ≠ '\r'

def endsLine (c : Char) : Bool := c = '\n' || c = '\r'

def skipLine (cs : List Char) : List Char := cs.dropWhile fun c => !endsLine c

/-- A text after the word `export` and the gap behind it. -/
def skipExport : List Char → List Char
  | 'e' :: 'x' :: 'p' :: 'o' :: 'r' :: 't' :: c :: cs =>
    if isGap c then cs.dropWhile isGap else 'e' :: 'x' :: 'p' :: 'o' :: 'r' :: 't' :: c :: cs
  | cs => cs

/-- A name at the start of a text; it may stand in single quotes. -/
def readName? : List Char → Option (String × List Char)
  | '\'' :: cs =>
    let inside := cs.takeWhile (· ≠ '\'')
    match cs.dropWhile (· ≠ '\'') with
    | _ :: rest => if inside = [] then none else some (String.ofList inside, rest)
    | [] => none
  | cs =>
    let isNameChar := fun c => c ≠ '=' && c ≠ '#' && !Text.isBlank c
    let name := cs.takeWhile isNameChar
    if name = [] then none else some (String.ofList name, cs.dropWhile isNameChar)

/-- A quoted text up to its closing quote. A quote behind a backslash closes it only if no other
quote does; `fallback` is how the last such quote would close it. -/
def readQuoted (quote : Char) (read : List Char) (fallback : Option (List Char × List Char)) :
    List Char → Option (List Char × List Char)
  | [] => fallback
  | '\\' :: c :: cs =>
    if c = quote then
      readQuoted quote (c :: '\\' :: read) (some (('\\' :: read).reverse, cs)) cs
    else if c = '\\' then readQuoted quote ('\\' :: read) fallback ('\\' :: cs)
    else readQuoted quote (c :: '\\' :: read) fallback cs
  | c :: cs =>
    if c = quote then some (read.reverse, cs) else readQuoted quote (c :: read) fallback cs
termination_by cs => cs.length

def escapeChar? : Char → Option Char
  | '\\' => some '\\'
  | '\'' => some '\''
  | '"' => some '"'
  | 'a' => some '\x07'
  | 'b' => some '\x08'
  | 'f' => some '\x0c'
  | 'n' => some '\n'
  | 'r' => some '\r'
  | 't' => some '\t'
  | 'v' => some '\x0b'
  | _ => none

/-- Replaces the escapes of a quoted text; single quotes know only those of the backslash and
the single quote. -/
def unescape (quote : Char) : List Char → List Char
  | '\\' :: c :: cs =>
    let image := if quote = '"' ∨ c = '\\' ∨ c = '\'' then escapeChar? c else none
    match image with
    | some d => d :: unescape quote cs
    | none => '\\' :: unescape quote (c :: cs)
  | c :: cs => c :: unescape quote cs
  | [] => []
termination_by cs => cs.length

/-- A value without quotes: it ends at a blank before a number sign. -/
def dropComment : List Char → List Char
  | [] => []
  | c :: cs =>
    if Text.isBlank c ∧ (cs.dropWhile Text.isBlank).head? = some '#' then []
    else c :: dropComment cs

def readValue? : List Char → Option (String × List Char)
  | '\'' :: cs => (readQuoted '\'' [] none cs).map fun (v, rest) =>
      (String.ofList (unescape '\'' v), rest)
  | '"' :: cs => (readQuoted '"' [] none cs).map fun (v, rest) =>
      (String.ofList (unescape '"' v), rest)
  | cs =>
    let line := cs.takeWhile fun c => !endsLine c
    let value := ((dropComment line).reverse.dropWhile Text.isBlank).reverse
    some (String.ofList value, skipLine cs)

/-- The value behind an equals sign, if there is one. -/
def readAssignment? (cs : List Char) : Option (Option String × List Char) :=
  match cs.dropWhile isGap with
  | '=' :: rest => (readValue? (rest.dropWhile isGap)).map fun (v, rest) => (some v, rest)
  | rest => some (none, rest)

/-- The end of a line, after a comment. -/
def endLine? (cs : List Char) : Option (List Char) :=
  let rest := cs.dropWhile isGap
  let rest := if rest.head? = some '#' then skipLine rest else rest
  match rest with
  | [] => some []
  | c :: rest => if endsLine c then some rest else none

/-- A line that gives a value to a name, or names a variable without a value. -/
def readLine? (cs : List Char) : Option ((String × Option String) × List Char) := do
  let (name, rest) ← readName? (skipExport cs)
  let (value, rest) ← readAssignment? rest
  let rest ← endLine? rest
  pure ((name, value), rest)

/-- Where the reading of a line that is no assignment stops. -/
def errorPlace (cs : List Char) : List Char :=
  let cs := skipExport cs
  match readName? cs with
  | none => cs
  | some (_, rest) =>
    match readAssignment? rest with
    | some (_, rest) => rest.dropWhile isGap
    | none => rest

/-- The assignments of a file. A line that is none is left out. -/
def readWithin : Nat → List Char → List (String × Option String)
  | 0, _ => []
  | fuel + 1, cs =>
    match cs.dropWhile Text.isBlank with
    | [] => []
    | '#' :: rest => readWithin fuel (skipLine rest)
    | cs =>
      match readLine? cs with
      | some (binding, rest) => binding :: readWithin fuel rest
      | none => readWithin fuel (skipLine (errorPlace cs))

/-- The assignments of a file. Each step takes at least one character of it. -/
def readFile (text : String) : List (String × Option String) :=
  readWithin (text.toList.length + 1) text.toList

/-- A reference to a variable at the start of a text, after the dollar sign and the brace: its
name, what it stands for without a value, and the rest. -/
def readReference? (cs : List Char) : Option (String × String × List Char) :=
  let name := cs.takeWhile fun c => c ≠ '}' ∧ c ≠ ':'
  match cs.dropWhile fun c => c ≠ '}' ∧ c ≠ ':' with
  | '}' :: rest => some (String.ofList name, "", rest)
  | ':' :: '-' :: rest =>
    match rest.dropWhile (· ≠ '}') with
    | _ :: after => some (String.ofList name, String.ofList (rest.takeWhile (· ≠ '}')), after)
    | [] => none
  | _ => none

/-- Replaces the references in a value. -/
def interpolateWithin (find : String → Option String) : Nat → List Char → List Char
  | 0, _ => []
  | _, [] => []
  | fuel + 1, '$' :: '{' :: cs =>
    match readReference? cs with
    | some (name, default, rest) =>
      ((find name).getD default).toList ++ interpolateWithin find fuel rest
    | none => '$' :: interpolateWithin find fuel ('{' :: cs)
  | fuel + 1, c :: cs => c :: interpolateWithin find fuel cs

/-- What a reference stands for: the variable of the environment, or else the one that the file
has set so far. One that is named without a value is empty. -/
def referent (env : Environment) (set : List (String × Option String)) (name : String) :
    Option String :=
  match env.get? name with
  | some value => some value
  | none => (set.reverse.lookup name).map fun value => value.getD ""

/-- The values of a file with their references replaced. -/
def interpolate (env : Environment) (bindings : List (String × Option String)) :
    List (String × Option String) :=
  bindings.foldl
    (fun set (name, value) =>
      set ++ [(name, value.map fun v =>
        String.ofList (interpolateWithin (referent env set) v.toList.length v.toList))])
    []

/-- Adds the variables of a file that the environment does not have. Of several values of a name
the last one counts, also if it is missing. -/
def load (env : Environment) (text : String) : Environment :=
  let bindings := interpolate env (readFile text)
  bindings.foldl
    (fun added (name, _) =>
      if (env.get? name).isSome then added
      else
        match bindings.reverse.lookup name with
        | some (some value) => added.set name value
        | _ => added)
    env

end Environment

end Soundworks
