import Soundworks.Validation.Coercion
/-!
Schemas: how a type is read from dynamic values and written back. A `Form` is the schema of a
record. Its fields are read in the order of their declaration and all their issues are kept;
keys that belong to no field come last, in the order of the value.
-/

namespace Soundworks

/-- A reader and a writer of a type. The writer leaves out absent optional fields unless the
dump is to be full. -/
structure Schema (α : Type) where
  read : Source → Value → Checked α
  write : Bool → α → Value

/-- The bounds of a number, both included. -/
structure Bounds where
  least : Option Binary64
  most : Option Binary64

namespace Bounds

def unbounded : Bounds := ⟨none, none⟩

def atLeast (least : Binary64) : Bounds := ⟨some least, none⟩

def between (least most : Binary64) : Bounds := ⟨some least, some most⟩

/-- Refuses a number outside the bounds; the upper bound is tested first, and the undefined
number fails every bound. -/
def check (b : Bounds) (x : Binary64) : Checked Binary64 :=
  match b.most.filter (fun m => !decide (x ≤ m)), b.least.filter (fun l => !decide (l ≤ x)) with
  | some m, _ => .fail (.aboveMost m)
  | none, some l => .fail (.belowLeast l)
  | none, none => .ok x

end Bounds

/-- The bounds of an integer, both included. -/
structure Limits where
  least : Option Int
  most : Option Int

namespace Limits

def unlimited : Limits := ⟨none, none⟩

def atLeast (least : Int) : Limits := ⟨some least, none⟩

def between (least most : Int) : Limits := ⟨some least, some most⟩

def check (b : Limits) (n : Int) : Checked Int :=
  match b.most.filter (· < n), b.least.filter (n < ·) with
  | some m, _ => .fail (.aboveMost (.ofInt m))
  | none, some l => .fail (.belowLeast (.ofInt l))
  | none, none => .ok n

end Limits

namespace Schema

def number (b : Bounds) : Schema Binary64 where
  read _ v := (Coercion.number v).bind b.check
  write _ x := .number x

def integer (b : Limits) : Schema Int where
  read _ v := (Coercion.integer v).bind b.check
  write _ n := .integer n

def bool : Schema Bool where
  read _ v := Coercion.bool v
  write _ b := .bool b

def text : Schema String where
  read _ v := Coercion.text v
  write _ s := .text s

def word {α : Type} (members : List α) (name : α → String) : Schema α where
  read _ v :=
    let refused := Checked.fail (.notMember (members.map fun a => "'" ++ name a ++ "'"))
    match v with
    | .text s => ((members.find? fun a => name a = s).map Except.ok).getD refused
    | _ => refused
  write _ a := .text (name a)

/-- One of several integers; a number or a truth value of equal value stands for the member. -/
def magnitude {α : Type} (members : List α) (size : α → Int) : Schema α where
  read _ v :=
    let refused := Checked.fail (.notMember (members.map fun a => toString (size a)))
    let pick := fun n => ((members.find? fun a => size a = n).map Except.ok).getD refused
    match v with
    | .integer n =>
      if -Coercion.wordLimit ≤ n ∧ n < Coercion.wordLimit then pick n
      else .fail .oversizedInteger
    | .number x => (x.toInt?.map pick).getD refused
    | .bool b => pick (if b then 1 else 0)
    | _ => refused
  write _ a := .integer (size a)

/-- Null, or a value of another schema. -/
def nullable {α : Type} (s : Schema α) : Schema (Option α) where
  read source v :=
    match v with
    | .null => .ok none
    | v => (s.read source v).map some
  write full
    | none => .null
    | some a => s.write full a

/-- Reads the items of a list from the given index on; all their issues are kept. -/
def readItems {α : Type} (s : Schema α) (source : Source) : Nat → List Value → Checked (List α)
  | _, [] => .ok []
  | i, v :: vs =>
    Checked.apply (((s.read source v).under (.index i)).map List.cons)
      (readItems s source (i + 1) vs)

/-- A list; one that is too long is refused before its items are looked at. -/
def list {α : Type} (s : Schema α) (least : Nat := 0) (most : Option Nat := none) :
    Schema (List α) where
  read source v :=
    match v with
    | .list items =>
      match most.filter (· < items.length) with
      | some m => .fail (.tooMany m items.length)
      | none =>
        match readItems s source 0 items with
        | .error issues => .error issues
        | .ok values =>
          if values.length < least then .fail (.tooFew least values.length) else .ok values
    | _ => .fail .notList
  write full values := .list (values.map (s.write full))

end Schema

/-- A field of a record of type `ρ`: its name, how it is read when present or absent, and how it
is written. -/
structure Field (ρ α : Type) where
  name : String
  read : Source → Option Value → Checked α
  write : Bool → ρ → Option Value

namespace Field

variable {ρ α : Type}

def required (name : String) (s : Schema α) (get : ρ → α) : Field ρ α where
  name := name
  read source
    | some v => s.read source v
    | none => .fail .missing
  write full r := some (s.write full (get r))

def withDefault (name : String) (s : Schema α) (get : ρ → α) (value : α) : Field ρ α where
  name := name
  read source
    | some v => s.read source v
    | none => .ok value
  write full r := some (s.write full (get r))

def optional (name : String) (s : Schema α) (get : ρ → Option α) : Field ρ (Option α) where
  name := name
  read source
    | some v => s.nullable.read source v
    | none => .ok none
  write full r :=
    match get r with
    | some a => some (s.write full a)
    | none => if full then some .null else none

end Field

/-- The first fields of a record of type `ρ`, and what can be built from them. -/
structure Fields (ρ α : Type) where
  names : List String
  read : Source → List (String × Value) → Checked α
  write : Bool → ρ → List (String × Value)

namespace Fields

variable {ρ α β : Type}

def build (a : α) : Fields ρ α := ⟨[], fun _ _ => .ok a, fun _ _ => []⟩

def field (fs : Fields ρ (α → β)) (f : Field ρ α) : Fields ρ β where
  names := fs.names ++ [f.name]
  read source values :=
    Checked.apply (fs.read source values)
      ((f.read source (Value.lookup values f.name)).under (.key f.name))
  write full r := fs.write full r ++ ((f.write full r).map fun v => (f.name, v)).toList

end Fields

/-- The schema of a record, with its title. -/
structure Form (α : Type) extends Schema α where
  title : String

namespace Form

variable {α : Type}

def unknownKeys (names : List String) (values : List (String × Value)) : List Issue :=
  (values.filter fun f => f.1 ∉ names).map fun f => ⟨[.key f.1], .unknownKey⟩

/-- The form of a record with the given fields; `review` looks at a record as a whole once
every field is valid. -/
def ofFields (title : String) (fs : Fields α α) (review : α → List Reason := fun _ => []) :
    Form α where
  title := title
  read source v :=
    match v with
    | .object values =>
      let extra := unknownKeys fs.names values
      match fs.read source values with
      | .error issues => .error (issues ++ extra)
      | .ok a =>
        if extra ≠ [] then .error extra
        else
          match review a with
          | [] => .ok a
          | reasons => .error (reasons.map fun r => ⟨[], r⟩)
    | _ => .fail (.notObject title source)
  write full a := .object (fs.write full a)

def validate (f : Form α) (v : Value) : Except Rejection α :=
  (f.read .value v).mapError fun issues => ⟨f.title, issues⟩

/-- The dump of a record, without its absent fields. -/
def dump (f : Form α) (a : α) : Value := f.write false a

/-- Reads a record that was put together from parts, so that its fields are checked too. -/
def accept (f : Form α) (a : α) : Except Rejection α := f.validate (f.dump a)

end Form

end Soundworks
