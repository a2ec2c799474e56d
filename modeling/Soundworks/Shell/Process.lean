import Soundworks.Decimal.Loose
import Soundworks.Files.Tree
import Soundworks.Files.Wildcard
import Soundworks.Shell.Arithmetic
import Soundworks.Shell.Syntax
import Soundworks.Text.Utf8
/-!
The state of a running script: its variables, its files, and what it has written. Words are
expanded in such a state.
-/

namespace Soundworks.Shell

/-- Where an output stream goes. -/
inductive Sink where
  | output
  | errors
  | file (path : String)
  | nowhere
  deriving DecidableEq

/-- The state of a running script. -/
structure Process where
  tree : FileTree
  directory : String
  name : String
  args : List String
  bindings : List (String × String) := []
  status : Nat := 0
  streams : Sink × Sink := (.output, .errors)
  output : List Nat := []
  errors : List Nat := []
  elapsed : Binary64 := 0
  limit : Option Binary64 := none

namespace Process

def writeTo (p : Process) (sink : Sink) (bytes : List Nat) : Process :=
  match sink with
  | .output => { p with output := p.output ++ bytes }
  | .errors => { p with errors := p.errors ++ bytes }
  | .nowhere => p
  | .file path =>
    match p.tree.at? path with
    | some (.file text mode) =>
      { p with tree := p.tree.put (Path.parts path) (.file (text ++ Utf8.lossy bytes) mode) }
    | _ => p

def write (p : Process) (bytes : List Nat) : Process := p.writeTo p.streams.1 bytes

def warn (p : Process) (line : Nat) (message : String) : Process :=
  p.writeTo p.streams.2
    (Utf8.encode (p.name ++ ": " ++ toString line ++ ": " ++ message ++ "\n"))

def withStatus (p : Process) (status : Nat) : Process := { p with status := status }

def ownNumber : String := "2"

/-- The value of a parameter; one that is not set is empty. -/
def parameter (p : Process) (name : String) : String :=
  match name with
  | "@" | "*" => " ".intercalate p.args
  | "#" => toString p.args.length
  | "?" => toString p.status
  | "$" => ownNumber
  | "0" => p.name
  | name =>
    match name.toNat? with
    | some i => p.args.getD (i - 1) ""
    | none => (p.bindings.lookup name).getD ""

def assign (p : Process) (name value : String) : Process :=
  { p with bindings := (name, value) :: p.bindings.filter fun v => v.1 ≠ name }

def arithmetic? (p : Process) (expression : String) : Option String :=
  let value := fun name => (Decimal.looseInteger? (p.parameter name)).getD 0
  (Arithmetic.evaluate? value expression).map toString

def pieceText? (p : Process) : Piece → Option String
  | .text _ s => some s
  | .parameter _ name => some (p.parameter name)
  | .arithmetic _ e => p.arithmetic? e

/-- The text of a word, which is not split. -/
def wordText? (p : Process) (w : Word) : Option String :=
  (w.mapM p.pieceText?).map String.join

/-- A pattern in which quoted characters stand for themselves. -/
def pattern? (p : Process) (w : Word) : Option (List Wildcard) :=
  (w.mapM fun piece => do
    let s ← p.pieceText? piece
    let quoted := match piece with
      | .text quoted _ | .parameter quoted _ | .arithmetic quoted _ => quoted
    pure (if quoted then s.toList.map Wildcard.char else Wildcard.read s.toList)).map List.flatten

/-- Fields that are being put together; the last one may go on. -/
structure Fields where
  whole : List String := []
  open? : Option String := none

namespace Fields

def append (f : Fields) (s : String) : Fields := { f with open? := some (f.open?.getD "" ++ s) }

def close (f : Fields) : Fields := { whole := f.whole ++ f.open?.toList }

def split (f : Fields) (s : String) : Fields :=
  s.toList.foldl
    (fun f c => if Arithmetic.isGap c then f.close else f.append (String.ofList [c])) f

/-- Adds several texts, each one a field of its own. -/
def spread (f : Fields) : List String → Fields
  | [] => f
  | [s] => f.append s
  | s :: rest => ((f.append s).close).spread rest

end Fields

/-- Adds what a piece expands to. Quoted pieces stay whole, except for the list of all
arguments. -/
def addPiece? (p : Process) (f : Fields) : Piece → Option Fields
  | .text _ s => some (f.append s)
  | .parameter true "@" => some (f.spread p.args)
  | .parameter true name => some (f.append (p.parameter name))
  | .parameter false name => some (f.split (p.parameter name))
  | .arithmetic _ e => (p.arithmetic? e).map f.append

/-- The fields of a word. Quotes around the list of all arguments add no field. -/
def fields? (p : Process) (w : Word) : Option (List String) :=
  let empty := Piece.text true ""
  let pieces := w.filter fun piece => piece ≠ empty ∨ Piece.parameter true "@" ∉ w
  (pieces.foldlM p.addPiece? {}).map fun f => f.close.whole

def allFields? (p : Process) (ws : List Word) : Option (List String) :=
  (ws.mapM p.fields?).map List.flatten

end Process

end Soundworks.Shell
