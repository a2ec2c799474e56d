import Soundworks.Binary64.Arithmetic
import Soundworks.Decimal.Layout
/-!
Dynamic values: what a document holds before it is read as operations, and what results are
written as. Integers are unbounded and kept apart from floating-point numbers; the fields of an
object keep their order, and a key may occur twice.
-/

namespace Soundworks

/-- A dynamic value. -/
inductive Value where
  | null
  | bool (b : Bool)
  | integer (n : Int)
  | number (x : Binary64)
  | text (s : String)
  | list (items : List Value)
  | object (fields : List (String × Value))

namespace Value

instance : Inhabited Value := ⟨.null⟩

/-- The value under a key; of several, the last one. -/
def lookup (fields : List (String × Value)) (key : String) : Option Value :=
  (fields.reverse.find? fun f => f.1 = key).map (·.2)

def get? (v : Value) (key : String) : Option Value :=
  match v with
  | .object fields => lookup fields key
  | _ => none

/-- Replaces the value of a key in its place, or adds the key at the end. -/
def put (fields : List (String × Value)) (key : String) (v : Value) : List (String × Value) :=
  match fields with
  | [] => [(key, v)]
  | (k, w) :: rest => if k = key then (k, v) :: rest else (k, w) :: put rest key v

def mergeKeys (fields : List (String × Value)) : List (String × Value) :=
  fields.foldl (fun merged f => put merged f.1 f.2) []

/-- No content: null, false, zero and the empty text, list and object. -/
def isEmpty : Value → Bool
  | .null => true
  | .bool b => !b
  | .integer n => n = 0
  | .number x => x.isZero
  | .text s => s = ""
  | .list items => items.isEmpty
  | .object fields => fields.isEmpty

end Value

end Soundworks
