import Soundworks.Proofs.Validation.Exact
/-!
The leaves of a dump: what stands at a path of keys, other than an object. Absent fields leave no
trace in a dump, so a block that is absent and one that is empty have the same leaves.
-/

namespace Soundworks

namespace Value

/-- A value that is neither an object nor null. -/
def isLeaf : Value → Bool
  | .null | .object _ => false
  | _ => true

def leaf? (v : Value) : List String → Option Value
  | [] => if v.isLeaf then some v else none
  | key :: path => (v.get? key).bind fun w => w.leaf? path

theorem leaf?_cons (v : Value) (key : String) (path : List String) :
    v.leaf? (key :: path) = (v.get? key).bind fun w => w.leaf? path := rfl

/-- An object of scalars has its leaves right under its keys. -/
theorem leaf?_flat {fields : List (String × Value)} {path : List String}
    (hflat : ∀ f ∈ fields, ∀ key, f.2.get? key = none) (hpath : ∀ f ∈ fields, path ≠ [f.1]) :
    (object fields).leaf? path = none := by
  cases path with
  | nil => rfl
  | cons key path =>
      rw [leaf?_cons, get?, Option.bind_eq_none_iff]
      intro v hv
      obtain ⟨f, hf, rfl⟩ := Option.map_eq_some_iff.mp hv
      have hmem := List.mem_reverse.mp (List.mem_of_find?_eq_some hf)
      have hkey : f.1 = key := by simpa using List.find?_some hf
      cases path with
      | nil => exact absurd (by rw [hkey]) (hpath f hmem)
      | cons next path => rw [leaf?_cons, hflat f hmem, Option.bind_none]

end Value

namespace Field

variable {ρ α : Type}

@[simp] theorem name_optional (name : String) (s : Schema α) (get : ρ → Option α) :
    (optional name s get).name = name := rfl

@[simp] theorem write_optional (name : String) (s : Schema α) (get : ρ → Option α) (r : ρ) :
    (optional name s get).write false r = (get r).map (s.write false) := by
  dsimp only [optional]
  cases get r <;> rfl

end Field

namespace Fields

variable {ρ α : Type}

@[simp] theorem lookup_build (a : α) (full : Bool) (r : ρ) (key : String) :
    Value.lookup ((build a).write full r) key = none := rfl

end Fields

namespace Form

variable {α : Type}

@[simp] theorem write_false (f : Form α) : f.write false = f.dump := rfl

@[simp] theorem get?_dump (title : String) (fs : Fields α α) (review : α → List Reason) (a : α)
    (key : String) :
    ((ofFields title fs review).dump a).get? key = Value.lookup (fs.write false a) key := rfl

/-- A block that is absent has no leaves, and neither has an empty one. -/
theorem leaf?_getD {f : Form α} {a : α} (h : f.dump a = .object []) (x : Option α)
    (path : List String) :
    ((x.map f.dump).bind fun v => v.leaf? path) = (f.dump (x.getD a)).leaf? path := by
  cases x with
  | some b => rfl
  | none =>
      rw [Option.getD_none, h]
      cases path <;> rfl

end Form

end Soundworks
