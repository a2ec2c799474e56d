import Soundworks.Json.Reader
import Soundworks.Validation.Schema
/-!
Reading a record from JSON text.
-/

namespace Soundworks.Form

def validateDocument {α : Type} (f : Form α) (s : String) : Except Rejection α :=
  match Json.read? s with
  | none => .error ⟨f.title, [⟨[], .invalidDocument⟩]⟩
  | some v => (f.read .document v).mapError fun issues => ⟨f.title, issues⟩

end Soundworks.Form
