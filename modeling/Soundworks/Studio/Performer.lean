import Soundworks.Engine.Basic
import Soundworks.Studio.Floor
/-!
The two ways in which calls are answered: by an engine, and by a rehearsed stand-in that writes a
fixed text, or fails, for outputs of known names.
-/

namespace Soundworks

namespace Performer

/-- An engine. Every call takes its time, so each one waits at a gate that nobody opens. -/
def ofEngine (e : Engine) : Performer where
  gate? c := some c.output
  perform c t :=
    let (result, t) := e.execute t c.plan c.inputs c.output
    (result.mapError fun error => .known error.message, t)

def rehearsedText : String := "processed"

/-- Calls whose outputs have one of the held names wait at a gate of that name; those with an
entry among the failures fail. -/
def rehearsed (held : List String) (failures : List (String × Failure)) : Performer where
  gate? c := if Path.name c.output ∈ held then some (Path.name c.output) else none
  perform c t :=
    match failures.lookup (Path.name c.output) with
    | some failure => (.error failure, t)
    | none =>
      match t.write c.output rehearsedText with
      | .ok t => (.ok (), t)
      | .error e => (.error (.known e.message), t)

end Performer

end Soundworks
