import Soundworks.Operation.Set
/-!
Harmonics: each interval with a positive mix level becomes an operation set of its own, in which
the sound is mixed with a copy of itself that is shifted by the interval.
-/

namespace Soundworks

/-- An interval to be added to a sound. -/
structure Interval where
  name : String
  semitones : Int
  mix : Binary64
  deriving DecidableEq

namespace Interval

/-- The sound below its shifted copy; the two levels add up to one. -/
def layers (i : Interval) : Except Rejection (List Layer) := do
  let dry ← Layer.form.accept { blend := .mix, volume := some (1 - i.mix) }
  let shifted ← Layer.form.accept
    { blend := .add, volume := some i.mix, pitchSemitones := some (.ofInt i.semitones) }
  pure [dry, shifted]

def operations (i : Interval) : Except Rejection OperationSet :=
  i.layers.map fun layers => { advanced := some { layering := some { layers := layers } } }

end Interval

def Harmonics.intervals (h : Harmonics) : List Interval :=
  let named := fun (name : String) (semitones : Int) (level : Option Binary64) =>
    ((level.filter fun mix => decide (0 < mix)).map (Interval.mk name semitones)).toList
  named "octave_up" 12 h.octaveUp ++ named "octave_down" (-12) h.octaveDown ++
    named "fifth_up" 7 h.fifthUp ++ named "third_up" 4 h.thirdUp

end Soundworks
