import Soundworks.Validation.Schema
/-!
Operations on pitch, tempo and spectrum.
-/

namespace Soundworks

/-- A shift of pitch. -/
structure Pitch where
  semitones : Binary64
  cents : Option Binary64 := none
  preserveFormants : Option Bool := none
  deriving DecidableEq

def Pitch.form : Form Pitch :=
  .ofFields "PitchOperation" <|
    (Fields.build Pitch.mk).field
      (.required "semitones" (.number (.between (-12) 12)) (·.semitones)) |>.field
      (.optional "cents" (.number (.between (-100) 100)) (·.cents)) |>.field
      (.optional "preserve_formants" .bool (·.preserveFormants))

/-- A change of speed. -/
structure Tempo where
  factor : Binary64
  preservePitch : Option Bool := none
  deriving DecidableEq

def Tempo.form : Form Tempo :=
  .ofFields "TempoOperation" <|
    (Fields.build Tempo.mk).field
      (.required "factor" (.number (.between 0.5 2)) (·.factor)) |>.field
      (.optional "preserve_pitch" .bool (·.preservePitch))

/-- The mix levels of the added intervals. -/
structure Harmonics where
  octaveUp : Option Binary64 := none
  octaveDown : Option Binary64 := none
  fifthUp : Option Binary64 := none
  thirdUp : Option Binary64 := none
  deriving DecidableEq

/-- A mix level, from silence to full. -/
def mixLevel : Schema Binary64 := .number (.between 0 1)

def Harmonics.form : Form Harmonics :=
  .ofFields "HarmonicsOperation" <|
    (Fields.build Harmonics.mk).field
      (.optional "octave_up" mixLevel (·.octaveUp)) |>.field
      (.optional "octave_down" mixLevel (·.octaveDown)) |>.field
      (.optional "fifth_up" mixLevel (·.fifthUp)) |>.field
      (.optional "third_up" mixLevel (·.thirdUp))

/-- Shelves, a cut in the middle and tone colours. -/
structure Spectral where
  bassBoost : Option Binary64 := none
  trebleBoost : Option Binary64 := none
  midCut : Option Binary64 := none
  warmth : Option Binary64 := none
  brightness : Option Binary64 := none
  deriving DecidableEq

def shelfGain : Schema Binary64 := .number (.between (-12) 12)

def Spectral.form : Form Spectral :=
  .ofFields "SpectralOperation" <|
    (Fields.build Spectral.mk).field
      (.optional "bass_boost" shelfGain (·.bassBoost)) |>.field
      (.optional "treble_boost" shelfGain (·.trebleBoost)) |>.field
      (.optional "mid_cut" shelfGain (·.midCut)) |>.field
      (.optional "warmth" mixLevel (·.warmth)) |>.field
      (.optional "brightness" mixLevel (·.brightness))

end Soundworks
