import Soundworks.Operation.Tone
/-!
Operations on the stereo image and on periodic modulation.
-/

namespace Soundworks

structure Spatial where
  stereoWidth : Option Binary64 := none
  panPosition : Option Binary64 := none
  reverbSend : Option Binary64 := none
  delayTimeMs : Option Binary64 := none
  delayFeedback : Option Binary64 := none
  deriving DecidableEq

/-- A place between the left and the right side. -/
def panRange : Schema Binary64 := .number (.between (-1) 1)

def delayRange : Schema Binary64 := .number (.between 0 5000)

def Spatial.form : Form Spatial :=
  .ofFields "SpatialOperation" <|
    (Fields.build Spatial.mk).field
      (.optional "stereo_width" (.number (.between 0 2)) (·.stereoWidth)) |>.field
      (.optional "pan_position" panRange (·.panPosition)) |>.field
      (.optional "reverb_send" mixLevel (·.reverbSend)) |>.field
      (.optional "delay_time_ms" delayRange (·.delayTimeMs)) |>.field
      (.optional "delay_feedback" (.number (.between 0 0.95)) (·.delayFeedback))

inductive TremoloWave where
  | sine | triangle | square
  deriving DecidableEq

def TremoloWave.name : TremoloWave → String
  | .sine => "sine"
  | .triangle => "triangle"
  | .square => "square"

inductive VibratoWave where
  | sine | triangle
  deriving DecidableEq

def VibratoWave.name : VibratoWave → String
  | .sine => "sine"
  | .triangle => "triangle"

def modulationRate : Schema Binary64 := .number (.between 0.1 20)

structure Tremolo where
  rate : Binary64
  depth : Binary64
  waveform : Option TremoloWave := none
  deriving DecidableEq

def Tremolo.form : Form Tremolo :=
  .ofFields "TremoloSettings" <|
    (Fields.build Tremolo.mk).field
      (.required "rate" modulationRate (·.rate)) |>.field
      (.required "depth" mixLevel (·.depth)) |>.field
      (.optional "waveform" (.word [.sine, .triangle, .square] TremoloWave.name) (·.waveform))

structure Vibrato where
  rate : Binary64
  depth : Binary64
  waveform : Option VibratoWave := none
  deriving DecidableEq

def Vibrato.form : Form Vibrato :=
  .ofFields "VibratoSettings" <|
    (Fields.build Vibrato.mk).field
      (.required "rate" modulationRate (·.rate)) |>.field
      (.required "depth" mixLevel (·.depth)) |>.field
      (.optional "waveform" (.word [.sine, .triangle] VibratoWave.name) (·.waveform))

structure Chorus where
  rate : Binary64
  depth : Binary64
  delayMs : Binary64
  deriving DecidableEq

def Chorus.form : Form Chorus :=
  .ofFields "ChorusSettings" <|
    (Fields.build Chorus.mk).field
      (.required "rate" (.number (.between 0.1 5)) (·.rate)) |>.field
      (.required "depth" mixLevel (·.depth)) |>.field
      (.required "delay_ms" (.number (.between 5 40)) (·.delayMs))

structure Modulation where
  tremolo : Option Tremolo := none
  vibrato : Option Vibrato := none
  chorus : Option Chorus := none
  deriving DecidableEq

def Modulation.form : Form Modulation :=
  .ofFields "ModulationOperation" <|
    (Fields.build Modulation.mk).field
      (.optional "tremolo" Tremolo.form.toSchema (·.tremolo)) |>.field
      (.optional "vibrato" Vibrato.form.toSchema (·.vibrato)) |>.field
      (.optional "chorus" Chorus.form.toSchema (·.chorus))

end Soundworks
