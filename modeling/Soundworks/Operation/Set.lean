import Soundworks.Operation.Base
import Soundworks.Operation.Dynamics
import Soundworks.Operation.Space
/-!
Operation sets: the basic operations and a block of advanced ones, among them the layers of a
mix and the ranges of a variation set.
-/

namespace Soundworks

/-- The ranges within which variations of a sound are drawn. -/
structure VariationRanges where
  count : Int
  pitchRange : Option Binary64 := none
  volumeRange : Option Binary64 := none
  spectralRange : Option Binary64 := none
  timingRange : Option Binary64 := none
  seed : Option Int := none
  deriving DecidableEq

def VariationRanges.form : Form VariationRanges :=
  .ofFields "VariationOperation" <|
    (Fields.build VariationRanges.mk).field
      (.required "count" (.integer (.between 1 20)) (·.count)) |>.field
      (.optional "pitch_range" (.number (.between 0 12)) (·.pitchRange)) |>.field
      (.optional "volume_range" (.number (.between 0 10)) (·.volumeRange)) |>.field
      (.optional "spectral_range" (.number (.between 0 6)) (·.spectralRange)) |>.field
      (.optional "timing_range" (.number (.atLeast 0)) (·.timingRange)) |>.field
      (.optional "seed" (.integer .unlimited) (·.seed))

/-- How a layer is meant to join the mix. -/
inductive Blend where
  | mix | multiply | add | subtract
  deriving DecidableEq

namespace Blend

def all : List Blend := [.mix, .multiply, .add, .subtract]

def name : Blend → String
  | .mix => "mix"
  | .multiply => "multiply"
  | .add => "add"
  | .subtract => "subtract"

end Blend

/-- What is done to one input before it is mixed. -/
structure Layer where
  blend : Blend := .mix
  delayMs : Option Binary64 := none
  pitchSemitones : Option Binary64 := none
  volume : Option Binary64 := none
  pan : Option Binary64 := none
  deriving DecidableEq

def Layer.form : Form Layer :=
  .ofFields "LayerSpec" <|
    (Fields.build Layer.mk).field
      (.withDefault "blend" (.word Blend.all Blend.name) (·.blend) .mix) |>.field
      (.optional "delay_ms" delayRange (·.delayMs)) |>.field
      (.optional "pitch_semitones" (.number (.between (-12) 12)) (·.pitchSemitones)) |>.field
      (.optional "volume" (.number (.between 0 2)) (·.volume)) |>.field
      (.optional "pan" panRange (·.pan))

/-- The greatest count of layers, and of inputs of a mix. -/
def maxLayers : Nat := 8

structure Layering where
  layers : List Layer
  deriving DecidableEq

def layerList : Schema (List Layer) := .list Layer.form.toSchema 1 (some maxLayers)

def Layering.form : Form Layering :=
  .ofFields "LayeringOperation" <|
    (Fields.build Layering.mk).field (.required "layers" layerList (·.layers))

/-- The advanced operations. -/
structure Advanced where
  pitch : Option Pitch := none
  tempo : Option Tempo := none
  harmonics : Option Harmonics := none
  spectral : Option Spectral := none
  dynamics : Option Dynamics := none
  spatial : Option Spatial := none
  modulation : Option Modulation := none
  variations : Option VariationRanges := none
  layering : Option Layering := none
  deriving DecidableEq

def Advanced.form : Form Advanced :=
  .ofFields "AdvancedOperation" <|
    (Fields.build Advanced.mk).field
      (.optional "pitch" Pitch.form.toSchema (·.pitch)) |>.field
      (.optional "tempo" Tempo.form.toSchema (·.tempo)) |>.field
      (.optional "harmonics" Harmonics.form.toSchema (·.harmonics)) |>.field
      (.optional "spectral" Spectral.form.toSchema (·.spectral)) |>.field
      (.optional "dynamics" Dynamics.form.toSchema (·.dynamics)) |>.field
      (.optional "spatial" Spatial.form.toSchema (·.spatial)) |>.field
      (.optional "modulation" Modulation.form.toSchema (·.modulation)) |>.field
      (.optional "variations" VariationRanges.form.toSchema (·.variations)) |>.field
      (.optional "layering" Layering.form.toSchema (·.layering))

/-- Everything that is to be done to a sound. -/
structure OperationSet where
  volume : Option Volume := none
  format : Option Format := none
  effects : Option Effects := none
  advanced : Option Advanced := none
  deriving DecidableEq

def OperationSet.form : Form OperationSet :=
  .ofFields "OperationSet" <|
    (Fields.build OperationSet.mk).field
      (.optional "volume" Volume.form.toSchema (·.volume)) |>.field
      (.optional "format" Format.form.toSchema (·.format)) |>.field
      (.optional "effects" Effects.form.toSchema (·.effects)) |>.field
      (.optional "advanced" Advanced.form.toSchema (·.advanced))

end Soundworks
