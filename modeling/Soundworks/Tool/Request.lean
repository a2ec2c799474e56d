import Soundworks.Preset.Basic
/-!
The requests that the tools accept.
-/

namespace Soundworks

/-- What is put behind the name of an output unless told otherwise. -/
def defaultSuffix : String := "_processed"

/-- Process one file. -/
structure ProcessRequest where
  inputPath : String
  outputPath : String
  operations : OperationSet
  overwrite : Bool

/-- Process the files of a directory. -/
structure BatchRequest where
  inputDirectory : String
  outputDirectory : String
  operations : OperationSet
  filePattern : Option String
  overwrite : Bool
  suffix : String
  container : Option Container

/-- Process one file with a preset. -/
structure PresetRequest where
  inputPath : String
  outputPath : String
  presetName : String
  overwrite : Bool

/-- Make a set of variations of one file. -/
structure VariationsRequest where
  inputPath : String
  outputDirectory : String
  count : Int
  pitchRange : Binary64
  volumeRange : Binary64
  spectralRange : Binary64
  timingRange : Option Binary64
  seed : Option Int
  base : Option OperationSet
  overwrite : Bool

/-- Make one file per added interval. -/
structure HarmonicsRequest where
  inputPath : String
  outputDirectory : String
  octaveUp : Option Binary64
  octaveDown : Option Binary64
  fifthUp : Option Binary64
  thirdUp : Option Binary64
  overwrite : Bool

/-- Process one file with advanced operations. -/
structure AdvancedRequest where
  inputPath : String
  outputPath : String
  pitch : Option Pitch
  tempo : Option Tempo
  spectral : Option Spectral
  dynamics : Option Dynamics
  spatial : Option Spatial
  modulation : Option Modulation
  overwrite : Bool

/-- Mix several files. -/
structure LayerRequest where
  inputPaths : List String
  outputPath : String
  layers : List Layer
  overwrite : Bool

/-- A truth value that is false unless given. -/
def Field.flag {ρ : Type} (name : String) (get : ρ → Bool) : Field ρ Bool :=
  .withDefault name .bool get false

def Field.operations {ρ : Type} (get : ρ → OperationSet) : Field ρ OperationSet :=
  .withDefault "operations" OperationSet.form.toSchema get {}

def ProcessRequest.form : Form ProcessRequest :=
  .ofFields "ProcessFileIn" <|
    (Fields.build ProcessRequest.mk).field
      (.required "input_path" .text (·.inputPath)) |>.field
      (.required "output_path" .text (·.outputPath)) |>.field
      (.operations (·.operations)) |>.field
      (.flag "overwrite" (·.overwrite))

def BatchRequest.form : Form BatchRequest :=
  .ofFields "BatchProcessIn" <|
    (Fields.build BatchRequest.mk).field
      (.required "input_directory" .text (·.inputDirectory)) |>.field
      (.required "output_directory" .text (·.outputDirectory)) |>.field
      (.operations (·.operations)) |>.field
      (.optional "file_pattern" .text (·.filePattern)) |>.field
      (.flag "overwrite" (·.overwrite)) |>.field
      (.withDefault "suffix" .text (·.suffix) defaultSuffix) |>.field
      (.optional "output_format" Container.schema (·.container))

def PresetRequest.form : Form PresetRequest :=
  .ofFields "ApplyPresetIn" <|
    (Fields.build PresetRequest.mk).field
      (.required "input_path" .text (·.inputPath)) |>.field
      (.required "output_path" .text (·.outputPath)) |>.field
      (.required "preset_name" .text (·.presetName)) |>.field
      (.flag "overwrite" (·.overwrite))

namespace VariationsRequest

def form : Form VariationsRequest :=
  .ofFields "GenerateVariationsIn" <|
    (Fields.build VariationsRequest.mk).field
      (.required "input_path" .text (·.inputPath)) |>.field
      (.required "output_directory" .text (·.outputDirectory)) |>.field
      (.withDefault "count" (.integer (.between 1 20)) (·.count) 5) |>.field
      (.withDefault "pitch_range" (.number (.between 0 12)) (·.pitchRange) 2) |>.field
      (.withDefault "volume_range" (.number (.between 0 10)) (·.volumeRange) 3) |>.field
      (.withDefault "spectral_range" (.number (.between 0 6)) (·.spectralRange) 2) |>.field
      (.optional "timing_range" (.number (.atLeast 0)) (·.timingRange)) |>.field
      (.optional "seed" (.integer .unlimited) (·.seed)) |>.field
      (.optional "base_operations" OperationSet.form.toSchema (·.base)) |>.field
      (.flag "overwrite" (·.overwrite))

def ranges (r : VariationsRequest) : VariationRanges where
  count := r.count
  pitchRange := some r.pitchRange
  volumeRange := some r.volumeRange
  spectralRange := some r.spectralRange
  timingRange := r.timingRange
  seed := r.seed

end VariationsRequest

namespace HarmonicsRequest

def form : Form HarmonicsRequest :=
  .ofFields "CreateHarmonicsIn" <|
    (Fields.build HarmonicsRequest.mk).field
      (.required "input_path" .text (·.inputPath)) |>.field
      (.required "output_directory" .text (·.outputDirectory)) |>.field
      (.optional "octave_up" mixLevel (·.octaveUp)) |>.field
      (.optional "octave_down" mixLevel (·.octaveDown)) |>.field
      (.optional "fifth_up" mixLevel (·.fifthUp)) |>.field
      (.optional "third_up" mixLevel (·.thirdUp)) |>.field
      (.flag "overwrite" (·.overwrite))

def harmonics (r : HarmonicsRequest) : Harmonics where
  octaveUp := r.octaveUp
  octaveDown := r.octaveDown
  fifthUp := r.fifthUp
  thirdUp := r.thirdUp

end HarmonicsRequest

namespace AdvancedRequest

def form : Form AdvancedRequest :=
  .ofFields "AdvancedProcessIn" <|
    (Fields.build AdvancedRequest.mk).field
      (.required "input_path" .text (·.inputPath)) |>.field
      (.required "output_path" .text (·.outputPath)) |>.field
      (.optional "pitch" Pitch.form.toSchema (·.pitch)) |>.field
      (.optional "tempo" Tempo.form.toSchema (·.tempo)) |>.field
      (.optional "spectral" Spectral.form.toSchema (·.spectral)) |>.field
      (.optional "dynamics" Dynamics.form.toSchema (·.dynamics)) |>.field
      (.optional "spatial" Spatial.form.toSchema (·.spatial)) |>.field
      (.optional "modulation" Modulation.form.toSchema (·.modulation)) |>.field
      (.flag "overwrite" (·.overwrite))

def operations (r : AdvancedRequest) : OperationSet where
  advanced := some
    { pitch := r.pitch
      tempo := r.tempo
      spectral := r.spectral
      dynamics := r.dynamics
      spatial := r.spatial
      modulation := r.modulation }

end AdvancedRequest

def LayerRequest.form : Form LayerRequest :=
  .ofFields "LayerSoundsIn" <|
    (Fields.build LayerRequest.mk).field
      (.required "input_paths" (.list .text 1 (some maxLayers)) (·.inputPaths)) |>.field
      (.required "output_path" .text (·.outputPath)) |>.field
      (.required "layers" layerList (·.layers)) |>.field
      (.flag "overwrite" (·.overwrite))

end Soundworks
