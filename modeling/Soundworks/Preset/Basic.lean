import Soundworks.Operation.Set
/-!
Presets: named operation sets with the kind of file they are made for.
-/

namespace Soundworks

/-- What a preset is listed under. -/
inductive PresetCategory where
  | game | voice | music | effects | advanced
  deriving DecidableEq

namespace PresetCategory

def all : List PresetCategory := [.game, .voice, .music, .effects, .advanced]

def name : PresetCategory → String
  | .game => "game"
  | .voice => "voice"
  | .music => "music"
  | .effects => "effects"
  | .advanced => "advanced"

end PresetCategory

/-- A kind of output file, named by its extension. -/
inductive Container where
  | wav | mp3 | ogg | flac | aac | m4a
  deriving DecidableEq

namespace Container

def all : List Container := [.wav, .mp3, .ogg, .flac, .aac, .m4a]

def name : Container → String
  | .wav => "wav"
  | .mp3 => "mp3"
  | .ogg => "ogg"
  | .flac => "flac"
  | .aac => "aac"
  | .m4a => "m4a"

def schema : Schema Container := .word all name

end Container

structure Preset where
  name : String
  description : String
  category : PresetCategory
  container : Container
  operations : OperationSet
  deriving DecidableEq

def Preset.form : Form Preset :=
  .ofFields "PresetDefinition" <|
    (Fields.build Preset.mk).field
      (.required "name" .text (·.name)) |>.field
      (.required "description" .text (·.description)) |>.field
      (.required "category" (.word PresetCategory.all PresetCategory.name) (·.category)) |>.field
      (.required "output_format" Container.schema (·.container)) |>.field
      (.required "operations" OperationSet.form.toSchema (·.operations))

end Soundworks
