import Soundworks.Validation.Schema
/-!
The basic operations on a sound: its volume, its output format and its effects.
-/

namespace Soundworks

/-- A gain in decibels and loudness normalization. -/
structure Volume where
  adjustDb : Option Binary64 := none
  normalize : Option Bool := none
  targetLufs : Option Binary64 := none
  deriving DecidableEq

def Volume.form : Form Volume :=
  .ofFields "VolumeOperation" <|
    (Fields.build Volume.mk).field
      (.optional "adjust_db" (.number (.between (-60) 20)) (·.adjustDb)) |>.field
      (.optional "normalize" .bool (·.normalize)) |>.field
      (.optional "target_lufs" (.number .unbounded) (·.targetLufs))

/-- A sample rate that an output can have. -/
inductive SampleRate where
  | hz8000 | hz16000 | hz22050 | hz44100 | hz48000 | hz96000 | hz192000
  deriving DecidableEq

namespace SampleRate

def all : List SampleRate :=
  [.hz8000, .hz16000, .hz22050, .hz44100, .hz48000, .hz96000, .hz192000]

def hertz : SampleRate → Int
  | .hz8000 => 8000
  | .hz16000 => 16000
  | .hz22050 => 22050
  | .hz44100 => 44100
  | .hz48000 => 48000
  | .hz96000 => 96000
  | .hz192000 => 192000

end SampleRate

/-- A channel layout that an output can have. -/
inductive Channels where
  | mono | stereo | surround51 | surround71
  deriving DecidableEq

namespace Channels

def all : List Channels := [.mono, .stereo, .surround51, .surround71]

def count : Channels → Int
  | .mono => 1
  | .stereo => 2
  | .surround51 => 6
  | .surround71 => 8

end Channels

/-- A way to encode an output. -/
inductive AudioCodec where
  | pcm | mp3 | aac | vorbis | flac
  deriving DecidableEq

namespace AudioCodec

def all : List AudioCodec := [.pcm, .mp3, .aac, .vorbis, .flac]

def name : AudioCodec → String
  | .pcm => "pcm"
  | .mp3 => "mp3"
  | .aac => "aac"
  | .vorbis => "vorbis"
  | .flac => "flac"

end AudioCodec

/-- What the output file holds. -/
structure Format where
  sampleRate : Option SampleRate := none
  bitrateKbps : Option Int := none
  channels : Option Channels := none
  codec : Option AudioCodec := none
  deriving DecidableEq

def Format.form : Form Format :=
  .ofFields "FormatOperation" <|
    (Fields.build Format.mk).field
      (.optional "sample_rate" (.magnitude SampleRate.all SampleRate.hertz) (·.sampleRate)) |>.field
      (.optional "bitrate_kbps" (.integer (.between 64 320)) (·.bitrateKbps)) |>.field
      (.optional "channels" (.magnitude Channels.all Channels.count) (·.channels)) |>.field
      (.optional "codec" (.word AudioCodec.all AudioCodec.name) (·.codec))

/-- The part of the input that is kept. -/
structure Trim where
  startSec : Binary64
  endSec : Binary64
  deriving DecidableEq

def Trim.form : Form Trim :=
  .ofFields "TrimOperation" <|
    (Fields.build Trim.mk).field
      (.required "start_sec" (.number (.atLeast 0)) (·.startSec)) |>.field
      (.required "end_sec" (.number (.atLeast 0)) (·.endSec))

/-- Repetition; `count` is the total number of plays. -/
structure Loop where
  enabled : Bool
  count : Int
  deriving DecidableEq

def Loop.form : Form Loop :=
  .ofFields "LoopOperation" <|
    (Fields.build Loop.mk).field
      (.required "enabled" .bool (·.enabled)) |>.field
      (.required "count" (.integer (.atLeast 1)) (·.count))

/-- Fades, trimming and repetition; a fade-out is given by its start. -/
structure Effects where
  fadeInSec : Option Binary64 := none
  fadeOutSec : Option Binary64 := none
  trim : Option Trim := none
  loop : Option Loop := none
  deriving DecidableEq

def Effects.form : Form Effects :=
  .ofFields "EffectsOperation" <|
    (Fields.build Effects.mk).field
      (.optional "fade_in_sec" (.number (.atLeast 0)) (·.fadeInSec)) |>.field
      (.optional "fade_out_sec" (.number (.atLeast 0)) (·.fadeOutSec)) |>.field
      (.optional "trim" Trim.form.toSchema (·.trim)) |>.field
      (.optional "loop" Loop.form.toSchema (·.loop))

end Soundworks
