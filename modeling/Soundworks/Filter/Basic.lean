import Soundworks.Binary64.Arithmetic
import Soundworks.Decimal.Layout
/-!
Audio filters and their text. A filter is written as a row of fragments, fixed words and
numbers, so that what stands in a chain of filters can be read off its numbers.
-/

namespace Soundworks

/-- A part of the text of a filter. -/
inductive Fragment where
  | words (s : String)
  | number (x : Binary64)
  | integer (n : Int)
  deriving DecidableEq

/-- The text of a fragment; integral numbers have no point. -/
def Fragment.text : Fragment → String
  | .words s => s
  | .number x => x.plain
  | .integer n => String.ofList (Binary64.integerChars n)

/-- The integer that a fragment writes, if it writes one. -/
def Fragment.integer? : Fragment → Option Int
  | .words _ => none
  | .number x => x.toInt?
  | .integer n => some n

/-- The shares of the two input channels in each output channel. -/
structure PanMatrix where
  leftFromLeft : Binary64
  leftFromRight : Binary64
  rightFromRight : Binary64
  rightFromLeft : Binary64
  deriving DecidableEq

/-- The matrix of a position. Left of the middle the right channel folds into the left output,
right of it the left channel folds into the right output. -/
def PanMatrix.ofPosition (p : Binary64) : PanMatrix :=
  let left := if p < 0 then -p else 0
  let right := if 0 < p then p else 0
  { leftFromLeft := 1 - left
    leftFromRight := left
    rightFromRight := 1 - right
    rightFromLeft := right }

/-- An audio filter. Gains and thresholds are in decibels, delays, attacks and releases in
milliseconds. -/
inductive Filter where
  | pass
  | gain (db : Binary64)
  | level (factor : Binary64)
  | loudness (target : Binary64)
  | fadeIn (seconds : Binary64)
  | fadeOut (start : Binary64)
  | repeats (extra : Int)
  | playbackRate (ratio : Binary64)
  | resample
  | tempo (factor : Binary64)
  | bass (db : Binary64)
  | treble (db : Binary64)
  | equalizer (centre width : Int) (db : Binary64)
  | compressor (threshold ratio attack release : Binary64) (knee : Option Binary64)
  | gate (threshold ratio : Binary64) (attack release : Option Binary64)
  | limiter (threshold : Binary64) (release : Option Binary64)
  | stereoWidth (factor : Binary64)
  | pan (matrix : PanMatrix)
  | delay (ms : Binary64)
  | feedback (ms decay : Binary64)
  | reverb (ms : Int) (decay : Binary64)
  | tremolo (rate depth : Binary64)
  | vibrato (rate depth : Binary64)
  | chorus (ms rate depth : Binary64)
  deriving DecidableEq

namespace Filter

/-- The rate that shifted playback refers to, in hertz. -/
def referenceRate : Int := 44100

def loudnessRange : Int := 7

def truePeak : Int := -2

def fadeOutLength : Int := 1

def argument (name : String) : Option Binary64 → List Fragment
  | some x => [.words (":" ++ name ++ "="), .number x]
  | none => []

def fragments : Filter → List Fragment
  | .pass => [.words "anull"]
  | .gain db => [.words "volume=", .number db, .words "dB"]
  | .level factor => [.words "volume=", .number factor]
  | .loudness target =>
    [.words "loudnorm=I=", .number target, .words ":LRA=", .integer loudnessRange,
      .words ":tp=", .integer truePeak]
  | .fadeIn seconds => [.words "afade=t=in:ss=0:d=", .number seconds]
  | .fadeOut start =>
    [.words "afade=t=out:st=", .number start, .words ":d=", .integer fadeOutLength]
  | .repeats extra => [.words "aloop=loop=", .integer extra, .words ":size=2e+09"]
  | .playbackRate ratio =>
    [.words "asetrate=", .integer referenceRate, .words "*", .number ratio]
  | .resample => [.words "aresample=", .integer referenceRate]
  | .tempo factor => [.words "atempo=", .number factor]
  | .bass db => [.words "bass=g=", .number db]
  | .treble db => [.words "treble=g=", .number db]
  | .equalizer centre width db =>
    [.words "equalizer=f=", .integer centre, .words ":width=", .integer width, .words ":g=",
      .number db]
  | .compressor threshold ratio attack release knee =>
    [.words "acompressor=threshold=", .number threshold, .words "dB:ratio=", .number ratio,
      .words ":attack=", .number attack, .words ":release=", .number release]
      ++ argument "knee" knee
  | .gate threshold ratio attack release =>
    [.words "agate=threshold=", .number threshold, .words "dB:ratio=", .number ratio]
      ++ argument "attack" attack ++ argument "release" release
  | .limiter threshold release =>
    [.words "alimiter=limit=", .number threshold, .words "dB"] ++ argument "release" release
  | .stereoWidth factor => [.words "extrastereo=m=", .number factor]
  | .pan m =>
    [.words "pan=stereo|c0=", .number m.leftFromLeft, .words "*c0+", .number m.leftFromRight,
      .words "*c1|c1=", .number m.rightFromRight, .words "*c1+", .number m.rightFromLeft,
      .words "*c0"]
  | .delay ms => [.words "adelay=", .number ms, .words "|", .number ms]
  | .feedback ms decay => [.words "aecho=1:1:", .number ms, .words ":", .number decay]
  | .reverb ms decay => [.words "aecho=0.8:0.9:", .integer ms, .words ":", .number decay]
  | .tremolo rate depth => [.words "tremolo=f=", .number rate, .words ":d=", .number depth]
  | .vibrato rate depth => [.words "vibrato=f=", .number rate, .words ":d=", .number depth]
  | .chorus ms rate depth =>
    [.words "chorus=0.7:0.9:", .number ms, .words ":0.25:", .number rate, .words ":",
      .number depth]

def text (f : Filter) : String := String.join (f.fragments.map Fragment.text)

/-- Whether no integer of a filter has too many digits to be written. -/
def Writable (f : Filter) : Prop :=
  ∀ g ∈ f.fragments, ∀ n ∈ g.integer?, Decimal.width n.natAbs ≤ Decimal.digitLimit

instance : DecidablePred Writable := fun f =>
  inferInstanceAs (Decidable (∀ g ∈ f.fragments, ∀ n ∈ g.integer?, _))

/-- Playback at a multiple of the rate, which shifts pitch and speed together. -/
def shift (ratio : Binary64) : List Filter := [.playbackRate ratio, .resample]

end Filter

/-- One entry of a filter list: a filter, or several that are listed together. -/
abbrev Stage := List Filter

namespace Stage

/-- The filters of a chain, separated by commas. -/
def text (s : Stage) : String := ",".intercalate (s.map Filter.text)

def each (fs : List Filter) : List Stage := fs.map ([·])

end Stage

end Soundworks
