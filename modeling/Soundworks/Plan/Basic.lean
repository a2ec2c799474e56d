import Soundworks.Plan.Mix
/-!
Plans: what the audio engine is asked to do for one output. A plan is made from an operation set
by one of two processors; the basic one ignores the advanced operations.
-/

namespace Soundworks

/-- What is asked of the engine, apart from the names of the files. -/
structure Plan where
  filters : List String := []
  sampleRate : Option Int := none
  channels : Option Int := none
  codec : Option String := none
  bitrate : Option String := none
  seek : Option Binary64 := none
  duration : Option Binary64 := none
  graph : Option String := none
  graphOutput : Option String := none
  deriving DecidableEq

def Plan.filterChain (p : Plan) : String := ",".intercalate p.filters

/-- What a processor can do. -/
inductive Capability where
  | basic
  | advanced
  deriving DecidableEq

def AudioCodec.encoder : AudioCodec → String
  | .pcm => "pcm_s16le"
  | .mp3 => "libmp3lame"
  | .aac => "aac"
  | .vorbis => "libvorbis"
  | .flac => "flac"

/-- The length of the part that is kept, if it is not empty. -/
def Trim.duration (t : Trim) : Option Binary64 :=
  if t.startSec < t.endSec then some (t.endSec - t.startSec) else none

/-- Why there is no plan. -/
inductive PlanError where
  | tooManyDigits
  | mix (e : MixError)
  deriving DecidableEq

def PlanError.message : PlanError → String
  | .tooManyDigits =>
    "Exceeds the limit (" ++ toString Decimal.digitLimit ++ " digits) for integer string " ++
      "conversion; use sys.set_int_max_str_digits() to increase the limit"
  | .mix e => e.message

namespace OperationSet

def settings (o : OperationSet) : Plan where
  sampleRate := (o.format.bind (·.sampleRate)).map SampleRate.hertz
  channels := (o.format.bind (·.channels)).map Channels.count
  codec := (o.format.bind (·.codec)).map AudioCodec.encoder
  bitrate := (o.format.bind (·.bitrateKbps)).map fun n => toString n ++ "k"
  seek := (o.effects.bind (·.trim)).map (·.startSec)
  duration := (o.effects.bind (·.trim)).bind Trim.duration

/-- The layers of a mix, if a processor is to make one. -/
def mixedLayers (o : OperationSet) : Capability → Option (List Layer)
  | .basic => none
  | .advanced => (o.advanced.bind (·.layering)).map (·.layers)

/-- The filter stages that a processor applies to the whole sound. -/
def stages (o : OperationSet) : Capability → List Stage
  | .basic => o.basicStages
  | .advanced => o.basicStages ++ o.advanced.elim [] Advanced.stages

def mixLabel : String := "mixed"

def finalLabel : String := "final"

def tail (filters : List String) : List Segment :=
  if filters = [] then []
  else [{ reads := [mixLabel], body := ",".intercalate filters, defines := finalLabel }]

/-- The plan of an operation set for a count of inputs. The filters of the whole sound are written
before the layers are mixed. -/
def plan (o : OperationSet) (c : Capability) (inputs : Nat) : Except PlanError Plan :=
  if ∀ f ∈ (o.stages c).flatten, f.Writable then
    let filters := (o.stages c).map Stage.text
    let base : Plan := { o.settings with filters := filters }
    match o.mixedLayers c with
    | none => .ok base
    | some layers =>
      (Mix.segments inputs layers mixLabel).mapError PlanError.mix |>.map fun segments =>
        { base with
          graph := some (graphText (segments ++ tail filters))
          graphOutput := some (if filters = [] then mixLabel else finalLabel) }
  else .error .tooManyDigits

end OperationSet

end Soundworks
