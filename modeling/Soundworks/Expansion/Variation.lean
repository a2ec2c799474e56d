import Soundworks.Expansion.Lcg
import Soundworks.Filter.Chain
/-!
Variations: operation sets whose pitch, shelves, tempo and gain are drawn at random around a
base. What a variation draws replaces the whole component of the base, and only the gain is put
into the volume that is there.
-/

namespace Soundworks

/-- What is drawn for one variation. -/
structure Variation where
  semitones : Option Binary64
  shelves : Option (Binary64 × Binary64)
  tempo : Option Binary64
  gain : Option Binary64
  deriving DecidableEq

namespace Variation

def drawWithin {α : Type} (range : Option Binary64) (draw : Binary64 → Lcg → α × Lcg)
    (g : Lcg) : Option α × Lcg :=
  match range with
  | some amount =>
    let (a, g) := draw amount g
    (some a, g)
  | none => (none, g)

/-- The gains of the low and the high shelf, in this order. -/
def drawShelves (amount : Binary64) (g : Lcg) : (Binary64 × Binary64) × Lcg :=
  let (bass, g) := g.spread amount
  let (treble, g) := g.spread amount
  ((bass, treble), g)

/-- A tempo factor within a tenth of one, whatever the range is. -/
def drawTempo (_ : Binary64) (g : Lcg) : Binary64 × Lcg :=
  let (x, g) := g.next
  (1 + (x - 0.5) * 0.2, g)

/-- Draws pitch, shelves, tempo and gain, in this order; a range of zero draws nothing. -/
def draw (r : VariationRanges) (g : Lcg) : Variation × Lcg :=
  let (semitones, g) := drawWithin (nonzero r.pitchRange) Lcg.spread g
  let (shelves, g) := drawWithin (nonzero r.spectralRange) drawShelves g
  let (tempo, g) := drawWithin (nonzero r.timingRange) drawTempo g
  let (gain, g) := drawWithin (nonzero r.volumeRange) Lcg.spread g
  ({ semitones, shelves, tempo, gain }, g)

def drawMany (r : VariationRanges) : Nat → Lcg → List Variation
  | 0, _ => []
  | n + 1, g =>
    let (v, g) := draw r g
    v :: drawMany r n g

/-- The drawn components, each checked as if it were read. -/
def components (v : Variation) : Except Rejection Advanced := do
  let pitch ← v.semitones.mapM fun s => Pitch.form.accept { semitones := s }
  let spectral ← v.shelves.mapM fun (bass, treble) =>
    Spectral.form.accept { bassBoost := some bass, trebleBoost := some treble }
  let tempo ← v.tempo.mapM fun f => Tempo.form.accept { factor := f, preservePitch := some true }
  pure { pitch, spectral, tempo }

/-- The advanced operations of a base with the drawn components in their place, if any are
left. -/
def merge (base : Option Advanced) (drawn : Advanced) : Except Rejection (Option Advanced) :=
  let base := base.getD {}
  let merged :=
    { base with
      pitch := drawn.pitch <|> base.pitch
      spectral := drawn.spectral <|> base.spectral
      tempo := drawn.tempo <|> base.tempo }
  if merged = {} then .ok none else (Advanced.form.accept merged).map some

def mergeVolume (base : Option Volume) (gain : Option Binary64) :
    Except Rejection (Option Volume) :=
  match gain with
  | none => .ok base
  | some db => (Volume.form.accept { base.getD {} with adjustDb := some db }).map some

def applyTo (base : OperationSet) (v : Variation) : Except Rejection OperationSet := do
  let drawn ← v.components
  let advanced ← merge base.advanced drawn
  let volume ← mergeVolume base.volume v.gain
  pure { base with advanced, volume }

end Variation

namespace VariationRanges

def expand (r : VariationRanges) (base : OperationSet) (seed : Int) :
    Except Rejection (List OperationSet) :=
  (Variation.drawMany r r.count.toNat (.ofSeed seed)).mapM (Variation.applyTo base)

/-- The operation sets of all variations of a base, with their seed: the given one, or else the one
that was chosen at random. -/
def generate (r : VariationRanges) (base : OperationSet) (chosen : Int) :
    Except Rejection (Int × List OperationSet) :=
  let seed := r.seed.getD chosen
  (r.expand base seed).map fun sets => (seed, sets)

end VariationRanges

def seedChoices : Nat := 1000000

end Soundworks
