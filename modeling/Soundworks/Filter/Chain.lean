import Soundworks.Filter.Basic
import Soundworks.Binary64.Exp2
import Soundworks.Operation.Set
/-!
The filters of each operation, in the order in which they are applied. An operation that is
absent has none; the values are taken as they are, for their ranges were checked when they were
read.
-/

namespace Soundworks

open Soundworks.Filter

def nonzero (x : Option Binary64) : Option Binary64 := x.filter fun x => !x.isZero

/-- The filter of a setting, if it is present. -/
def whenSet {α : Type} (x : Option α) (filter : α → Filter) : List Filter :=
  (x.map filter).toList

/-- The loudness that normalization aims at unless told otherwise. -/
def Volume.defaultTarget : Binary64 := -23

def Volume.filters (v : Volume) : List Filter :=
  whenSet v.adjustDb .gain ++
    if v.normalize = some true then [.loudness (v.targetLufs.getD defaultTarget)] else []

def Loop.filters (l : Loop) : List Filter :=
  if l.enabled ∧ 1 < l.count then [.repeats (l.count - 1)] else []

def Effects.filters (e : Effects) : List Filter :=
  whenSet e.fadeInSec .fadeIn ++ whenSet e.fadeOutSec .fadeOut ++ e.loop.elim [] Loop.filters

def Pitch.ratio (p : Pitch) : Binary64 :=
  ((p.semitones * 100 + p.cents.getD 0) / 1200).exp2

/-- A pitch shift; the tempo is restored if formants are to be kept. -/
def Pitch.filters (p : Pitch) : List Filter :=
  shift p.ratio ++ if p.preserveFormants = some true then [.tempo (1 / p.ratio)] else []

def Tempo.filters (t : Tempo) : List Filter :=
  if t.preservePitch = some true then [.tempo t.factor] else shift t.factor

/-- The bands of a spectral operation, which form one stage. -/
def Spectral.bands (s : Spectral) : Stage :=
  whenSet s.bassBoost .bass ++ whenSet s.trebleBoost .treble ++
    whenSet s.midCut (fun g => .equalizer 1000 500 (-g.abs)) ++
    whenSet s.warmth (fun w => .equalizer 200 100 (w * 3)) ++
    whenSet s.brightness (fun b => .equalizer 8000 2000 (b * 4))

def Spectral.stages (s : Spectral) : List Stage :=
  if s.bands = [] then [] else [s.bands]

def Compressor.filter (c : Compressor) : Filter :=
  .compressor c.threshold c.ratio c.attack c.release (nonzero c.knee)

def Gate.filter (g : Gate) : Filter :=
  .gate g.threshold g.ratio (nonzero g.attack) (nonzero g.release)

def Limiter.filter (l : Limiter) : Filter := .limiter l.threshold (nonzero l.release)

def Dynamics.filters (d : Dynamics) : List Filter :=
  whenSet d.compressor Compressor.filter ++ whenSet d.gate Gate.filter ++
    whenSet d.limiter Limiter.filter

/-- The feedback of a delay unless told otherwise. -/
def Spatial.defaultFeedback : Binary64 := 0.3

/-- A delay, with its echo if both its time and its feedback are positive. -/
def Spatial.delayFilters (ms : Binary64) (feedback : Option Binary64) : List Filter :=
  let decay := feedback.getD defaultFeedback
  .delay ms :: if 0 < decay ∧ 0 < ms then [.feedback ms decay] else []

/-- An echo whose delay in milliseconds grows with the send level. -/
def Spatial.reverbFilter (send : Binary64) : Filter :=
  .reverb ((send * 1000).floor?.getD 0) send

def Spatial.filters (s : Spatial) : List Filter :=
  whenSet s.stereoWidth .stereoWidth ++ whenSet s.panPosition (fun p => .pan (.ofPosition p)) ++
    s.delayTimeMs.elim [] (Spatial.delayFilters · s.delayFeedback) ++
    whenSet (nonzero s.reverbSend) Spatial.reverbFilter

def Modulation.filters (m : Modulation) : List Filter :=
  whenSet m.tremolo (fun t => .tremolo t.rate t.depth) ++
    whenSet m.vibrato (fun v => .vibrato v.rate v.depth) ++
    whenSet m.chorus (fun c => .chorus c.delayMs c.rate c.depth)

/-- What is done to one input of a mix: delay, pitch, level and position. -/
def Layer.filters (l : Layer) : List Filter :=
  whenSet (nonzero l.delayMs) .delay ++
    (nonzero l.pitchSemitones).elim [] (fun s => shift (s / 12).exp2) ++
    whenSet l.volume .level ++ whenSet l.pan (fun p => .pan (.ofPosition p))

/-- The stages of the advanced operations; layers, harmonics and variations have none. -/
def Advanced.stages (a : Advanced) : List Stage :=
  Stage.each (a.pitch.elim [] Pitch.filters ++ a.tempo.elim [] Tempo.filters) ++
    a.spectral.elim [] Spectral.stages ++
    Stage.each (a.dynamics.elim [] Dynamics.filters ++ a.spatial.elim [] Spatial.filters ++
      a.modulation.elim [] Modulation.filters)

def OperationSet.basicStages (o : OperationSet) : List Stage :=
  Stage.each (o.volume.elim [] Volume.filters ++ o.effects.elim [] Effects.filters)

end Soundworks
