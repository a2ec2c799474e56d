import Mathlib.Data.List.Basic
import Soundworks.Proofs.Plan.Layers
/-!
Where the filters of a plan come from. An operation set says something to each of eighteen origins,
and the filters of a plan are the blocks of the origins, one after the other. The order is fixed,
a block is made from what its own origin is told, and it is empty exactly if that is nothing.
What cannot be heard makes no difference to a plan.
-/

namespace Soundworks

/-- What filters are made from. -/
inductive Origin where
  | gain | loudness | fadeIn | fadeOut | repetition
  | pitch | tempo | spectral
  | compressor | gate | limiter
  | stereoWidth | pan | delay | reverb
  | tremolo | vibrato | chorus
  deriving DecidableEq

namespace Origin

def all : List Origin :=
  [.gain, .loudness, .fadeIn, .fadeOut, .repetition, .pitch, .tempo, .spectral, .compressor,
    .gate, .limiter, .stereoWidth, .pan, .delay, .reverb, .tremolo, .vibrato, .chorus]

theorem mem_all (s : Origin) : s ∈ all := by cases s <;> decide

theorem nodup_all : all.Nodup := by decide

/-- What an origin can be told. Loudness has a switch and a target, a delay its time and its
feedback. -/
abbrev Setting : Origin → Type
  | .gain | .fadeIn | .fadeOut | .stereoWidth | .pan | .reverb => Option Binary64
  | .loudness => Option Bool × Option Binary64
  | .repetition => Option Loop
  | .pitch => Option Pitch
  | .tempo => Option Tempo
  | .spectral => Option Spectral
  | .compressor => Option Compressor
  | .gate => Option Gate
  | .limiter => Option Limiter
  | .delay => Option Binary64 × Option Binary64
  | .tremolo => Option Tremolo
  | .vibrato => Option Vibrato
  | .chorus => Option Chorus

def block : (s : Origin) → s.Setting → List Stage
  | .gain, x => Stage.each (whenSet x .gain)
  | .loudness, (on, target) =>
    Stage.each (if on = some true then [.loudness (target.getD Volume.defaultTarget)] else [])
  | .fadeIn, x => Stage.each (whenSet x .fadeIn)
  | .fadeOut, x => Stage.each (whenSet x .fadeOut)
  | .repetition, x => Stage.each (x.elim [] Loop.filters)
  | .pitch, x => Stage.each (x.elim [] Pitch.filters)
  | .tempo, x => Stage.each (x.elim [] Tempo.filters)
  | .spectral, x => x.elim [] Spectral.stages
  | .compressor, x => Stage.each (whenSet x Compressor.filter)
  | .gate, x => Stage.each (whenSet x Gate.filter)
  | .limiter, x => Stage.each (whenSet x Limiter.filter)
  | .stereoWidth, x => Stage.each (whenSet x .stereoWidth)
  | .pan, x => Stage.each (whenSet x fun p => .pan (.ofPosition p))
  | .delay, (time, feedback) => Stage.each (time.elim [] (Spatial.delayFilters · feedback))
  | .reverb, x => Stage.each (whenSet (nonzero x) Spatial.reverbFilter)
  | .tremolo, x => Stage.each (whenSet x fun t => .tremolo t.rate t.depth)
  | .vibrato, x => Stage.each (whenSet x fun v => .vibrato v.rate v.depth)
  | .chorus, x => Stage.each (whenSet x fun c => .chorus c.delayMs c.rate c.depth)

/-- A setting that asks for nothing: it is absent, switched off, a single play, without bands or
at zero. -/
def Inactive : (s : Origin) → s.Setting → Prop
  | .loudness, (on, _) => on ≠ some true
  | .repetition, x => ∀ l, x = some l → l.enabled = false ∨ l.count ≤ 1
  | .spectral, x => ∀ s : Spectral, x = some s → s.bassBoost = none ∧ s.trebleBoost = none ∧
      s.midCut = none ∧ s.warmth = none ∧ s.brightness = none
  | .delay, (time, _) => time = none
  | .reverb, x => ∀ send : Binary64, x = some send → send.isZero = true
  | .gain, x => x = none
  | .fadeIn, x => x = none
  | .fadeOut, x => x = none
  | .pitch, x => x = none
  | .tempo, x => x = none
  | .compressor, x => x = none
  | .gate, x => x = none
  | .limiter, x => x = none
  | .stereoWidth, x => x = none
  | .pan, x => x = none
  | .tremolo, x => x = none
  | .vibrato, x => x = none
  | .chorus, x => x = none

end Origin

@[simp] theorem Stage.each_eq_nil {fs : List Filter} : Stage.each fs = [] ↔ fs = [] :=
  List.map_eq_nil_iff

theorem Stage.each_append (fs gs : List Filter) :
    Stage.each (fs ++ gs) = Stage.each fs ++ Stage.each gs := List.map_append

@[simp] theorem whenSet_eq_nil {α : Type} {x : Option α} {filter : α → Filter} :
    whenSet x filter = [] ↔ x = none := by
  cases x <;> simp [whenSet]

theorem nonzero_eq_none {x : Option Binary64} :
    nonzero x = none ↔ ∀ y, x = some y → y.isZero = true := by
  cases x <;> simp [nonzero]

theorem Loop.filters_eq_nil {l : Loop} : l.filters = [] ↔ l.enabled = false ∨ l.count ≤ 1 := by
  unfold filters
  cases l.enabled <;> simp

theorem Pitch.filters_ne_nil (p : Pitch) : p.filters ≠ [] := by simp [filters, Filter.shift]

theorem Tempo.filters_ne_nil (t : Tempo) : t.filters ≠ [] := by
  unfold filters
  split <;> simp [Filter.shift]

theorem Spectral.stages_eq_nil {s : Spectral} : s.stages = [] ↔
    s.bassBoost = none ∧ s.trebleBoost = none ∧ s.midCut = none ∧ s.warmth = none ∧
      s.brightness = none := by
  have hbands : s.stages = [] ↔ s.bands = [] := by
    unfold stages
    split <;> simp_all
  rw [hbands]
  simp [bands]

theorem Spatial.delayFilters_ne_nil (ms : Binary64) (feedback : Option Binary64) :
    delayFilters ms feedback ≠ [] := by simp [delayFilters]

/-- An origin makes no stage exactly if its setting asks for nothing. -/
theorem Origin.block_eq_nil {s : Origin} {x : s.Setting} : s.block x = [] ↔ s.Inactive x := by
  cases s with
  | loudness =>
      obtain ⟨on, target⟩ := x
      by_cases hon : on = some true <;> simp [block, Inactive, hon, Stage.each_eq_nil]
  | repetition => cases x <;> simp [block, Inactive, Loop.filters_eq_nil]
  | pitch => cases x <;> simp [block, Inactive, Pitch.filters_ne_nil]
  | tempo => cases x <;> simp [block, Inactive, Tempo.filters_ne_nil]
  | spectral => cases x <;> simp [block, Inactive, Spectral.stages_eq_nil]
  | delay =>
      obtain ⟨time, feedback⟩ := x
      cases time <;> simp [block, Inactive, Spatial.delayFilters_ne_nil]
  | reverb => simp [block, Inactive, nonzero_eq_none]
  | _ => simp [block, Inactive]

namespace OperationSet

def setting (o : OperationSet) : (s : Origin) → s.Setting
  | .gain => o.volume.bind (·.adjustDb)
  | .loudness => (o.volume.bind (·.normalize), o.volume.bind (·.targetLufs))
  | .fadeIn => o.effects.bind (·.fadeInSec)
  | .fadeOut => o.effects.bind (·.fadeOutSec)
  | .repetition => o.effects.bind (·.loop)
  | .pitch => o.advanced.bind (·.pitch)
  | .tempo => o.advanced.bind (·.tempo)
  | .spectral => o.advanced.bind (·.spectral)
  | .compressor => (o.advanced.bind (·.dynamics)).bind (·.compressor)
  | .gate => (o.advanced.bind (·.dynamics)).bind (·.gate)
  | .limiter => (o.advanced.bind (·.dynamics)).bind (·.limiter)
  | .stereoWidth => (o.advanced.bind (·.spatial)).bind (·.stereoWidth)
  | .pan => (o.advanced.bind (·.spatial)).bind (·.panPosition)
  | .delay => ((o.advanced.bind (·.spatial)).bind (·.delayTimeMs),
      (o.advanced.bind (·.spatial)).bind (·.delayFeedback))
  | .reverb => (o.advanced.bind (·.spatial)).bind (·.reverbSend)
  | .tremolo => (o.advanced.bind (·.modulation)).bind (·.tremolo)
  | .vibrato => (o.advanced.bind (·.modulation)).bind (·.vibrato)
  | .chorus => (o.advanced.bind (·.modulation)).bind (·.chorus)

def share (o : OperationSet) (s : Origin) : List String :=
  (s.block (o.setting s)).map Stage.text

end OperationSet

/-! ### The blocks in their order -/

theorem Volume.each_elim (v : Option Volume) :
    Stage.each (v.elim [] Volume.filters) =
      Origin.gain.block (v.bind (·.adjustDb)) ++
        Origin.loudness.block (v.bind (·.normalize), v.bind (·.targetLufs)) := by
  cases v with
  | none => rfl
  | some v => exact Stage.each_append _ _

theorem Effects.each_elim (e : Option Effects) :
    Stage.each (e.elim [] Effects.filters) =
      Origin.fadeIn.block (e.bind (·.fadeInSec)) ++ Origin.fadeOut.block (e.bind (·.fadeOutSec)) ++
        Origin.repetition.block (e.bind (·.loop)) := by
  cases e with
  | none => rfl
  | some e => simp only [Option.elim_some, filters, Stage.each_append]; rfl

theorem Dynamics.each_elim (d : Option Dynamics) :
    Stage.each (d.elim [] Dynamics.filters) =
      Origin.compressor.block (d.bind (·.compressor)) ++ Origin.gate.block (d.bind (·.gate)) ++
        Origin.limiter.block (d.bind (·.limiter)) := by
  cases d with
  | none => rfl
  | some d => simp only [Option.elim_some, filters, Stage.each_append]; rfl

theorem Spatial.each_elim (x : Option Spatial) :
    Stage.each (x.elim [] Spatial.filters) =
      Origin.stereoWidth.block (x.bind (·.stereoWidth)) ++
        Origin.pan.block (x.bind (·.panPosition)) ++
        Origin.delay.block (x.bind (·.delayTimeMs), x.bind (·.delayFeedback)) ++
        Origin.reverb.block (x.bind (·.reverbSend)) := by
  cases x with
  | none => rfl
  | some x => simp only [Option.elim_some, filters, Stage.each_append]; rfl

theorem Modulation.each_elim (m : Option Modulation) :
    Stage.each (m.elim [] Modulation.filters) =
      Origin.tremolo.block (m.bind (·.tremolo)) ++ Origin.vibrato.block (m.bind (·.vibrato)) ++
        Origin.chorus.block (m.bind (·.chorus)) := by
  cases m with
  | none => rfl
  | some m => simp only [Option.elim_some, filters, Stage.each_append]; rfl

namespace OperationSet

/-- The stages of an operation set are the blocks of all origins. -/
theorem stages_eq_flatMap (o : OperationSet) :
    o.stages .advanced = Origin.all.flatMap fun s => s.block (o.setting s) := by
  have hbasic : o.basicStages =
      [Origin.gain, .loudness, .fadeIn, .fadeOut, .repetition].flatMap
        fun s => s.block (o.setting s) := by
    rw [basicStages, Stage.each_append, Volume.each_elim, Effects.each_elim]
    simp [setting]
  have hadvanced : o.advanced.elim [] Advanced.stages =
      [Origin.pitch, .tempo, .spectral, .compressor, .gate, .limiter, .stereoWidth, .pan, .delay,
        .reverb, .tremolo, .vibrato, .chorus].flatMap fun s => s.block (o.setting s) := by
    cases ha : o.advanced with
    | none => simp [setting, ha, Origin.block, whenSet, nonzero, Stage.each]
    | some a =>
        simp only [Option.elim_some, Advanced.stages, Stage.each_append, Dynamics.each_elim,
          Spatial.each_elim, Modulation.each_elim]
        simp [setting, ha, Origin.block]
  rw [stages, hbasic, hadvanced, ← List.flatMap_append]
  rfl

/-- The texts of a plan's filters, origin by origin. -/
theorem texts_eq_flatMap (o : OperationSet) :
    (o.stages .advanced).map Stage.text = Origin.all.flatMap o.share := by
  rw [stages_eq_flatMap, List.map_flatMap]
  rfl

/-- Two sets that tell one origin different things have the same filters before its block, and
the same filters behind it. -/
theorem share_between {o o' : OperationSet} {s : Origin}
    (h : ∀ s', s' ≠ s → o'.setting s' = o.setting s') :
    ∃ front back, Origin.all.flatMap o.share = front ++ o.share s ++ back ∧
      Origin.all.flatMap o'.share = front ++ o'.share s ++ back := by
  obtain ⟨before, after, hall⟩ := List.append_of_mem s.mem_all
  have hnodup := Origin.nodup_all
  rw [hall, List.nodup_middle, List.nodup_cons, List.mem_append, not_or] at hnodup
  obtain ⟨⟨hbefore, hafter⟩, -⟩ := hnodup
  have hsame : ∀ s', s' ≠ s → o'.share s' = o.share s' := fun s' hs' => by
    rw [share, share, h s' hs']
  have hfront : before.flatMap o'.share = before.flatMap o.share :=
    List.flatMap_congr fun s' hs' => hsame s' (ne_of_mem_of_not_mem hs' hbefore)
  have hback : after.flatMap o'.share = after.flatMap o.share :=
    List.flatMap_congr fun s' hs' => hsame s' (ne_of_mem_of_not_mem hs' hafter)
  refine ⟨before.flatMap o.share, after.flatMap o.share, ?_, ?_⟩
  · rw [hall, List.flatMap_append, List.flatMap_cons, List.append_assoc]
  · rw [hall, List.flatMap_append, List.flatMap_cons, hfront, hback, List.append_assoc]

end OperationSet

/-! ### What cannot be heard -/

def Layer.heard (l : Layer) : Layer := { l with blend := .mix }

def Modulation.heard (m : Modulation) : Modulation :=
  { m with
    tremolo := m.tremolo.map fun t => { t with waveform := none }
    vibrato := m.vibrato.map fun v => { v with waveform := none } }

/-- The advanced operations without harmonics, variations, blends and waveforms. -/
def Advanced.heard (a : Advanced) : Advanced :=
  { a with
    harmonics := none
    modulation := a.modulation.map Modulation.heard
    variations := none
    layering := a.layering.map fun l => { layers := l.layers.map Layer.heard } }

def OperationSet.heard (o : OperationSet) : OperationSet :=
  { o with advanced := o.advanced.map Advanced.heard }

theorem Modulation.filters_heard (m : Modulation) : m.heard.filters = m.filters := by
  simp [filters, heard, whenSet, Function.comp_def]

theorem Advanced.stages_heard (a : Advanced) : a.heard.stages = a.stages := by
  cases hm : a.modulation <;> simp [stages, heard, hm, Modulation.filters_heard]

theorem Mix.branches_heard (i : Nat) (ls : List Layer) :
    branches i (ls.map Layer.heard) = branches i ls := by
  induction ls generalizing i with
  | nil => rfl
  | cons l ls ih => rw [List.map_cons, branches, branches, ih]; rfl

theorem Mix.segments_heard (inputs : Nat) (ls : List Layer) (label : String) :
    segments inputs (ls.map Layer.heard) label = segments inputs ls label := by
  simp only [segments, List.map_eq_nil_iff, ← List.map_take, branches_heard, List.length_map]

namespace OperationSet

theorem stages_heard (o : OperationSet) (c : Capability) : o.heard.stages c = o.stages c := by
  cases c with
  | basic => rfl
  | advanced =>
      cases ha : o.advanced <;> simp [stages, heard, ha, Advanced.stages_heard, basicStages]

theorem mixedLayers_heard (o : OperationSet) (c : Capability) :
    o.heard.mixedLayers c = (o.mixedLayers c).map (·.map Layer.heard) := by
  cases c with
  | basic => rfl
  | advanced =>
      cases ha : o.advanced with
      | none => simp [mixedLayers, heard, ha]
      | some a => cases hl : a.layering <;> simp [mixedLayers, heard, Advanced.heard, ha, hl]

/-- A plan is made from what can be heard. -/
theorem plan_heard (o : OperationSet) (c : Capability) (inputs : Nat) :
    o.heard.plan c inputs = o.plan c inputs := by
  rw [plan, plan, stages_heard, mixedLayers_heard]
  cases o.mixedLayers c with
  | none => rfl
  | some layers =>
      simp only [Option.map_some, Mix.segments_heard]
      rfl

theorem mixedLayers_ne_nil {v : Value} {o : OperationSet}
    (h : OperationSet.form.validate v = .ok o) {c : Capability} {layers : List Layer}
    (hl : o.mixedLayers c = some layers) : layers ≠ [] := by
  cases c with
  | basic => cases hl
  | advanced => exact layers_ne_nil_of_validate h hl

/-- The plan of an accepted operation set: its settings, its filters, and a graph if there are
layers to mix. -/
theorem plan_eq {v : Value} {o : OperationSet} (h : OperationSet.form.validate v = .ok o)
    (hw : o.Writable) (c : Capability) {inputs : Nat} (hi : 1 ≤ inputs) :
    o.plan c inputs = .ok { o.settings with
      filters := (o.stages c).map Stage.text
      graph := (o.mixedLayers c).map fun layers =>
        graphText (mixSegments (layers.take inputs) ((o.stages c).map Stage.text))
      graphOutput := (o.mixedLayers c).map fun _ =>
        outputLabel ((o.stages c).map Stage.text) } := by
  cases hl : o.mixedLayers c with
  | none => simp only [plan, if_pos (writable_iff.mpr hw), hl]; rfl
  | some layers =>
      cases c with
      | basic => cases hl
      | advanced => exact plan_of_mix hw hl (mixedLayers_ne_nil h hl) hi

theorem exists_plan {v : Value} {o : OperationSet} (h : OperationSet.form.validate v = .ok o)
    (hw : o.Writable) (c : Capability) {inputs : Nat} (hi : 1 ≤ inputs) :
    ∃ p, o.plan c inputs = .ok p ∧ p.filters = (o.stages c).map Stage.text :=
  ⟨_, plan_eq h hw c hi, rfl⟩

/-- The filters of a plan are the blocks of the eighteen origins in their order; a block is empty
exactly if its setting asks for nothing. The plan of another set that differs in one origin has the
same filters before and behind its block, and a set that cannot be told apart by hearing has the
same plan. There is no plan if a loop has too many plays to be written, and only then. -/
theorem filters_by_origin {v : Value} {o : OperationSet}
    (h : OperationSet.form.validate v = .ok o) {inputs : Nat} (hi : 1 ≤ inputs) :
    (o.Writable → ∃ p, o.plan .advanced inputs = .ok p ∧
      p.filters = Origin.all.flatMap o.share ∧
      ∀ (s : Origin) (v' : Value) (o' : OperationSet), OperationSet.form.validate v' = .ok o' →
        (∀ s', s' ≠ s → o'.setting s' = o.setting s') → o'.Writable →
        ∃ p' front back, o'.plan .advanced inputs = .ok p' ∧
          p.filters = front ++ o.share s ++ back ∧ p'.filters = front ++ o'.share s ++ back) ∧
    (¬o.Writable → o.plan .advanced inputs = .error .tooManyDigits) ∧
    (∀ s, o.share s = [] ↔ s.Inactive (o.setting s)) ∧
    ∀ o' : OperationSet, o'.heard = o.heard →
      o'.plan .advanced inputs = o.plan .advanced inputs := by
  refine ⟨fun hw => ?_, fun hw => plan_of_not_writable hw _ _, fun s => ?_, fun o' hheard => ?_⟩
  · obtain ⟨p, hp, hfilters⟩ := exists_plan h hw .advanced hi
    rw [texts_eq_flatMap] at hfilters
    refine ⟨p, hp, hfilters, fun s v' o' h' hsame hw' => ?_⟩
    obtain ⟨p', hp', hfilters'⟩ := exists_plan h' hw' .advanced hi
    obtain ⟨front, back, hfront, hback⟩ := share_between hsame
    rw [texts_eq_flatMap] at hfilters'
    exact ⟨p', front, back, hp', hfilters.trans hfront, hfilters'.trans hback⟩
  · rw [share, List.map_eq_nil_iff, Origin.block_eq_nil]
  · rw [← plan_heard, hheard, plan_heard]

/-- A gain, some reverb and a tremolo. -/
def sentVoice (send : Value) : Value :=
  .object
    [("volume", .object [("adjust_db", .integer 3)]),
      ("advanced", .object
        [("spatial", .object [("reverb_send", send)]),
          ("modulation", .object
            [("tremolo", .object [("rate", .integer 5), ("depth", .number 0.5)])])])]

def sentSet (send : Binary64) : OperationSet where
  volume := some { adjustDb := some 3 }
  advanced := some
    { spatial := some { reverbSend := some send }
      modulation := some { tremolo := some { rate := 5, depth := 0.5 } } }

theorem validate_sentVoice :
    OperationSet.form.validate (sentVoice (.number 0.5)) = .ok (sentSet 0.5) ∧
      OperationSet.form.validate (sentVoice (.integer 0)) = .ok (sentSet 0) := ⟨rfl, rfl⟩

/-- A send of one half is an echo between the gain and the tremolo, and a send of zero is
nothing. -/
theorem filters_of_sentVoice :
    ∃ p p' front back, (sentSet 0.5).plan .advanced 1 = .ok p ∧
      (sentSet 0).plan .advanced 1 = .ok p' ∧
      p.filters = front ++ ["aecho=0.8:0.9:500:0.5"] ++ back ∧
      p'.filters = front ++ [] ++ back := by
  obtain ⟨p, hp, -, hother⟩ :=
    (filters_by_origin validate_sentVoice.1 (by decide : 1 ≤ 1)).1 (by decide)
  obtain ⟨p', front, back, hp', hfront, hback⟩ := hother .reverb _ _ validate_sentVoice.2 (by
    intro s hs
    cases s <;> first | rfl | exact absurd rfl hs) (by decide)
  have hshare : (sentSet 0.5).share .reverb = ["aecho=0.8:0.9:500:0.5"] := by decide +kernel
  have hshare' : (sentSet 0).share .reverb = [] := by decide +kernel
  rw [hshare] at hfront
  rw [hshare'] at hback
  exact ⟨p, p', front, back, hp, hp', hfront, hback⟩

end OperationSet

end Soundworks
