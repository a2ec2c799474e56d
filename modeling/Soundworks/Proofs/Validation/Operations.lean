import Soundworks.Operation.Set
import Soundworks.Proofs.Validation.Exact
/-!
The operations that are accepted. Each record has a notion of validity, the bounds of its numbers
and the validity of its parts; it is read only if it is valid, and then it is read back after it
was written.
-/

namespace Soundworks

open Schema

/-! ### The basic operations -/

structure Volume.Valid (v : Volume) : Prop where
  adjustDb : ∀ x ∈ v.adjustDb, -60 ≤ x ∧ x ≤ 20

theorem Volume.form_exact : Volume.form.toSchema.Exact Volume.Valid :=
  Form.exact_ofFields <| Fields.Exact.build Volume.mk
    |>.field (.optional (exact_between _ _)) |>.field (.optional exact_bool)
    |>.field (.optional exact_unbounded)

structure Format.Valid (f : Format) : Prop where
  bitrateKbps : ∀ x ∈ f.bitrateKbps, 64 ≤ x ∧ x ≤ 320

theorem Format.form_exact : Format.form.toSchema.Exact Format.Valid :=
  Form.exact_ofFields <| Fields.Exact.build Format.mk
    |>.field (.optional (exact_magnitude (by rintro ⟨⟩ <;> rfl) (by rintro ⟨⟩ <;> decide)))
    |>.field (.optional (exact_integerBetween _ _))
    |>.field (.optional (exact_magnitude (by rintro ⟨⟩ <;> rfl) (by rintro ⟨⟩ <;> decide)))
    |>.field (.optional (exact_word (by rintro ⟨⟩ <;> rfl)))

structure Trim.Valid (t : Trim) : Prop where
  startSec : 0 ≤ t.startSec
  endSec : 0 ≤ t.endSec

theorem Trim.form_exact : Trim.form.toSchema.Exact Trim.Valid :=
  Form.exact_ofFields <| Fields.Exact.build Trim.mk
    |>.field (.required (exact_atLeast _)) |>.field (.required (exact_atLeast _))

structure Loop.Valid (l : Loop) : Prop where
  count : 1 ≤ l.count

theorem Loop.form_exact : Loop.form.toSchema.Exact Loop.Valid :=
  Form.exact_ofFields <| Fields.Exact.build Loop.mk
    |>.field (.required exact_bool) |>.field (.required (exact_integerAtLeast _))

structure Effects.Valid (e : Effects) : Prop where
  fadeInSec : ∀ x ∈ e.fadeInSec, 0 ≤ x
  fadeOutSec : ∀ x ∈ e.fadeOutSec, 0 ≤ x
  trim : ∀ x ∈ e.trim, x.Valid
  loop : ∀ x ∈ e.loop, x.Valid

theorem Effects.form_exact : Effects.form.toSchema.Exact Effects.Valid :=
  Form.exact_ofFields <| Fields.Exact.build Effects.mk
    |>.field (.optional (exact_atLeast _)) |>.field (.optional (exact_atLeast _))
    |>.field (.optional Trim.form_exact) |>.field (.optional Loop.form_exact)

/-! ### Pitch, tempo and spectrum -/

structure Pitch.Valid (p : Pitch) : Prop where
  semitones : -12 ≤ p.semitones ∧ p.semitones ≤ 12
  cents : ∀ x ∈ p.cents, -100 ≤ x ∧ x ≤ 100

theorem Pitch.form_exact : Pitch.form.toSchema.Exact Pitch.Valid :=
  Form.exact_ofFields <| Fields.Exact.build Pitch.mk
    |>.field (.required (exact_between _ _)) |>.field (.optional (exact_between _ _))
    |>.field (.optional exact_bool)

structure Tempo.Valid (t : Tempo) : Prop where
  factor : 0.5 ≤ t.factor ∧ t.factor ≤ 2

theorem Tempo.form_exact : Tempo.form.toSchema.Exact Tempo.Valid :=
  Form.exact_ofFields <| Fields.Exact.build Tempo.mk
    |>.field (.required (exact_between _ _)) |>.field (.optional exact_bool)

structure Harmonics.Valid (h : Harmonics) : Prop where
  octaveUp : ∀ x ∈ h.octaveUp, 0 ≤ x ∧ x ≤ 1
  octaveDown : ∀ x ∈ h.octaveDown, 0 ≤ x ∧ x ≤ 1
  fifthUp : ∀ x ∈ h.fifthUp, 0 ≤ x ∧ x ≤ 1
  thirdUp : ∀ x ∈ h.thirdUp, 0 ≤ x ∧ x ≤ 1

theorem Harmonics.form_exact : Harmonics.form.toSchema.Exact Harmonics.Valid :=
  Form.exact_ofFields <| Fields.Exact.build Harmonics.mk
    |>.field (.optional (exact_between _ _)) |>.field (.optional (exact_between _ _))
    |>.field (.optional (exact_between _ _)) |>.field (.optional (exact_between _ _))

structure Spectral.Valid (s : Spectral) : Prop where
  bassBoost : ∀ x ∈ s.bassBoost, -12 ≤ x ∧ x ≤ 12
  trebleBoost : ∀ x ∈ s.trebleBoost, -12 ≤ x ∧ x ≤ 12
  midCut : ∀ x ∈ s.midCut, -12 ≤ x ∧ x ≤ 12
  warmth : ∀ x ∈ s.warmth, 0 ≤ x ∧ x ≤ 1
  brightness : ∀ x ∈ s.brightness, 0 ≤ x ∧ x ≤ 1

theorem Spectral.form_exact : Spectral.form.toSchema.Exact Spectral.Valid :=
  Form.exact_ofFields <| Fields.Exact.build Spectral.mk
    |>.field (.optional (exact_between _ _)) |>.field (.optional (exact_between _ _))
    |>.field (.optional (exact_between _ _)) |>.field (.optional (exact_between _ _))
    |>.field (.optional (exact_between _ _))

/-! ### Dynamics -/

structure Compressor.Valid (c : Compressor) : Prop where
  threshold : -60 ≤ c.threshold ∧ c.threshold ≤ 0
  ratio : 1 ≤ c.ratio ∧ c.ratio ≤ 20
  attack : 0.01 ≤ c.attack ∧ c.attack ≤ 2000
  release : 0.01 ≤ c.release ∧ c.release ≤ 9000
  knee : ∀ x ∈ c.knee, 0 ≤ x ∧ x ≤ 40

theorem Compressor.form_exact : Compressor.form.toSchema.Exact Compressor.Valid :=
  Form.exact_ofFields <| Fields.Exact.build Compressor.mk
    |>.field (.required (exact_between _ _)) |>.field (.required (exact_between _ _))
    |>.field (.required (exact_between _ _)) |>.field (.required (exact_between _ _))
    |>.field (.optional (exact_between _ _))

structure Gate.Valid (g : Gate) : Prop where
  threshold : -80 ≤ g.threshold ∧ g.threshold ≤ 0
  ratio : 1 ≤ g.ratio ∧ g.ratio ≤ 20
  attack : ∀ x ∈ g.attack, 0 ≤ x ∧ x ≤ 9000
  release : ∀ x ∈ g.release, 0 ≤ x ∧ x ≤ 9000

theorem Gate.form_exact : Gate.form.toSchema.Exact Gate.Valid :=
  Form.exact_ofFields <| Fields.Exact.build Gate.mk
    |>.field (.required (exact_between _ _)) |>.field (.required (exact_between _ _))
    |>.field (.optional (exact_between _ _)) |>.field (.optional (exact_between _ _))

structure Limiter.Valid (l : Limiter) : Prop where
  threshold : -30 ≤ l.threshold ∧ l.threshold ≤ 0
  release : ∀ x ∈ l.release, 0 ≤ x ∧ x ≤ 8000

theorem Limiter.form_exact : Limiter.form.toSchema.Exact Limiter.Valid :=
  Form.exact_ofFields <| Fields.Exact.build Limiter.mk
    |>.field (.required (exact_between _ _)) |>.field (.optional (exact_between _ _))

structure Dynamics.Valid (d : Dynamics) : Prop where
  compressor : ∀ x ∈ d.compressor, x.Valid
  gate : ∀ x ∈ d.gate, x.Valid
  limiter : ∀ x ∈ d.limiter, x.Valid

theorem Dynamics.form_exact : Dynamics.form.toSchema.Exact Dynamics.Valid :=
  Form.exact_ofFields <| Fields.Exact.build Dynamics.mk
    |>.field (.optional Compressor.form_exact) |>.field (.optional Gate.form_exact)
    |>.field (.optional Limiter.form_exact)

/-! ### Space and modulation -/

structure Spatial.Valid (s : Spatial) : Prop where
  stereoWidth : ∀ x ∈ s.stereoWidth, 0 ≤ x ∧ x ≤ 2
  panPosition : ∀ x ∈ s.panPosition, -1 ≤ x ∧ x ≤ 1
  reverbSend : ∀ x ∈ s.reverbSend, 0 ≤ x ∧ x ≤ 1
  delayTimeMs : ∀ x ∈ s.delayTimeMs, 0 ≤ x ∧ x ≤ 5000
  delayFeedback : ∀ x ∈ s.delayFeedback, 0 ≤ x ∧ x ≤ 0.95

theorem Spatial.form_exact : Spatial.form.toSchema.Exact Spatial.Valid :=
  Form.exact_ofFields <| Fields.Exact.build Spatial.mk
    |>.field (.optional (exact_between _ _)) |>.field (.optional (exact_between _ _))
    |>.field (.optional (exact_between _ _)) |>.field (.optional (exact_between _ _))
    |>.field (.optional (exact_between _ _))

structure Tremolo.Valid (t : Tremolo) : Prop where
  rate : 0.1 ≤ t.rate ∧ t.rate ≤ 20
  depth : 0 ≤ t.depth ∧ t.depth ≤ 1

theorem Tremolo.form_exact : Tremolo.form.toSchema.Exact Tremolo.Valid :=
  Form.exact_ofFields <| Fields.Exact.build Tremolo.mk
    |>.field (.required (exact_between _ _)) |>.field (.required (exact_between _ _))
    |>.field (.optional (exact_word (by rintro ⟨⟩ <;> rfl)))

structure Vibrato.Valid (v : Vibrato) : Prop where
  rate : 0.1 ≤ v.rate ∧ v.rate ≤ 20
  depth : 0 ≤ v.depth ∧ v.depth ≤ 1

theorem Vibrato.form_exact : Vibrato.form.toSchema.Exact Vibrato.Valid :=
  Form.exact_ofFields <| Fields.Exact.build Vibrato.mk
    |>.field (.required (exact_between _ _)) |>.field (.required (exact_between _ _))
    |>.field (.optional (exact_word (by rintro ⟨⟩ <;> rfl)))

structure Chorus.Valid (c : Chorus) : Prop where
  rate : 0.1 ≤ c.rate ∧ c.rate ≤ 5
  depth : 0 ≤ c.depth ∧ c.depth ≤ 1
  delayMs : 5 ≤ c.delayMs ∧ c.delayMs ≤ 40

theorem Chorus.form_exact : Chorus.form.toSchema.Exact Chorus.Valid :=
  Form.exact_ofFields <| Fields.Exact.build Chorus.mk
    |>.field (.required (exact_between _ _)) |>.field (.required (exact_between _ _))
    |>.field (.required (exact_between _ _))

structure Modulation.Valid (m : Modulation) : Prop where
  tremolo : ∀ x ∈ m.tremolo, x.Valid
  vibrato : ∀ x ∈ m.vibrato, x.Valid
  chorus : ∀ x ∈ m.chorus, x.Valid

theorem Modulation.form_exact : Modulation.form.toSchema.Exact Modulation.Valid :=
  Form.exact_ofFields <| Fields.Exact.build Modulation.mk
    |>.field (.optional Tremolo.form_exact) |>.field (.optional Vibrato.form_exact)
    |>.field (.optional Chorus.form_exact)

/-! ### Variations and layers -/

structure VariationRanges.Valid (r : VariationRanges) : Prop where
  count : 1 ≤ r.count ∧ r.count ≤ 20
  pitchRange : ∀ x ∈ r.pitchRange, 0 ≤ x ∧ x ≤ 12
  volumeRange : ∀ x ∈ r.volumeRange, 0 ≤ x ∧ x ≤ 10
  spectralRange : ∀ x ∈ r.spectralRange, 0 ≤ x ∧ x ≤ 6
  timingRange : ∀ x ∈ r.timingRange, 0 ≤ x

theorem VariationRanges.form_exact : VariationRanges.form.toSchema.Exact VariationRanges.Valid :=
  Form.exact_ofFields <| Fields.Exact.build VariationRanges.mk
    |>.field (.required (exact_integerBetween _ _)) |>.field (.optional (exact_between _ _))
    |>.field (.optional (exact_between _ _)) |>.field (.optional (exact_between _ _))
    |>.field (.optional (exact_atLeast _)) |>.field (.optional exact_unlimited)

structure Layer.Valid (l : Layer) : Prop where
  delayMs : ∀ x ∈ l.delayMs, 0 ≤ x ∧ x ≤ 5000
  pitchSemitones : ∀ x ∈ l.pitchSemitones, -12 ≤ x ∧ x ≤ 12
  volume : ∀ x ∈ l.volume, 0 ≤ x ∧ x ≤ 2
  pan : ∀ x ∈ l.pan, -1 ≤ x ∧ x ≤ 1

theorem Layer.form_exact : Layer.form.toSchema.Exact Layer.Valid :=
  Form.exact_ofFields <| Fields.Exact.build Layer.mk
    |>.field (.withDefault (exact_word (by rintro ⟨⟩ <;> rfl)) trivial)
    |>.field (.optional (exact_between _ _)) |>.field (.optional (exact_between _ _))
    |>.field (.optional (exact_between _ _)) |>.field (.optional (exact_between _ _))

/-- From one layer to eight, each of them valid. -/
structure Layering.Valid (l : Layering) : Prop where
  layers : ∀ x ∈ l.layers, x.Valid
  nonempty : 1 ≤ l.layers.length
  short : l.layers.length ≤ maxLayers

theorem Layering.form_exact : Layering.form.toSchema.Exact Layering.Valid :=
  Form.exact_ofFields
    (Fields.Exact.build Layering.mk |>.field
      (.required (exact_list Layer.form_exact 1 (some maxLayers))))
    (fun _ => rfl)
    (fun _ ⟨hlayers, hnonempty, hshort⟩ => ⟨hlayers, hnonempty, hshort _ rfl⟩)
    fun _ h => ⟨trivial, h.layers, h.nonempty, fun _ hm => Option.some.inj hm ▸ h.short⟩

structure Advanced.Valid (a : Advanced) : Prop where
  pitch : ∀ x ∈ a.pitch, x.Valid
  tempo : ∀ x ∈ a.tempo, x.Valid
  harmonics : ∀ x ∈ a.harmonics, x.Valid
  spectral : ∀ x ∈ a.spectral, x.Valid
  dynamics : ∀ x ∈ a.dynamics, x.Valid
  spatial : ∀ x ∈ a.spatial, x.Valid
  modulation : ∀ x ∈ a.modulation, x.Valid
  variations : ∀ x ∈ a.variations, x.Valid
  layering : ∀ x ∈ a.layering, x.Valid

theorem Advanced.form_exact : Advanced.form.toSchema.Exact Advanced.Valid :=
  Form.exact_ofFields <| Fields.Exact.build Advanced.mk
    |>.field (.optional Pitch.form_exact) |>.field (.optional Tempo.form_exact)
    |>.field (.optional Harmonics.form_exact) |>.field (.optional Spectral.form_exact)
    |>.field (.optional Dynamics.form_exact) |>.field (.optional Spatial.form_exact)
    |>.field (.optional Modulation.form_exact) |>.field (.optional VariationRanges.form_exact)
    |>.field (.optional Layering.form_exact)

/-! ### Operation sets -/

structure OperationSet.Valid (o : OperationSet) : Prop where
  volume : ∀ x ∈ o.volume, x.Valid
  format : ∀ x ∈ o.format, x.Valid
  effects : ∀ x ∈ o.effects, x.Valid
  advanced : ∀ x ∈ o.advanced, x.Valid

theorem OperationSet.form_exact : OperationSet.form.toSchema.Exact OperationSet.Valid :=
  Form.exact_ofFields <| Fields.Exact.build OperationSet.mk
    |>.field (.optional Volume.form_exact) |>.field (.optional Format.form_exact)
    |>.field (.optional Effects.form_exact) |>.field (.optional Advanced.form_exact)

theorem OperationSet.valid_empty : OperationSet.Valid {} := by
  constructor <;> exact fun _ hx => nomatch hx

theorem Advanced.valid_empty : Advanced.Valid {} := by
  constructor <;> exact fun _ hx => nomatch hx

theorem OperationSet.valid_layering {l : Layering} (h : l.Valid) :
    OperationSet.Valid { advanced := some { layering := some l } } :=
  { OperationSet.valid_empty with
    advanced := Fallible.forall_mem_some
      { Advanced.valid_empty with layering := Fallible.forall_mem_some h } }

end Soundworks
