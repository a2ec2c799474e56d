import Soundworks.Proofs.Validation.Operations
/-!
The records that operation sets are made of, as one family, the sets themselves among them. Each
is read only if it is valid. What was read from any value, with whatever coercions, is written as
a dump that holds everything but the nulls, and reading the dump gives the same record.
-/

namespace Soundworks

/-- A kind of record that is an operation set or a part of one. -/
inductive Component where
  | volume | format | trim | loop | effects
  | pitch | tempo | harmonics | spectral
  | compressor | gate | limiter | dynamics
  | spatial | tremolo | vibrato | chorus | modulation
  | variations | layer | layering | advanced
  | operations
  deriving DecidableEq

namespace Component

abbrev Record : Component → Type
  | .volume => Volume
  | .format => Format
  | .trim => Trim
  | .loop => Loop
  | .effects => Effects
  | .pitch => Pitch
  | .tempo => Tempo
  | .harmonics => Harmonics
  | .spectral => Spectral
  | .compressor => Compressor
  | .gate => Gate
  | .limiter => Limiter
  | .dynamics => Dynamics
  | .spatial => Spatial
  | .tremolo => Tremolo
  | .vibrato => Vibrato
  | .chorus => Chorus
  | .modulation => Modulation
  | .variations => VariationRanges
  | .layer => Layer
  | .layering => Layering
  | .advanced => Advanced
  | .operations => OperationSet

def form : (c : Component) → Form c.Record
  | .volume => Volume.form
  | .format => Format.form
  | .trim => Trim.form
  | .loop => Loop.form
  | .effects => Effects.form
  | .pitch => Pitch.form
  | .tempo => Tempo.form
  | .harmonics => Harmonics.form
  | .spectral => Spectral.form
  | .compressor => Compressor.form
  | .gate => Gate.form
  | .limiter => Limiter.form
  | .dynamics => Dynamics.form
  | .spatial => Spatial.form
  | .tremolo => Tremolo.form
  | .vibrato => Vibrato.form
  | .chorus => Chorus.form
  | .modulation => Modulation.form
  | .variations => VariationRanges.form
  | .layer => Layer.form
  | .layering => Layering.form
  | .advanced => Advanced.form
  | .operations => OperationSet.form

/-- The record is within its bounds, and so are its parts. -/
def Valid : (c : Component) → c.Record → Prop
  | .volume => Volume.Valid
  | .format => Format.Valid
  | .trim => Trim.Valid
  | .loop => Loop.Valid
  | .effects => Effects.Valid
  | .pitch => Pitch.Valid
  | .tempo => Tempo.Valid
  | .harmonics => Harmonics.Valid
  | .spectral => Spectral.Valid
  | .compressor => Compressor.Valid
  | .gate => Gate.Valid
  | .limiter => Limiter.Valid
  | .dynamics => Dynamics.Valid
  | .spatial => Spatial.Valid
  | .tremolo => Tremolo.Valid
  | .vibrato => Vibrato.Valid
  | .chorus => Chorus.Valid
  | .modulation => Modulation.Valid
  | .variations => VariationRanges.Valid
  | .layer => Layer.Valid
  | .layering => Layering.Valid
  | .advanced => Advanced.Valid
  | .operations => OperationSet.Valid

theorem form_exact (c : Component) : c.form.toSchema.Exact c.Valid := by
  cases c with
  | volume => exact Volume.form_exact
  | format => exact Format.form_exact
  | trim => exact Trim.form_exact
  | loop => exact Loop.form_exact
  | effects => exact Effects.form_exact
  | pitch => exact Pitch.form_exact
  | tempo => exact Tempo.form_exact
  | harmonics => exact Harmonics.form_exact
  | spectral => exact Spectral.form_exact
  | compressor => exact Compressor.form_exact
  | gate => exact Gate.form_exact
  | limiter => exact Limiter.form_exact
  | dynamics => exact Dynamics.form_exact
  | spatial => exact Spatial.form_exact
  | tremolo => exact Tremolo.form_exact
  | vibrato => exact Vibrato.form_exact
  | chorus => exact Chorus.form_exact
  | modulation => exact Modulation.form_exact
  | variations => exact VariationRanges.form_exact
  | layer => exact Layer.form_exact
  | layering => exact Layering.form_exact
  | advanced => exact Advanced.form_exact
  | operations => exact OperationSet.form_exact

theorem Valid.validate_write {c : Component} {a : c.Record} (h : c.Valid a) (full : Bool) :
    c.form.validate (c.form.write full a) = .ok a := by
  have hread : c.form.read .value (c.form.write full a) = .ok a :=
    c.form_exact.back h full .value
  rw [Form.validate, hread]
  rfl

/-- A record that was read from anything is dumped as its full text without the nulls, and the
dump is accepted as the same record. -/
theorem validate_dump (c : Component) {source : Source} {v : Value} {a : c.Record}
    (h : c.form.read source v = .ok a) :
    c.form.dump a = (c.form.write true a).withoutNulls ∧
      c.form.validate (c.form.dump a) = .ok a := by
  have hvalid : c.Valid a := c.form_exact.sound h
  exact ⟨(c.form_exact.short a).symm, hvalid.validate_write false⟩

/-- Texts, truth values and numbers in each other's place, nulls, and a layer without a blend. -/
def looseVoice : Value :=
  .object
    [("volume", .object
        [("adjust_db", .text " 1_0.5 "), ("normalize", .text "YES"), ("target_lufs", .text "nan")]),
      ("format", .object [("channels", .bool true), ("bitrate_kbps", .text "+0128.0")]),
      ("effects", .object
        [("trim", .null), ("loop", .object [("enabled", .number 1), ("count", .bool true)])]),
      ("advanced", .object [("layering", .object [("layers", .list
        [.object [("pan", .text "-0")], .object [("blend", .text "add")]])])])]

def looseSet : OperationSet where
  volume := some { adjustDb := some 10.5, normalize := some true, targetLufs := some .nan }
  format := some { channels := some .mono, bitrateKbps := some 128 }
  effects := some { loop := some { enabled := true, count := 1 } }
  advanced := some
    { layering := some { layers := [{ pan := some (-0) }, { blend := .add }] } }

/-- The coerced set comes back from its dump, with its layers in their order and the blend that
was not given. -/
theorem validate_dump_of_looseVoice :
    OperationSet.form.read .document looseVoice = .ok looseSet ∧
      OperationSet.form.validate (OperationSet.form.dump looseSet) = .ok looseSet := by
  have hread : OperationSet.form.read .document looseVoice = .ok looseSet := by decide +kernel
  exact ⟨hread, (validate_dump .operations hread).2⟩

end Component

end Soundworks
