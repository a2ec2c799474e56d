import Soundworks.Operation.Set
import Soundworks.Proofs.Plan.Finite
import Soundworks.Proofs.Validation.Declaration
/-!
What is declared of an operation set. The tables list every field of every operation, with its
bounds or its members and how it may be missing. Whatever is accepted keeps to them, at every depth,
and so every step by which a plan is made from it is defined.
-/

namespace Soundworks

open Schema

/-! ### The basic operations -/

def Volume.declaration : Declaration := .record
  [("adjust_db", .optional, .number (.between (-60) 20)),
    ("normalize", .optional, .truth),
    ("target_lufs", .optional, .number .unbounded)]

theorem Volume.form_declares : Volume.form.toSchema.Declares declaration :=
  Form.declares_ofFields
    (Fields.Declares.build Volume.mk
      |>.field (.optional (declares_number _)) |>.field (.optional declares_bool)
      |>.field (.optional (declares_number _)))
    fun _ _ _ => rfl

def Format.declaration : Declaration := .record
  [("sample_rate", .optional, .magnitude [8000, 16000, 22050, 44100, 48000, 96000, 192000]),
    ("bitrate_kbps", .optional, .integer (.between 64 320)),
    ("channels", .optional, .magnitude [1, 2, 6, 8]),
    ("codec", .optional, .word ["pcm", "mp3", "aac", "vorbis", "flac"])]

theorem Format.form_declares : Format.form.toSchema.Declares declaration :=
  Form.declares_ofFields
    (Fields.Declares.build Format.mk
      |>.field (.optional (declares_magnitude _ _)) |>.field (.optional (declares_integer _))
      |>.field (.optional (declares_magnitude _ _)) |>.field (.optional (declares_word _ _)))
    fun _ _ _ _ => rfl

def Trim.declaration : Declaration := .record
  [("start_sec", .required, .number (.atLeast 0)),
    ("end_sec", .required, .number (.atLeast 0))]

theorem Trim.form_declares : Trim.form.toSchema.Declares declaration :=
  Form.declares_ofFields
    (Fields.Declares.build Trim.mk
      |>.field (.required (declares_number _)) |>.field (.required (declares_number _)))
    fun _ _ => rfl

def Loop.declaration : Declaration := .record
  [("enabled", .required, .truth),
    ("count", .required, .integer (.atLeast 1))]

theorem Loop.form_declares : Loop.form.toSchema.Declares declaration :=
  Form.declares_ofFields
    (Fields.Declares.build Loop.mk
      |>.field (.required declares_bool) |>.field (.required (declares_integer _)))
    fun _ _ => rfl

def Effects.declaration : Declaration := .record
  [("fade_in_sec", .optional, .number (.atLeast 0)),
    ("fade_out_sec", .optional, .number (.atLeast 0)),
    ("trim", .optional, Trim.declaration),
    ("loop", .optional, Loop.declaration)]

theorem Effects.form_declares : Effects.form.toSchema.Declares declaration :=
  Form.declares_ofFields
    (Fields.Declares.build Effects.mk
      |>.field (.optional (declares_number _)) |>.field (.optional (declares_number _))
      |>.field (.optional Trim.form_declares) |>.field (.optional Loop.form_declares))
    fun _ _ _ _ => rfl

/-! ### Pitch, tempo and spectrum -/

def Pitch.declaration : Declaration := .record
  [("semitones", .required, .number (.between (-12) 12)),
    ("cents", .optional, .number (.between (-100) 100)),
    ("preserve_formants", .optional, .truth)]

theorem Pitch.form_declares : Pitch.form.toSchema.Declares declaration :=
  Form.declares_ofFields
    (Fields.Declares.build Pitch.mk
      |>.field (.required (declares_number _)) |>.field (.optional (declares_number _))
      |>.field (.optional declares_bool))
    fun _ _ _ => rfl

def Tempo.declaration : Declaration := .record
  [("factor", .required, .number (.between 0.5 2)),
    ("preserve_pitch", .optional, .truth)]

theorem Tempo.form_declares : Tempo.form.toSchema.Declares declaration :=
  Form.declares_ofFields
    (Fields.Declares.build Tempo.mk
      |>.field (.required (declares_number _)) |>.field (.optional declares_bool))
    fun _ _ => rfl

def Harmonics.declaration : Declaration := .record
  [("octave_up", .optional, .number (.between 0 1)),
    ("octave_down", .optional, .number (.between 0 1)),
    ("fifth_up", .optional, .number (.between 0 1)),
    ("third_up", .optional, .number (.between 0 1))]

theorem Harmonics.form_declares : Harmonics.form.toSchema.Declares declaration :=
  Form.declares_ofFields
    (Fields.Declares.build Harmonics.mk
      |>.field (.optional (declares_number _)) |>.field (.optional (declares_number _))
      |>.field (.optional (declares_number _)) |>.field (.optional (declares_number _)))
    fun _ _ _ _ => rfl

def Spectral.declaration : Declaration := .record
  [("bass_boost", .optional, .number (.between (-12) 12)),
    ("treble_boost", .optional, .number (.between (-12) 12)),
    ("mid_cut", .optional, .number (.between (-12) 12)),
    ("warmth", .optional, .number (.between 0 1)),
    ("brightness", .optional, .number (.between 0 1))]

theorem Spectral.form_declares : Spectral.form.toSchema.Declares declaration :=
  Form.declares_ofFields
    (Fields.Declares.build Spectral.mk
      |>.field (.optional (declares_number _)) |>.field (.optional (declares_number _))
      |>.field (.optional (declares_number _)) |>.field (.optional (declares_number _))
      |>.field (.optional (declares_number _)))
    fun _ _ _ _ _ => rfl

/-! ### Dynamics -/

def Compressor.declaration : Declaration := .record
  [("threshold", .required, .number (.between (-60) 0)),
    ("ratio", .required, .number (.between 1 20)),
    ("attack", .required, .number (.between 0.01 2000)),
    ("release", .required, .number (.between 0.01 9000)),
    ("knee", .optional, .number (.between 0 40))]

theorem Compressor.form_declares : Compressor.form.toSchema.Declares declaration :=
  Form.declares_ofFields
    (Fields.Declares.build Compressor.mk
      |>.field (.required (declares_number _)) |>.field (.required (declares_number _))
      |>.field (.required (declares_number _)) |>.field (.required (declares_number _))
      |>.field (.optional (declares_number _)))
    fun _ _ _ _ _ => rfl

def Gate.declaration : Declaration := .record
  [("threshold", .required, .number (.between (-80) 0)),
    ("ratio", .required, .number (.between 1 20)),
    ("attack", .optional, .number (.between 0 9000)),
    ("release", .optional, .number (.between 0 9000))]

theorem Gate.form_declares : Gate.form.toSchema.Declares declaration :=
  Form.declares_ofFields
    (Fields.Declares.build Gate.mk
      |>.field (.required (declares_number _)) |>.field (.required (declares_number _))
      |>.field (.optional (declares_number _)) |>.field (.optional (declares_number _)))
    fun _ _ _ _ => rfl

def Limiter.declaration : Declaration := .record
  [("threshold", .required, .number (.between (-30) 0)),
    ("release", .optional, .number (.between 0 8000))]

theorem Limiter.form_declares : Limiter.form.toSchema.Declares declaration :=
  Form.declares_ofFields
    (Fields.Declares.build Limiter.mk
      |>.field (.required (declares_number _)) |>.field (.optional (declares_number _)))
    fun _ _ => rfl

def Dynamics.declaration : Declaration := .record
  [("compressor", .optional, Compressor.declaration),
    ("gate", .optional, Gate.declaration),
    ("limiter", .optional, Limiter.declaration)]

theorem Dynamics.form_declares : Dynamics.form.toSchema.Declares declaration :=
  Form.declares_ofFields
    (Fields.Declares.build Dynamics.mk
      |>.field (.optional Compressor.form_declares) |>.field (.optional Gate.form_declares)
      |>.field (.optional Limiter.form_declares))
    fun _ _ _ => rfl

/-! ### Space and modulation -/

def Spatial.declaration : Declaration := .record
  [("stereo_width", .optional, .number (.between 0 2)),
    ("pan_position", .optional, .number (.between (-1) 1)),
    ("reverb_send", .optional, .number (.between 0 1)),
    ("delay_time_ms", .optional, .number (.between 0 5000)),
    ("delay_feedback", .optional, .number (.between 0 0.95))]

theorem Spatial.form_declares : Spatial.form.toSchema.Declares declaration :=
  Form.declares_ofFields
    (Fields.Declares.build Spatial.mk
      |>.field (.optional (declares_number _)) |>.field (.optional (declares_number _))
      |>.field (.optional (declares_number _)) |>.field (.optional (declares_number _))
      |>.field (.optional (declares_number _)))
    fun _ _ _ _ _ => rfl

def Tremolo.declaration : Declaration := .record
  [("rate", .required, .number (.between 0.1 20)),
    ("depth", .required, .number (.between 0 1)),
    ("waveform", .optional, .word ["sine", "triangle", "square"])]

theorem Tremolo.form_declares : Tremolo.form.toSchema.Declares declaration :=
  Form.declares_ofFields
    (Fields.Declares.build Tremolo.mk
      |>.field (.required (declares_number _)) |>.field (.required (declares_number _))
      |>.field (.optional (declares_word _ _)))
    fun _ _ _ => rfl

def Vibrato.declaration : Declaration := .record
  [("rate", .required, .number (.between 0.1 20)),
    ("depth", .required, .number (.between 0 1)),
    ("waveform", .optional, .word ["sine", "triangle"])]

theorem Vibrato.form_declares : Vibrato.form.toSchema.Declares declaration :=
  Form.declares_ofFields
    (Fields.Declares.build Vibrato.mk
      |>.field (.required (declares_number _)) |>.field (.required (declares_number _))
      |>.field (.optional (declares_word _ _)))
    fun _ _ _ => rfl

def Chorus.declaration : Declaration := .record
  [("rate", .required, .number (.between 0.1 5)),
    ("depth", .required, .number (.between 0 1)),
    ("delay_ms", .required, .number (.between 5 40))]

theorem Chorus.form_declares : Chorus.form.toSchema.Declares declaration :=
  Form.declares_ofFields
    (Fields.Declares.build Chorus.mk
      |>.field (.required (declares_number _)) |>.field (.required (declares_number _))
      |>.field (.required (declares_number _)))
    fun _ _ _ => rfl

def Modulation.declaration : Declaration := .record
  [("tremolo", .optional, Tremolo.declaration),
    ("vibrato", .optional, Vibrato.declaration),
    ("chorus", .optional, Chorus.declaration)]

theorem Modulation.form_declares : Modulation.form.toSchema.Declares declaration :=
  Form.declares_ofFields
    (Fields.Declares.build Modulation.mk
      |>.field (.optional Tremolo.form_declares) |>.field (.optional Vibrato.form_declares)
      |>.field (.optional Chorus.form_declares))
    fun _ _ _ => rfl

/-! ### Variations and layers -/

def VariationRanges.declaration : Declaration := .record
  [("count", .required, .integer (.between 1 20)),
    ("pitch_range", .optional, .number (.between 0 12)),
    ("volume_range", .optional, .number (.between 0 10)),
    ("spectral_range", .optional, .number (.between 0 6)),
    ("timing_range", .optional, .number (.atLeast 0)),
    ("seed", .optional, .integer .unlimited)]

theorem VariationRanges.form_declares : VariationRanges.form.toSchema.Declares declaration :=
  Form.declares_ofFields
    (Fields.Declares.build VariationRanges.mk
      |>.field (.required (declares_integer _)) |>.field (.optional (declares_number _))
      |>.field (.optional (declares_number _)) |>.field (.optional (declares_number _))
      |>.field (.optional (declares_number _)) |>.field (.optional (declares_integer _)))
    fun _ _ _ _ _ _ => rfl

def Layer.declaration : Declaration := .record
  [("blend", .withDefault (.text "mix"), .word ["mix", "multiply", "add", "subtract"]),
    ("delay_ms", .optional, .number (.between 0 5000)),
    ("pitch_semitones", .optional, .number (.between (-12) 12)),
    ("volume", .optional, .number (.between 0 2)),
    ("pan", .optional, .number (.between (-1) 1))]

theorem Layer.form_declares : Layer.form.toSchema.Declares declaration :=
  Form.declares_ofFields
    (Fields.Declares.build Layer.mk
      |>.field (.withDefault (declares_word _ _)) |>.field (.optional (declares_number _))
      |>.field (.optional (declares_number _)) |>.field (.optional (declares_number _))
      |>.field (.optional (declares_number _)))
    fun _ _ _ _ _ => rfl

def Layering.declaration : Declaration := .record
  [("layers", .required, .items 1 8 Layer.declaration)]

theorem Layering.form_declares : Layering.form.toSchema.Declares declaration :=
  Form.declares_ofFields
    (Fields.Declares.build Layering.mk
      |>.field (.required (Layer.form_declares.list 1 8)))
    fun _ => rfl

def Advanced.declaration : Declaration := .record
  [("pitch", .optional, Pitch.declaration),
    ("tempo", .optional, Tempo.declaration),
    ("harmonics", .optional, Harmonics.declaration),
    ("spectral", .optional, Spectral.declaration),
    ("dynamics", .optional, Dynamics.declaration),
    ("spatial", .optional, Spatial.declaration),
    ("modulation", .optional, Modulation.declaration),
    ("variations", .optional, VariationRanges.declaration),
    ("layering", .optional, Layering.declaration)]

theorem Advanced.form_declares : Advanced.form.toSchema.Declares declaration :=
  Form.declares_ofFields
    (Fields.Declares.build Advanced.mk
      |>.field (.optional Pitch.form_declares) |>.field (.optional Tempo.form_declares)
      |>.field (.optional Harmonics.form_declares) |>.field (.optional Spectral.form_declares)
      |>.field (.optional Dynamics.form_declares) |>.field (.optional Spatial.form_declares)
      |>.field (.optional Modulation.form_declares)
      |>.field (.optional VariationRanges.form_declares)
      |>.field (.optional Layering.form_declares))
    fun _ _ _ _ _ _ _ _ _ => rfl

/-! ### Operation sets -/

namespace OperationSet

def declaration : Declaration := .record
  [("volume", .optional, Volume.declaration),
    ("format", .optional, Format.declaration),
    ("effects", .optional, Effects.declaration),
    ("advanced", .optional, Advanced.declaration)]

theorem form_declares : form.toSchema.Declares declaration :=
  Form.declares_ofFields
    (Fields.Declares.build OperationSet.mk
      |>.field (.optional Volume.form_declares) |>.field (.optional Format.form_declares)
      |>.field (.optional Effects.form_declares) |>.field (.optional Advanced.form_declares))
    fun _ _ _ _ => rfl

end OperationSet

/-! ### Plans -/

/-- The engine's names of the codecs, by their words. -/
def AudioCodec.encoders : List (String × String) :=
  [("pcm", "pcm_s16le"), ("mp3", "libmp3lame"), ("aac", "aac"), ("vorbis", "libvorbis"),
    ("flac", "flac")]

namespace OperationSet

/-- Every step by which a plan is made is defined, though none is checked: the name of a codec, the
rates of pitch shifts and their inverses, the whole milliseconds of a reverb, and the extra plays of
a loop. So there is a plan if these plays can be written. -/
structure Compiles (o : OperationSet) : Prop extends Computed o where
  codec : ∀ f ∈ o.format, ∀ c ∈ f.codec,
    AudioCodec.encoders.lookup c.name = o.settings.codec ∧ o.settings.codec.isSome
  repeats : ∀ e ∈ o.effects, ∀ l ∈ e.loop, 0 ≤ l.count - 1
  plan : o.Writable → ∀ (c : Capability) (inputs : ℕ), 1 ≤ inputs → ∃ p, o.plan c inputs = .ok p

theorem Valid.compiles {o : OperationSet} (h : o.Valid) : o.Compiles where
  toComputed := h.computed
  codec f hf c hc := by
    have hsettings : o.settings.codec = some c.encoder := by
      simp [settings, Option.mem_def.mp hf, Option.mem_def.mp hc]
    rw [hsettings]
    refine ⟨?_, rfl⟩
    cases c <;> rfl
  repeats e he l hl := by
    have hcount := ((h.effects e he).loop l hl).count
    omega
  plan hw c inputs hi := by
    have hreads : form.Reads o := .inl ⟨_, Form.accept_eq_ok form_exact h⟩
    obtain ⟨p, hp, -⟩ := exists_planned hreads hw c hi
    exact ⟨p, hp⟩

/-- Whatever is accepted as an operation set keeps to what is declared: at every depth each field
that has to be there is there, each number is within its bounds and is a number, each literal is one
of its members, there are from one to eight layers, and no object has a key that is not declared.
Every step by which a plan is made from it is defined. -/
theorem accepted_as_declared {source : Source} {v : Value} {o : OperationSet}
    (h : form.read source v = .ok o) :
    declaration.Keeps v (form.write true o) ∧
      (∀ values, (Value.object values).Occurs v → declaration.Allows values) ∧ o.Compiles := by
  have hkeeps := form_declares.keeps h
  refine ⟨hkeeps, fun values hvalues => Declaration.allows_of_occurs hvalues hkeeps, ?_⟩
  exact Valid.compiles (form_exact.sound h)

/-- Texts, numbers and truth values in each other's place. -/
def laxVoice : Value := .object
  [("volume", .object [("adjust_db", .text " 1_0 "), ("normalize", .text "yes"),
      ("target_lufs", .text "nan")]),
    ("format", .object [("sample_rate", .number 44100), ("channels", .bool true),
      ("bitrate_kbps", .text "+0128.0"), ("codec", .text "vorbis")]),
    ("effects", .object [("loop", .object [("enabled", .integer 1), ("count", .text "3.0")])]),
    ("advanced", .object [("pitch", .object [("semitones", .bool true)]), ("tempo", .null),
      ("spatial", .object [("reverb_send", .number 0.5)]),
      ("layering", .object [("layers", .list [.object [],
        .object [("blend", .text "add"), ("pitch_semitones", .integer (-12))]])])])]

def laxSet : OperationSet where
  volume := some { adjustDb := some 10, normalize := some true, targetLufs := some .nan }
  format := some
    { sampleRate := some .hz44100, bitrateKbps := some 128, channels := some .mono
      codec := some .vorbis }
  effects := some { loop := some ⟨true, 3⟩ }
  advanced := some
    { pitch := some { semitones := 1 }
      spatial := some { reverbSend := some 0.5 }
      layering := some { layers := [{}, { blend := .add, pitchSemitones := some (-12) }] } }

/-- It is accepted, and the one number that is undefined is a loudness, which has no bound. -/
theorem accepted_as_declared_of_laxVoice :
    form.read .value laxVoice = .ok laxSet ∧ declaration.Keeps laxVoice (form.write true laxSet) ∧
      laxSet.Compiles := by
  have hread : form.read .value laxVoice = .ok laxSet := by decide +kernel
  obtain ⟨hkeeps, -, hcompiles⟩ := accepted_as_declared hread
  exact ⟨hread, hkeeps, hcompiles⟩

end OperationSet

end Soundworks
