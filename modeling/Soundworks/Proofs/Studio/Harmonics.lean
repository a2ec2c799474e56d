import Soundworks.Proofs.Expansion.Harmonics
import Soundworks.Proofs.Job.Mixing
import Soundworks.Studio.Request
import Soundworks.Tool.Action
/-!
Sets of harmonics. Every interval at a level above zero has a job of its own, which mixes the sound
with its shifted copy. The two volumes are shares that make up one, and neither branch of the mix is
lost, however small or great the level is.
-/

namespace Soundworks

open Binary64

namespace Interval

def mixing (i : Interval) : OperationSet := { advanced := some { layering := some i.layering } }

/-- The intervals that can be added, and the rates at which their copies are played. -/
def rates : List (String × Int × String) :=
  [("octave_up", 12, "2"), ("octave_down", -12, "0.5"), ("fifth_up", 7, "1.4983070768766815"),
    ("third_up", 4, "1.2599210498948732")]

theorem shift_of_mem_rates {name : String} {semitones : Int} {rate : String}
    (h : (name, semitones, rate) ∈ rates) :
    (Binary64.ofInt semitones).isZero = false ∧
      (Binary64.ofInt semitones / 12).exp2.plain = rate := by
  have hall : ∀ e ∈ rates, (Binary64.ofInt e.2.1).isZero = false ∧
      (Binary64.ofInt e.2.1 / 12).exp2.plain = e.2.2 := by decide +kernel
  exact hall _ h

end Interval

namespace Studio

variable {s : Studio} {t : FileTree} {path directory : String} {h : Harmonics} {overwrite : Bool}

/-- The jobs of a set of harmonics are made without an error. -/
theorem harmonicJobs_eq (path directory : String) (overwrite : Bool) (hv : h.Valid) :
    (h.intervals.mapM fun i => (i.operations.mapError Refusal.rejected).map
      (memberJob path directory overwrite i.name)) =
      .ok (h.intervals.map fun i => memberJob path directory overwrite i.name i.mixing) := by
  rw [Fallible.mapM_eq_ok, List.forall₂_map_right_iff, List.forall₂_same]
  intro i hi
  rw [(hv.intervals i hi).operations_eq]
  rfl

theorem harmonics_eq (hv : h.Valid) (hs : s.capability = .advanced) {input : String}
    (hinput : t.input s.place path = .ok input) :
    s.harmonics t path directory h overwrite =
      if h.added = [] then .error .noIntervals
      else .ok (h.added.map fun i => memberJob path directory overwrite i.name i.mixing) := by
  have hrequire : s.require "harmonics" = .ok () := by rw [require, hs]
  rw [harmonics, hrequire, hinput, harmonicJobs_eq path directory overwrite hv,
    h.intervals_eq_added]
  by_cases hnone : h.added = []
  · rw [hnone]
    rfl
  · rw [if_neg hnone, if_neg hnone]
    rfl

end Studio

/-! ### The mix of an interval -/

namespace Interval

variable {i : Interval}

theorem filters_dry (i : Interval) : i.dry.filters = [.level (1 - i.mix)] := rfl

theorem filters_shifted (hshift : (Binary64.ofInt i.semitones).isZero = false) :
    i.shifted.filters =
      Filter.shift (Binary64.ofInt i.semitones / 12).exp2 ++ [.level i.mix] := by
  have hnonzero : nonzero (some (Binary64.ofInt i.semitones)) =
      some (Binary64.ofInt i.semitones) := by
    simp [nonzero, Option.filter, hshift]
  simp only [Layer.filters, shifted, hnonzero]
  rfl

theorem branch_dry (i : Interval) :
    Mix.branch 0 i.dry =
      { reads := ["0:a"], body := "volume=" ++ (1 - i.mix).plain, defines := "processed0" } := by
  have hbody : Stage.text [.level (1 - i.mix)] = "volume=" ++ (1 - i.mix).plain := by
    simp [Stage.text, Filter.text, Filter.fragments, Fragment.text]
  rw [Mix.branch, filters_dry, if_neg (List.cons_ne_nil _ _), hbody]
  rfl

theorem branch_shifted {rate : String} (hrate : (i.name, i.semitones, rate) ∈ rates) :
    Mix.branch 1 i.shifted =
      { reads := ["1:a"]
        body := "asetrate=44100*" ++ rate ++ ",aresample=44100,volume=" ++ i.mix.plain
        defines := "processed1" } := by
  obtain ⟨hshift, hplain⟩ := shift_of_mem_rates hrate
  have hbody : Stage.text (Filter.shift (Binary64.ofInt i.semitones / 12).exp2 ++ [.level i.mix]) =
      "asetrate=44100*" ++ rate ++ ",aresample=44100,volume=" ++ i.mix.plain := by
    have hreference : String.ofList (integerChars Filter.referenceRate) = "44100" := by decide
    rw [← hplain, ← String.toList_inj]
    simp [Stage.text, Filter.text, Filter.fragments, Filter.shift, Fragment.text, hreference]
  rw [Mix.branch, filters_shifted hshift, if_neg (by simp [Filter.shift]), hbody]
  rfl

/-- The graph of an interval: two branches, and the segment that mixes them. -/
def segments (i : Interval) (rate : String) : List Segment :=
  [{ reads := ["0:a"], body := "volume=" ++ (1 - i.mix).plain, defines := "processed0" },
    { reads := ["1:a"]
      body := "asetrate=44100*" ++ rate ++ ",aresample=44100,volume=" ++ i.mix.plain
      defines := "processed1" },
    { reads := ["processed0", "processed1"]
      body := "amix=inputs=2:duration=longest:dropout_transition=2"
      defines := "mixed" }]

theorem mixSegments_eq {rate : String} (hrate : (i.name, i.semitones, rate) ∈ rates) :
    OperationSet.mixSegments i.layering.layers [] = i.segments rate := by
  have hjoin : Mix.join 2 OperationSet.mixLabel =
      { reads := ["processed0", "processed1"]
        body := "amix=inputs=2:duration=longest:dropout_transition=2"
        defines := "mixed" } := by decide +kernel
  rw [segments, ← branch_dry, ← branch_shifted hrate, ← hjoin]
  rfl

theorem exists_rate {h : Harmonics} {level : Option Binary64}
    (hmem : (i.name, i.semitones, level) ∈ h.levels) :
    ∃ rate, (i.name, i.semitones, rate) ∈ rates := by
  have hsame : h.levels.map (fun e => (e.1, e.2.1)) = rates.map fun e => (e.1, e.2.1) := rfl
  have hpair : (i.name, i.semitones) ∈ rates.map fun e => (e.1, e.2.1) := by
    rw [← hsame]
    exact List.mem_map.mpr ⟨_, hmem, rfl⟩
  obtain ⟨⟨name, semitones, rate⟩, hrate, heq⟩ := List.mem_map.mp hpair
  cases heq
  exact ⟨rate, hrate⟩

/-- The two volumes of a mix lie between zero and one, and make up one: the first one is what the
second one leaves of it, rounded once, and exactly that if it is a number at all. -/
structure Shares (i : Interval) : Prop where
  shifted : 0 < i.mix ∧ i.mix ≤ 1
  dry : 0 ≤ 1 - i.mix ∧ 1 - i.mix ≤ 1
  sum : 1 - i.mix + i.mix = 1
  rounded : Rounds (1 - i.mix.value) (1 - i.mix)
  whole : (∃ y : Binary64, y.isFinite = true ∧ y.value = 1 - i.mix.value) →
    (1 - i.mix).value + i.mix.value = 1

theorem Valid.shares (h : i.Valid) (hpos : 0 < i.mix) : i.Shares where
  shifted := ⟨hpos, h.mix.2⟩
  dry := one_sub_share h.mix
  sum := one_sub_add_share h.mix
  rounded := rounds_one_sub (value_share h.mix).1
  whole := fun ⟨y, hy, hvalue⟩ => by
    obtain ⟨-, hrest⟩ := (rounds_one_sub (value_share h.mix).1).value_eq hy hvalue
    rw [hrest]
    exact sub_add_cancel 1 i.mix.value

/-- A job that adds an interval to a sound. -/
structure AddedBy (i : Interval) (s : Studio) (path input directory : String) (overwrite : Bool)
    (j : Job) : Prop where
  job : j =
    { inputs := [path]
      output := memberOutput path directory i.name
      operations :=
        { advanced := some { layering := some { layers :=
          [{ blend := .mix, volume := some (1 - i.mix) },
            { blend := .add, volume := some i.mix
              pitchSemitones := some (.ofInt i.semitones) }] } } }
      overwrite := overwrite }
  accepted : OperationSet.form.accept j.operations = .ok j.operations
  shares : i.Shares
  shift : (Binary64.ofInt i.semitones).value = i.semitones
  made : ∀ (p : Performer) (t : FileTree), (j.run p s t).calls ≠ [] ↔
    (∃ input, t.input s.place path = .ok input) ∧
    (t.outputDirectory s.place (Path.parent (s.place.resolve j.output))).1 = none ∧
    ((j.withDirectory s t).present s.place.directory (s.place.resolve j.output) = false ∨
      overwrite = true)
  branches : ∃ rate, (i.name, i.semitones, rate) ∈ rates ∧
    ∀ (p : Performer) (t : FileTree), ∀ call ∈ (j.run p s t).calls,
      call.inputs = [input, input] ∧
      ∃ text, call.plan = { graph := some text, graphOutput := some "mixed" } ∧
        readGraph text = some (i.segments rate)

end Interval

namespace Studio

variable {s : Studio} {t : FileTree} {path directory : String} {h : Harmonics} {overwrite : Bool}

theorem addedBy_memberJob (hs : s.capability = .advanced) {i : Interval} (hv : i.Valid)
    (hpos : 0 < i.mix) {rate : String} (hrate : (i.name, i.semitones, rate) ∈ Interval.rates) :
    i.AddedBy s path (s.place.resolve path) directory overwrite
      (memberJob path directory overwrite i.name i.mixing) := by
  have hmixing : (memberJob path directory overwrite i.name i.mixing).Mixing i.layering :=
    ⟨rfl, hv.layering, List.cons_ne_nil _ _⟩
  constructor
  case job => rfl
  case accepted =>
    exact Form.accept_eq_ok OperationSet.form_exact (OperationSet.valid_layering hv.layering)
  case shares => exact hv.shares hpos
  case shift =>
    refine value_ofInt ?_
    have hsmall := hv.semitones
    rw [Int.abs_eq_natAbs] at hsmall
    omega
  case made =>
    intro p t
    rw [hmixing.calls_run_ne_nil_iff]
    simp [memberJob]
  case branches =>
    refine ⟨rate, hrate, fun p t call hcall => ?_⟩
    have hinputs : call.inputs = [s.place.resolve path, s.place.resolve path] :=
      (Job.Mixing.inputs_eq hs hcall).trans (Job.engineInputs_single hmixing.mixedLayers _)
    obtain ⟨text, hgraph, htarget, hread⟩ := hmixing.joins hs hcall
    have husable : i.layering.layers.take call.inputs.length = i.layering.layers := by
      rw [hinputs]
      rfl
    rw [husable, Interval.mixSegments_eq hrate] at hread
    refine ⟨hinputs, text, ?_, hread⟩
    rw [hmixing.plan_eq hs hcall] at hgraph ⊢
    rw [← hgraph]
    rfl

/-- Harmonics of an accepted request for a sound that is there. The request is refused exactly if no
level is above zero. Otherwise it comes to one job for each level above zero, in the order of the
intervals; every job is put into the queue, and none fails its check. The job mixes the sound with
its copy, the copy alone is shifted, and the two volumes make up one; when it is run, the engine
is given the sound twice, and a graph of exactly these two branches. -/
theorem harmonics_complementary (hread : Harmonics.form.Reads h) (hs : s.capability = .advanced)
    {input : String} (hinput : t.input s.place path = .ok input) (directory : String)
    (overwrite : Bool) :
    (s.harmonics t path directory h overwrite = .error .noIntervals ↔
      ∀ mix, some mix ∈ [h.octaveUp, h.octaveDown, h.fifthUp, h.thirdUp] → ¬0 < mix) ∧
    ((∃ mix, some mix ∈ [h.octaveUp, h.octaveDown, h.fifthUp, h.thirdUp] ∧ 0 < mix) →
      ∃ jobs, s.harmonics t path directory h overwrite = .ok jobs ∧
        List.Forall₂ (fun i j => i.AddedBy s path input directory overwrite j) h.added jobs ∧
        ∀ (p : Performer) (f : Floor),
          (f.begin p (.ofHarmonics jobs)).1.1.jobs = f.jobs ++ jobs) := by
  have hv := Form.valid_of_reads Harmonics.form_exact hread
  obtain ⟨rfl, -⟩ := FileTree.input_eq_ok.mp hinput
  rw [harmonics_eq hv hs hinput, ← Harmonics.added_eq_nil_iff]
  refine ⟨by split <;> simp [*], fun ⟨mix, hmix, hpos⟩ => ?_⟩
  have hsome : h.added ≠ [] := fun hnone => Harmonics.added_eq_nil_iff.mp hnone mix hmix hpos
  refine ⟨_, if_neg hsome, ?_, fun p f => rfl⟩
  rw [List.forall₂_map_right_iff, List.forall₂_same]
  intro i hi
  obtain ⟨hlevel, hpos⟩ := Harmonics.mem_added.mp hi
  obtain ⟨rate, hrate⟩ := Interval.exists_rate hlevel
  exact addedBy_memberJob hs (hv.of_mem_levels hlevel) hpos hrate

/-- An octave at the greatest level and a fifth at the smallest one. -/
def extremeLevels : Harmonics where
  octaveUp := some 1
  octaveDown := some 0
  fifthUp := some 5e-324

theorem reads_extremeLevels : Harmonics.form.Reads extremeLevels :=
  .inl ⟨.object [("octave_up", .integer 1), ("octave_down", .integer 0),
    ("fifth_up", .number 5e-324)], by decide +kernel⟩

def voiceStudio : Studio := ⟨⟨"/in", "/root", {}⟩, .advanced⟩

/-- Both intervals have a job, and the fifth has a branch in its mix. -/
theorem harmonics_of_extremeLevels :
    ∃ octave fifth,
      voiceStudio.harmonics Job.oneSound "voice.wav" "/out" extremeLevels false =
        .ok [octave, fifth] ∧
      octave.output = "/out/voice_octave_up.wav" ∧ fifth.output = "/out/voice_fifth_up.wav" ∧
      ∃ call ∈ (fifth.run (Performer.rehearsed [] []) voiceStudio Job.oneSound).calls,
        call.inputs = ["/in/voice.wav", "/in/voice.wav"] ∧
        ∃ text, call.plan = { graph := some text, graphOutput := some "mixed" } ∧
          readGraph text =
            some (Interval.segments ⟨"fifth_up", 7, 5e-324⟩ "1.4983070768766815") := by
  have hvoice : Job.oneSound.input voiceStudio.place "voice.wav" = .ok "/in/voice.wav" := rfl
  obtain ⟨-, hsome⟩ := harmonics_complementary reads_extremeLevels rfl hvoice "/out" false
  obtain ⟨jobs, hjobs, hadded, -⟩ := hsome ⟨1, by decide, by decide⟩
  have hlevels : extremeLevels.added = [⟨"octave_up", 12, 1⟩, ⟨"fifth_up", 7, 5e-324⟩] := by
    decide +kernel
  rw [hlevels] at hadded
  obtain _ | ⟨hoctave, _ | ⟨hfifth, _ | _⟩⟩ := hadded
  obtain rfl := hoctave.job
  obtain rfl := hfifth.job
  obtain ⟨call, hcall⟩ := List.exists_mem_of_ne_nil _
    ((hfifth.made (Performer.rehearsed [] []) Job.oneSound).mpr ⟨⟨_, rfl⟩, rfl, .inl rfl⟩)
  obtain ⟨rate, hrate, hbranches⟩ := hfifth.branches
  obtain rfl : rate = "1.4983070768766815" := by simpa [Interval.rates] using hrate
  exact ⟨_, _, hjobs, by decide, by decide, call, hcall, hbranches _ _ call hcall⟩

end Studio

end Soundworks
