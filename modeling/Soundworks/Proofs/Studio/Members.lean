import Soundworks.Proofs.Expansion.Variation
import Soundworks.Proofs.Files.Joining
import Soundworks.Proofs.Job.Separate
import Soundworks.Proofs.Studio.Harmonics
/-!
The outputs of the members of a set. A member is named after its input, with a label of its own
between the stem and the extension; so no two members of a set have the same output, and no member
is written onto the input, even if the members are put into the directory of the input.
-/

namespace Soundworks

/-- A label that goes into a name as it is. -/
def IsLabel (label : String) : Prop := '/' ∉ label.toList ∧ '.' ∉ label.toList

instance (label : String) : Decidable (IsLabel label) := inferInstanceAs (Decidable (_ ∧ _))

def memberName (path label : String) : String :=
  Path.stem path ++ "_" ++ label ++ Path.extension path

theorem memberOutput_eq (path directory label : String) :
    memberOutput path directory label = Path.join directory (memberName path label) := rfl

section

variable {w : Workplace} {path directory label : String}

/-! ### The names of members -/

theorem toList_memberName (path label : String) :
    (memberName path label).toList =
      (Path.stem path).toList ++ '_' :: label.toList ++ (Path.extension path).toList := by
  simp [memberName]

theorem memberName_injective (path : String) : Function.Injective (memberName path) := by
  intro label label' h
  have hfront := String.append_left_inj _ |>.mp h
  exact String.append_right_inj _ |>.mp hfront

theorem isName_memberName (path : String) (h : IsLabel label) :
    Path.IsName (memberName path label) := by
  obtain ⟨hstem, hextension⟩ := Path.slash_not_mem_stem_extension path
  refine Path.isName_of_mem (c := '_') ?_ ?_ (by decide)
  · rw [toList_memberName]
    simp [hstem, hextension, h.1]
  · rw [toList_memberName]
    simp

theorem memberName_ne_tilde (path label : String) : memberName path label ≠ "~" := by
  intro h
  have hmem : '_' ∈ (memberName path label).toList := by
    rw [toList_memberName]
    simp
  rw [h] at hmem
  exact absurd hmem (by decide)

theorem Workplace.name_resolve (w : Workplace) (h : Path.IsName (Path.name path))
    (htilde : Path.name path ≠ "~") : Path.name (w.resolve path) = Path.name path := by
  have hresolve := w.resolve_join (String.ofList (Text.throughLast '/' path.toList)) h htilde
  rw [Path.join_throughLast_name] at hresolve
  rw [hresolve]
  refine Path.name_like _ fun s hs => ?_
  rcases List.mem_append.mp hs with hs | hs
  · exact (w.isAbsolute_resolve _).names s hs
  · rwa [List.mem_singleton.mp hs]

theorem extension_eq_empty_of_name {p : String}
    (h : '.' ∉ (Path.name p).toList.dropWhile (· = '.')) : Path.extension p = "" := by
  rw [Path.toList_name] at h
  rw [Path.extension, Path.splitName, if_neg h]

/-- A member of an input without an extension has none either. -/
theorem dot_not_mem_memberName (hlabel : IsLabel label)
    (h : Path.splitName (Text.afterLast '/' path.toList) = (Text.afterLast '/' path.toList, []))
    (hdots : '.' ∉ (Text.afterLast '/' path.toList).dropWhile (· = '.')) :
    '.' ∉ (memberName path label).toList.dropWhile (· = '.') := by
  have hstem : (Path.stem path).toList = Text.afterLast '/' path.toList := by
    rw [Path.stem, h, String.toList_ofList]
  have hextension : (Path.extension path).toList = [] := by
    rw [Path.extension, h, String.toList_ofList]
  rw [toList_memberName, hstem, hextension, List.append_nil, List.dropWhile_append]
  split
  · simpa using hlabel.2
  · rw [List.mem_append, not_or]
    exact ⟨hdots, by simpa using hlabel.2⟩

/-- The name of a member is not that of the input. If the input has an extension, its name is
shorter; if it has none, then the member has none, and it is no sound. -/
theorem memberName_ne_name_resolve (h : IsLabel label)
    (hsupported : isSupported (w.resolve path) = true) :
    memberName path label ≠ Path.name (w.resolve path) := by
  intro hname
  rcases Path.splitName_cases (Text.afterLast '/' path.toList) with
    ⟨heq, hdots⟩ | ⟨stem, ext, -, hcat, -, c, hc, hdot⟩
  · have hextension : Path.extension (w.resolve path) = "" := by
      refine extension_eq_empty_of_name ?_
      rw [← hname]
      exact dot_not_mem_memberName h heq hdots
    rw [isSupported, hextension] at hsupported
    exact absurd hsupported (by decide)
  · have hproper : Path.IsName (Path.name path) := by
      refine Path.isName_of_mem (Path.slash_not_mem_name path) (c := c) ?_ hdot
      rw [Path.toList_name, hcat]
      exact List.mem_append_left _ hc
    have htilde : Path.name path ≠ "~" := by
      intro htilde
      have hmem : '.' ∈ (Path.name path).toList := by
        rw [Path.toList_name, hcat]
        simp
      rw [htilde] at hmem
      exact absurd hmem (by decide)
    rw [w.name_resolve hproper htilde, ← Path.stem_append_extension] at hname
    have hlength := congrArg (·.toList.length) hname
    simp only [toList_memberName, String.toList_append, List.length_append,
      List.length_cons] at hlength
    omega

/-! ### The outputs of members -/

theorem parts_resolve_memberOutput (w : Workplace) (path directory : String)
    (h : IsLabel label) :
    Path.parts (w.resolve (memberOutput path directory label)) =
      Path.parts (w.resolve directory) ++ [memberName path label] := by
  have hname := isName_memberName path h
  rw [memberOutput_eq, w.resolve_join directory hname (memberName_ne_tilde path label)]
  refine Path.parts_like _ fun s hs => ?_
  rcases List.mem_append.mp hs with hs | hs
  · exact ((w.isAbsolute_resolve directory).names s hs).1
  · rw [List.mem_singleton.mp hs]
    exact hname.1

theorem parent_resolve_memberOutput (w : Workplace) (path directory : String)
    (h : IsLabel label) :
    Path.parent (w.resolve (memberOutput path directory label)) = w.resolve directory := by
  have hname := isName_memberName path h
  rw [memberOutput_eq, w.resolve_join directory hname (memberName_ne_tilde path label),
    Path.parent_like _ (fun s hs => ((w.isAbsolute_resolve directory).names s hs).1) hname.1.2,
    ← (w.isNormal_resolve directory).eq]

/-- A member is not at the place of its input. -/
theorem parts_resolve_memberOutput_ne (directory : String) (h : IsLabel label)
    (hsupported : isSupported (w.resolve path) = true) :
    Path.parts (w.resolve (memberOutput path directory label)) ≠
      Path.parts (w.resolve path) := by
  intro hplace
  have hparts := parts_resolve_memberOutput w path directory h
  rw [hplace] at hparts
  have hne : Path.parts (w.resolve path) ≠ [] := by
    rw [hparts]
    exact List.append_ne_nil_of_right_ne_nil _ (List.cons_ne_nil _ _)
  rw [(w.isAbsolute_resolve path).parts_eq hne] at hparts
  have hname := (List.append_inj' hparts (Eq.refl 1)).2
  exact memberName_ne_name_resolve h hsupported (List.singleton_inj.mp hname).symm

end

/-- Jobs that make the members of a set from one input. Each output is a proper name in the
directory, no two of them are the same, neither as they are given nor as places, and none is the
input; a call of the engine reads the input and nothing else, and writes the output. -/
structure Members (s : Studio) (input directory : String) (jobs : List Job) : Prop
    extends Separate s.place jobs where
  paths : (jobs.map (·.output)).Nodup
  places : (jobs.map (·.target s.place)).Nodup
  inside : ∀ j ∈ jobs, Path.parent (s.place.resolve j.output) = s.place.resolve directory ∧
    ∃ n, Path.IsName n ∧ j.output = Path.join directory n
  apart : ∀ j ∈ jobs, s.place.resolve j.output ≠ input ∧ j.target s.place ≠ Path.parts input
  calls : ∀ j ∈ jobs, ∀ (p : Performer) (t : FileTree), ∀ call ∈ (j.run p s t).calls,
    call.output = s.place.resolve j.output ∧ ∀ path ∈ call.inputs, path = input

section

variable {s : Studio} {path directory : String} {overwrite : Bool}

@[simp] theorem output_memberJob (path directory : String) (overwrite : Bool) (label : String)
    (o : OperationSet) : (memberJob path directory overwrite label o).output =
      memberOutput path directory label := by
  rw [memberJob]

@[simp] theorem inputs_memberJob (path directory : String) (overwrite : Bool) (label : String)
    (o : OperationSet) : (memberJob path directory overwrite label o).inputs = [path] := rfl

theorem calls_memberJob {label : String} {o : OperationSet} {p : Performer} {t : FileTree}
    {call : EngineCall}
    (h : call ∈ ((memberJob path directory overwrite label o).run p s t).calls) :
    call.output = s.place.resolve (memberOutput path directory label) ∧
      ∀ i ∈ call.inputs, i = s.place.resolve path := by
  have hprepare := Job.prepare_of_call (Job.mem_calls_run.mp h)
  obtain ⟨houtput, -⟩ := Job.output_of_prepare hprepare
  rw [output_memberJob] at houtput
  refine ⟨houtput, fun i hi => ?_⟩
  obtain ⟨path', hpath', rfl⟩ := Job.mem_inputs_of_prepare hprepare hi
  rw [inputs_memberJob] at hpath'
  rw [List.mem_singleton.mp hpath']

/-- Outputs at different places are different. -/
theorem nodup_of_targets {w : Workplace} {jobs : List Job}
    (h : (jobs.map (·.target w)).Nodup) :
    (jobs.map fun j => w.resolve j.output).Nodup ∧ (jobs.map (·.output)).Nodup := by
  constructor
  · refine List.Nodup.of_map Path.parts ?_
    simpa only [List.map_map, Function.comp_def, Job.target] using h
  · refine List.Nodup.of_map (fun output => Path.parts (w.resolve output)) ?_
    simpa only [List.map_map, Function.comp_def, Job.target] using h

/-- Jobs for labels that differ make members of a set. -/
theorem members_memberJobs (directory : String) (overwrite : Bool)
    (sets : List (String × OperationSet)) (hlabels : ∀ e ∈ sets, IsLabel e.1)
    (hnodup : (sets.map (·.1)).Nodup) (hsupported : isSupported (s.place.resolve path) = true) :
    Members s (s.place.resolve path) directory
      (sets.map fun e => memberJob path directory overwrite e.1 e.2) := by
  have hplaces : ((sets.map fun e => memberJob path directory overwrite e.1 e.2).map
      (·.target s.place)).Nodup := by
    have hmap : (sets.map fun e => memberJob path directory overwrite e.1 e.2).map
        (·.target s.place) = (sets.map (·.1)).map fun label =>
          Path.parts (s.place.resolve directory) ++ [memberName path label] := by
      rw [List.map_map, List.map_map]
      refine List.map_congr_left fun e he => ?_
      simp only [Function.comp_apply, Job.target, output_memberJob]
      exact parts_resolve_memberOutput s.place path directory (hlabels e he)
    rw [hmap]
    refine hnodup.map fun label label' h => memberName_injective path ?_
    simpa using h
  have hparent : ∀ e ∈ sets, Path.parent (s.place.resolve (memberOutput path directory e.1)) =
      s.place.resolve directory :=
    fun e he => parent_resolve_memberOutput s.place path directory (hlabels e he)
  have hseparate : Separate s.place
      (sets.map fun e => memberJob path directory overwrite e.1 e.2) := by
    constructor
    case distinct => exact (nodup_of_targets hplaces).1
    case together =>
      simp only [List.forall_mem_map, output_memberJob]
      intro e he k hk
      rw [hparent e he, hparent k hk]
    case outside =>
      simp only [List.forall_mem_map, inputs_memberJob, Job.target, output_memberJob]
      intro e he k hk path' hpath' hplace
      rw [List.mem_singleton.mp hpath'] at hplace
      exact parts_resolve_memberOutput_ne directory (hlabels k hk) hsupported hplace.symm
  constructor
  case toSeparate => exact hseparate
  case paths => exact (nodup_of_targets hplaces).2
  case places => exact hplaces
  case inside =>
    simp only [List.forall_mem_map, output_memberJob]
    intro e he
    exact ⟨hparent e he, _, isName_memberName path (hlabels e he), memberOutput_eq ..⟩
  case apart =>
    simp only [List.forall_mem_map, Job.target, output_memberJob]
    intro e he
    have hplace := parts_resolve_memberOutput_ne directory (hlabels e he) hsupported
    exact ⟨fun heq => hplace (congrArg Path.parts heq), hplace⟩
  case calls =>
    simp only [List.forall_mem_map, output_memberJob]
    exact fun e _ p t call hcall => calls_memberJob hcall

/-! ### Variations and harmonics -/

theorem isLabel_variation (i : Nat) : IsLabel ("var" ++ toString i) := by
  have hdigit : ∀ c ∈ (toString i).toList, c.isDigit = true := by
    intro c hc
    exact Nat.isDigit_of_mem_toDigits (b := 10) (by decide) (by decide) (by simpa using hc)
  have hmark : ∀ c : Char, c ∉ "var".toList → c.isDigit = false →
      c ∉ ("var" ++ toString i).toList := by
    intro c hword hother hc
    rw [String.toList_append, List.mem_append] at hc
    rw [hdigit c (hc.resolve_left hword)] at hother
    exact Bool.noConfusion hother
  exact ⟨hmark '/' (by decide) (by decide), hmark '.' (by decide) (by decide)⟩

theorem variationLabel_injective :
    Function.Injective fun i : Nat => "var" ++ toString (i + 1) := by
  intro i k h
  have hdigits : Nat.toDigits 10 (i + 1) = Nat.toDigits 10 (k + 1) := by
    simpa [← String.toList_inj] using h
  simpa using Mix.toDigits_injective hdigits

end

namespace Harmonics

variable {h : Harmonics}

theorem isLabel_of_mem_added {i : Interval} (hi : i ∈ h.added) : IsLabel i.name := by
  obtain ⟨rate, hrate⟩ := Interval.exists_rate (mem_added.mp hi).1
  have hall : ∀ e ∈ Interval.rates, IsLabel e.1 := by decide
  exact hall _ hrate

/-- Each interval is added once. -/
theorem nodup_names_added (h : Harmonics) : (h.added.map (·.name)).Nodup := by
  have hlevels : (h.levels.map (·.1)).Nodup := by
    rw [show h.levels.map (·.1) = ["octave_up", "octave_down", "fifth_up", "third_up"] from rfl]
    decide
  have hname : ∀ (name : String) (semitones : Int) (level : Option Binary64) (i : Interval),
      (level.filter (0 < ·)).map (Interval.mk name semitones) = some i → i.name = name := by
    intro name semitones level i hi
    obtain ⟨mix, -, rfl⟩ := Option.map_eq_some_iff.mp hi
    rfl
  rw [List.Nodup, List.pairwise_map] at hlevels ⊢
  rw [added, List.pairwise_filterMap]
  refine hlevels.imp fun {e e'} hne i hi i' hi' => ?_
  rwa [hname _ _ _ i hi, hname _ _ _ i' hi']

end Harmonics

namespace Studio

variable {s : Studio} {t : FileTree} {path input directory : String}

def variationJobs (path directory : String) (overwrite : Bool) (sets : List OperationSet) :
    List Job :=
  sets.zipIdx.map fun (o, i) =>
    memberJob path directory overwrite ("var" ++ toString (i + 1)) o

theorem length_variationJobs (path directory : String) (overwrite : Bool)
    (sets : List OperationSet) :
    (variationJobs path directory overwrite sets).length = sets.length := by
  rw [variationJobs, List.length_map, List.length_zipIdx]

theorem variations_eq {ranges : VariationRanges} {base : OperationSet} {chosen seed : Int}
    {sets : List OperationSet} (hs : s.capability = .advanced)
    (hinput : t.input s.place path = .ok input)
    (hsets : ranges.generate base chosen = .ok (seed, sets)) (overwrite : Bool) :
    s.variations t chosen path directory ranges base overwrite =
      .ok (seed, variationJobs path directory overwrite sets) := by
  have hrequire : s.require "variations" = .ok () := by rw [require, hs]
  rw [variations, hrequire, hinput, hsets]
  rfl

theorem members_variationJobs (directory : String) (overwrite : Bool) (sets : List OperationSet)
    (hsupported : isSupported (s.place.resolve path) = true) :
    Members s (s.place.resolve path) directory (variationJobs path directory overwrite sets) := by
  have hlabels : (sets.zipIdx.map fun e => "var" ++ toString (e.2 + 1)).Nodup := by
    have hrange : sets.zipIdx.map (·.2) = List.range' 0 sets.length := List.zipIdx_map_snd 0 sets
    have hnodup := (List.nodup_range' (s := 0) (n := sets.length)).map variationLabel_injective
    rw [← hrange, List.map_map] at hnodup
    exact hnodup
  have hmembers := members_memberJobs directory overwrite
    (sets.zipIdx.map fun e => ("var" ++ toString (e.2 + 1), e.1))
    (List.forall_mem_map.mpr fun e _ => isLabel_variation (e.2 + 1))
    (by simpa only [List.map_map, Function.comp_def] using hlabels) hsupported
  simpa only [variationJobs, List.map_map, Function.comp_def] using hmembers

/-- The members of a set never get in each other's way, nor in that of the input. For every input
that is a sound, every directory, every accepted base and whatever is asked for, the variations are
made, as many as are counted, and so are the harmonics if any level is above zero; and in both sets
all outputs are different names in the directory, at different places, and none is the input, also
if the directory is that of the input and the input is named like a member. -/
theorem members_apart
    {ranges : VariationRanges} {base : OperationSet} {h : Harmonics}
    (hranges : VariationRanges.form.Reads ranges) (hbase : OperationSet.form.Reads base)
    (hread : Harmonics.form.Reads h) (hs : s.capability = .advanced)
    (hinput : t.input s.place path = .ok input) (directory : String) (chosen : Int)
    (overwrite : Bool) :
    (∃ jobs, s.variations t chosen path directory ranges base overwrite =
        .ok (ranges.seed.getD chosen, jobs) ∧ (jobs.length : Int) = ranges.count ∧
      Members s input directory jobs) ∧
    ((∃ mix, some mix ∈ [h.octaveUp, h.octaveDown, h.fifthUp, h.thirdUp] ∧ 0 < mix) →
      ∃ jobs, s.harmonics t path directory h overwrite = .ok jobs ∧
        jobs.length = h.added.length ∧ Members s input directory jobs) := by
  obtain ⟨rfl, -, -, hsupported⟩ := FileTree.input_eq_ok.mp hinput
  constructor
  · have hvalid := Form.valid_of_reads VariationRanges.form_exact hranges
    obtain ⟨sets, hsets, hlength, -⟩ :=
      hvalid.exists_generate (Form.valid_of_reads OperationSet.form_exact hbase) chosen
    refine ⟨_, variations_eq hs hinput hsets overwrite, by rwa [length_variationJobs], ?_⟩
    exact members_variationJobs directory overwrite sets hsupported
  · rintro ⟨mix, hmix, hpos⟩
    have hsome : h.added ≠ [] := fun hnone => Harmonics.added_eq_nil_iff.mp hnone mix hmix hpos
    have hjobs : s.harmonics t path directory h overwrite = _ :=
      harmonics_eq (Form.valid_of_reads Harmonics.form_exact hread) hs hinput
    rw [if_neg hsome] at hjobs
    refine ⟨_, hjobs, List.length_map .., ?_⟩
    have hmembers := members_memberJobs directory overwrite
      (h.added.map fun i => (i.name, i.mixing))
      (List.forall_mem_map.mpr fun i hi => Harmonics.isLabel_of_mem_added hi)
      (by simpa only [List.map_map, Function.comp_def] using h.nodup_names_added) hsupported
    simpa only [List.map_map, Function.comp_def] using hmembers

/-- A directory with a sound that is named like a variation. -/
def namedTake : FileTree :=
  (FileTree.empty.put ["in"] .directory).put ["in", "voice_var1.wav"] (.file "RIFF" 0o644)

/-- Three variations and two harmonics of it, in its own directory. -/
theorem members_of_namedTake :
    (∃ jobs, voiceStudio.variations namedTake 7 "voice_var1.wav" "." { count := 3 } {} true =
        .ok (7, jobs) ∧ (jobs.length : Int) = 3 ∧
      Members voiceStudio "/in/voice_var1.wav" "." jobs) ∧
    ∃ jobs, voiceStudio.harmonics namedTake "voice_var1.wav" "." extremeLevels true = .ok jobs ∧
      jobs.length = 2 ∧ Members voiceStudio "/in/voice_var1.wav" "." jobs := by
  have hranges : VariationRanges.form.Reads { count := 3 } :=
    .inl ⟨.object [("count", .integer 3)], by decide +kernel⟩
  have hbase : OperationSet.form.Reads {} := .inl ⟨.object [], by decide +kernel⟩
  have hinput : namedTake.input voiceStudio.place "voice_var1.wav" = .ok "/in/voice_var1.wav" := rfl
  obtain ⟨hvariations, hharmonics⟩ :=
    members_apart hranges hbase reads_extremeLevels rfl hinput "." 7 true
  have hlevels : extremeLevels.added.length = 2 := by decide +kernel
  rw [hlevels] at hharmonics
  exact ⟨hvariations, hharmonics ⟨1, by decide, by decide⟩⟩

end Studio

end Soundworks
