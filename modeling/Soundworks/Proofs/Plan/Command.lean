import Soundworks.Proofs.Binary64.Rounding
import Soundworks.Proofs.Plan.Arguments
import Soundworks.Proofs.Plan.Origins
import Soundworks.Proofs.Validation.Operations
/-!
The command line of a plan. It says what the operation set says: the inputs with their trim, the
filters in one place, each of them once and in order, and the format of the output. No path, number
or text in it is taken for an option.
-/

namespace Soundworks

/-! ### Texts without a dash at their start -/

theorem head?_toDigits_ne (n : Nat) : (Nat.toDigits 10 n).head? ≠ some '-' := by
  intro h
  have hdigit := Nat.isDigit_of_mem_toDigits (by decide) (by decide) (List.mem_of_head? h)
  exact absurd hdigit (by decide)

theorem Decimal.Layout.head?_chars_ne (l : Decimal.Layout) (digits : Nat) (k : Int) :
    (l.chars digits k).head? ≠ some '-' := by
  have hds := head?_toDigits_ne digits
  have hne : Nat.toDigits 10 digits ≠ [] := Nat.toDigits_ne_nil
  obtain ⟨d, ds, hd⟩ := List.exists_cons_of_ne_nil hne
  rw [hd, List.head?_cons] at hds
  unfold chars
  dsimp only
  rw [hd]
  split
  · split
    · exact hds
    · split
      · rename_i h
        obtain ⟨n, hn⟩ : ∃ n, (((d :: ds).length : Int) + k - 1 + 1).toNat = n + 1 :=
          ⟨(((d :: ds).length : Int) + k - 1).toNat, by omega⟩
        rw [hn]
        exact hds
      · simp
  · split
    · simp
    · simp_all
    · simp_all

namespace Binary64

theorem head?_integerChars_ne {n : Int} (h : 0 ≤ n) : (integerChars n).head? ≠ some '-' := by
  have hsign : decide (n < 0) = false := by simpa using h
  rw [integerChars, hsign]
  exact head?_toDigits_ne n.natAbs

/-- A magnitude is written without a sign. -/
theorem head?_plainChars_magnitude_ne (m : ℕ) (e : ℤ) (h : Canonical m e) :
    (finite false m e h).plainChars.head? ≠ some '-' := by
  unfold plainChars
  split
  · rename_i n hn
    refine head?_integerChars_ne ?_
    simp only [toInt?, signed] at hn
    split at hn
    · cases hn
      exact Int.natCast_nonneg _
    · split at hn
      · cases hn
        exact Int.natCast_nonneg _
      · cases hn
  · unfold chars
    dsimp only
    split
    · decide
    · exact Decimal.Layout.head?_chars_ne _ _ _

/-- A number that is not negative is written without a sign. -/
theorem head?_plain_ne {x : Binary64} (h : 0 ≤ x) : x.plain.toList.head? ≠ some '-' := by
  rw [plain, String.toList_ofList]
  cases x with
  | nan => exact absurd h (by decide)
  | infinite s => cases s <;> first | decide | exact absurd h (by decide)
  | finite s m e hc =>
      cases s with
      | false => exact head?_plainChars_magnitude_ne m e hc
      | true =>
          have hvalue := (le_iff (isFinite_zero false) rfl).mp h
          have hm : m = 0 := by
            by_contra hne
            have hpos : (0 : ℚ) < m * 2 ^ e := by positivity
            rw [value_zero] at hvalue
            simp only [value, signed, if_true] at hvalue
            push_cast at hvalue
            linarith
          subst hm
          have hint : (finite true 0 e hc).toInt? = some 0 := by simp [toInt?, signed]
          simp only [plainChars, hint]
          decide

/-- A difference of two numbers is not negative if the second one is less. -/
theorem nonneg_sub_of_lt {x y : Binary64} (h : x < y) : 0 ≤ y - x := by
  cases x with
  | nan => exact absurd h (by cases y <;> simp [lt_def, compare?])
  | infinite s =>
      cases y with
      | nan => simp [lt_def, compare?] at h
      | infinite s' => cases s <;> cases s' <;> first | decide | exact absurd h (by decide)
      | finite =>
          cases s with
          | false => simp [lt_def, compare?] at h
          | true => rfl
  | finite s m e hc =>
      cases y with
      | nan => simp [lt_def, compare?] at h
      | infinite s' =>
          cases s' with
          | false => rfl
          | true => simp [lt_def, compare?] at h
      | finite s' m' e' hc' =>
          have hvalue := (lt_iff rfl rfl).mp h
          refine (rounds_sub rfl rfl).above (zero false) rfl ?_
          rw [value_zero]
          linarith

end Binary64

/-! ### Texts of filters -/

namespace Filter

theorem exists_fragments (f : Filter) : ∃ s rest, f.fragments = .words s :: rest ∧
    s.toList ≠ [] ∧ s.toList.head? ≠ some '-' := by
  cases f <;> exact ⟨_, _, rfl, by decide, by decide⟩

theorem head?_text_ne (f : Filter) : f.text.toList ≠ [] ∧ f.text.toList.head? ≠ some '-' := by
  obtain ⟨s, rest, hfragments, hne, hhead⟩ := f.exists_fragments
  obtain ⟨c, cs, hs⟩ := List.exists_cons_of_ne_nil hne
  have htext : f.text.toList = c :: (cs ++ (rest.map Fragment.text).flatMap String.toList) := by
    rw [text, hfragments, String.toList_join, List.map_cons, List.flatMap_cons]
    simp [Fragment.text, hs]
  rw [hs] at hhead
  rw [htext]
  exact ⟨List.cons_ne_nil _ _, hhead⟩

end Filter

theorem Stage.intercalate_texts {stages : List Stage} (h : ∀ s ∈ stages, s ≠ []) :
    ",".intercalate (stages.map Stage.text) =
      ",".intercalate (stages.flatten.map Filter.text) := by
  induction stages with
  | nil => rfl
  | cons s stages ih =>
      have hs : s ≠ [] := h s List.mem_cons_self
      have hrest := ih fun t ht => h t (List.mem_cons_of_mem _ ht)
      cases stages with
      | nil => simp [Stage.text]
      | cons next stages =>
          have hnext : next ≠ [] := h next (by simp)
          have hsplit : (s :: next :: stages).flatten.map Filter.text =
              s.map Filter.text ++ (next :: stages).flatten.map Filter.text := by
            rw [List.flatten_cons, List.map_append]
          rw [List.map_cons, String.intercalate_cons_of_ne_nil (by simp), hrest, hsplit,
            String.intercalate_append_of_ne_nil (by simpa using hs) (by simp [hnext])]
          rfl

/-- The filters of a chain that is split at its commas. -/
theorem Stage.splitAt_texts {stages : List Stage} (h : ∀ s ∈ stages, s ≠ []) (hne : stages ≠ []) :
    (Text.splitAt ',' (",".intercalate (stages.map Stage.text)).toList).map String.ofList =
      stages.flatten.map Filter.text := by
  have hflat : stages.flatten ≠ [] := by
    obtain ⟨s, rest, rfl⟩ := List.exists_cons_of_ne_nil hne
    simp [h s List.mem_cons_self]
  rw [intercalate_texts h, String.toList_intercalate, Text.splitAt_eq_splitOn, List.map_map]
  show List.map String.ofList (List.splitOn ',' (List.intercalate [','] _)) = _
  rw [List.splitOn_intercalate ',' ?_ (by simpa using hflat), List.map_map]
  · exact List.map_congr_left fun f _ => String.ofList_toList
  · intro cs hcs
    obtain ⟨f, -, rfl⟩ := List.mem_map.mp hcs
    exact fun hcomma => absurd (Filter.isDirective_of_mem_text hcomma) (by decide)

/-- A chain of filters does not begin with a dash. -/
theorem Stage.head?_texts_ne {stages : List Stage} (h : ∀ s ∈ stages, s ≠ []) :
    (",".intercalate (stages.map Stage.text)).toList.head? ≠ some '-' := by
  rw [intercalate_texts h, String.toList_intercalate, List.map_map]
  cases stages.flatten with
  | nil => decide
  | cons f rest =>
      obtain ⟨hne, hhead⟩ := f.head?_text_ne
      obtain ⟨c, cs, hf⟩ := List.exists_cons_of_ne_nil hne
      rw [hf] at hhead
      cases rest with
      | nil => simpa [hf] using hhead
      | cons g rest => simpa [List.intercalate_cons_of_ne_nil, hf] using hhead

/-! ### The command line of a plan -/

/-- The filters of the whole sound that a command line asks for. In a graph they stand in the
segment that reads the mix. -/
def Filtering.directives : Filtering → List String
  | .nothing => []
  | .chain text => (Text.splitAt ',' text.toList).map String.ofList
  | .graph text _ =>
    (((readGraph text).getD []).filter fun s => s.reads = ["mixed"]).flatMap fun s =>
      (Text.splitAt ',' s.body.toList).map String.ofList

namespace Plan

def filtering (p : Plan) : Filtering :=
  match p.graph.filter (· ≠ "") with
  | some graph => .graph graph (bracketed (p.graphOutput.getD "None"))
  | none => if p.filters = [] then .nothing else .chain p.filterChain

def arguments (p : Plan) (binary : String) (inputs : List String) (output : String) :
    Arguments where
  program := binary
  inputs := inputs.map fun path => (p.seek.map Binary64.plain, path)
  duration := p.duration.map Binary64.plain
  filtering := p.filtering
  sampleRate := (p.sampleRate.filter (· ≠ 0)).map toString
  channels := (p.channels.filter (· ≠ 0)).map toString
  codec := p.codec.filter (· ≠ "")
  bitrate := p.bitrate.filter (· ≠ "")
  output := output

theorem filtering_of_graph {p : Plan} {graph : String} (h : p.graph = some graph)
    (hne : graph ≠ "") : p.filtering = .graph graph (bracketed (p.graphOutput.getD "None")) := by
  simp [filtering, h, Option.filter, hne]

theorem words_filtering (p : Plan) : p.filtering.words = p.filterArgs := by
  unfold filtering filterArgs
  cases p.graph.filter (· ≠ "") with
  | some graph => rfl
  | none =>
      dsimp only
      split <;> rfl

theorem words_arguments (p : Plan) (binary : String) (inputs : List String) (output : String) :
    (p.arguments binary inputs output).words = p.command binary inputs output := by
  have hinputs : (inputs.map fun path => (p.seek.map Binary64.plain, path)).flatMap
      Arguments.inputWords = p.inputArgs inputs := by
    rw [List.flatMap_map]
    rfl
  simp only [Arguments.words, Arguments.formatWords, arguments, words_filtering, hinputs, command,
    formatArgs, List.append_assoc, List.cons_append, List.nil_append]

end Plan

namespace OperationSet

/-- The part of the inputs that is kept, if there is one. -/
def trim (o : OperationSet) : Option Trim := o.effects.bind (·.trim)

/-- A stage is a single filter, or the bands of the spectral operation. -/
theorem stage_cases {o : OperationSet} {c : Capability} {s : Stage} (h : s ∈ o.stages c) :
    s ≠ [] ∧ ((∃ f, s = [f]) ∨ ∃ sp, o.advanced.bind (·.spectral) = some sp ∧ s = sp.bands) := by
  have heach : ∀ {fs : List Filter}, s ∈ Stage.each fs → s ≠ [] ∧ ∃ f, s = [f] := fun hs => by
    obtain ⟨f, -, rfl⟩ := List.mem_map.mp hs
    exact ⟨List.cons_ne_nil _ _, f, rfl⟩
  have hbasic : s ∈ o.basicStages → s ≠ [] ∧ ∃ f, s = [f] := heach
  cases c with
  | basic => exact ⟨(hbasic h).1, .inl (hbasic h).2⟩
  | advanced =>
      rcases List.mem_append.mp h with h | h
      · exact ⟨(hbasic h).1, .inl (hbasic h).2⟩
      · cases ha : o.advanced with
        | none => simp [ha] at h
        | some a =>
            simp only [ha, Option.elim_some, Advanced.stages, List.mem_append] at h
            rcases h with (h | h) | h
            · exact ⟨(heach h).1, .inl (heach h).2⟩
            · cases hs : a.spectral with
              | none => simp [hs] at h
              | some sp =>
                  simp only [hs, Option.elim_some, Spectral.stages] at h
                  split at h
                  · simp at h
                  · rename_i hbands
                    obtain rfl := List.mem_singleton.mp h
                    exact ⟨hbands, .inr ⟨sp, by simp [hs], rfl⟩⟩
            · exact ⟨(heach h).1, .inl (heach h).2⟩

theorem stage_ne_nil {o : OperationSet} {c : Capability} : ∀ s ∈ o.stages c, s ≠ [] :=
  fun _ h => (stage_cases h).1

end OperationSet

/-- A command line asks for what an operation set says: every input from the start of the trim
and its length, the filters in one chain, or after a mix of the layers, and the format. -/
structure Arguments.Carries (a : Arguments) (o : OperationSet) (c : Capability)
    (paths : List String) : Prop where
  inputs : a.inputs = paths.map fun path => (o.trim.map fun t => t.startSec.plain, path)
  duration : a.duration = o.trim.bind fun t =>
    if t.startSec < t.endSec then some (t.endSec - t.startSec).plain else none
  nothing : a.filtering = .nothing ↔ o.stages c = [] ∧ o.mixedLayers c = none
  chain : (∃ text, a.filtering = .chain text) ↔ o.stages c ≠ [] ∧ o.mixedLayers c = none
  graph : ∀ text stream, a.filtering = .graph text stream → ∃ layers segments target,
    o.mixedLayers c = some layers ∧ stream = bracketed target ∧ readGraph text = some segments ∧
      Mix.WellFormed layers (min paths.length layers.length) ((o.stages c).map Stage.text)
        target segments
  directives : a.filtering.directives = (o.stages c).flatten.map Filter.text
  sampleRate : a.sampleRate = (o.format.bind (·.sampleRate)).map fun r => toString r.hertz
  channels : a.channels = (o.format.bind (·.channels)).map fun n => toString n.count
  codec : a.codec = (o.format.bind (·.codec)).map AudioCodec.encoder
  bitrate : a.bitrate = (o.format.bind (·.bitrateKbps)).map fun n => toString n ++ "k"

namespace OperationSet

section

variable {v : Value} {o : OperationSet} {c : Capability} {inputs : Nat} {p : Plan}

theorem ne_empty_of_readGraph {g : String} {segments : List Segment}
    (h : readGraph g = some segments) : g ≠ "" := by
  rintro rfl
  have hempty : readGraph "" = none := by decide
  rw [hempty] at h
  cases h

theorem graph_of_plan (h : OperationSet.form.validate v = .ok o) (hi : 1 ≤ inputs)
    (hp : o.plan c inputs = .ok p) {layers : List Layer} (hl : o.mixedLayers c = some layers) :
    ∃ segments target, p.graph = some (graphText segments) ∧ p.graphOutput = some target ∧
      p.filters = (o.stages c).map Stage.text ∧
      segments = mixSegments (layers.take inputs) ((o.stages c).map Stage.text) ∧
      (∀ s ∈ segments, s.Clean) ∧ readGraph (graphText segments) = some segments ∧
      Mix.WellFormed layers (min inputs layers.length) ((o.stages c).map Stage.text) target
        segments := by
  rw [plan_eq h (writable_of_plan hp) c hi, hl] at hp
  cases hp
  have husable : layers.take inputs ≠ [] := by
    simp only [ne_eq, List.take_eq_nil_iff, mixedLayers_ne_nil h hl, or_false]
    omega
  have hclean : ∀ s ∈ mixSegments (layers.take inputs) ((o.stages c).map Stage.text),
      s.Clean := fun s hs => clean_mixSegments husable hs
  exact ⟨_, outputLabel ((o.stages c).map Stage.text), rfl, rfl, rfl, rfl, hclean,
    readGraph_graphText (by simp [mixSegments]) hclean, wellFormed_mixSegments husable⟩

theorem filtering_of_plan (h : OperationSet.form.validate v = .ok o) (hi : 1 ≤ inputs)
    (hp : o.plan c inputs = .ok p) :
    (o.mixedLayers c = none ∧ p.filtering = if o.stages c = [] then .nothing else
      .chain (",".intercalate ((o.stages c).map Stage.text))) ∨
    ∃ layers segments target, o.mixedLayers c = some layers ∧
      p.filtering = .graph (graphText segments) (bracketed target) ∧
      segments = mixSegments (layers.take inputs) ((o.stages c).map Stage.text) ∧
      (∀ s ∈ segments, s.Clean) ∧ readGraph (graphText segments) = some segments ∧
      Mix.WellFormed layers (min inputs layers.length) ((o.stages c).map Stage.text) target
        segments := by
  cases hl : o.mixedLayers c with
  | none =>
      rw [plan_eq h (writable_of_plan hp) c hi, hl] at hp
      cases hp
      refine .inl ⟨rfl, ?_⟩
      simp only [Plan.filtering, Option.map_none, Option.filter_none, List.map_eq_nil_iff]
      rfl
  | some layers =>
      obtain ⟨segments, target, hgraph, htarget, -, hs, hclean, hread, hwell⟩ :=
        graph_of_plan h hi hp hl
      refine .inr ⟨layers, segments, target, rfl, ?_, hs, hclean, hread, hwell⟩
      rw [Plan.filtering_of_graph hgraph (ne_empty_of_readGraph hread), htarget]
      rfl

theorem filter_reads_mix (usable : List Layer) (filters : List String) :
    (mixSegments usable filters).filter (fun s => s.reads = ["mixed"]) = tail filters := by
  have hbranches : ∀ (i : Nat) (ls : List Layer),
      (Mix.branches i ls).filter (fun s => s.reads = ["mixed"]) = [] := by
    intro i ls
    induction ls generalizing i with
    | nil => rfl
    | cons l ls ih =>
        have hne : Mix.inputLabel i ≠ "mixed" := Mix.inputLabel_ne (by decide)
        simpa [Mix.branches, Mix.branch, hne] using ih (i + 1)
  have hjoin : (Mix.join usable.length mixLabel).reads ≠ ["mixed"] := by
    intro heq
    have hmem : "mixed" ∈ (List.range usable.length).map Mix.layerLabel := by
      show "mixed" ∈ (Mix.join usable.length mixLabel).reads
      rw [heq]
      exact List.mem_cons_self
    obtain ⟨i, -, hi⟩ := List.mem_map.mp hmem
    exact layerLabel_ne_mixLabel i hi
  rw [mixSegments, List.filter_append, List.filter_append, hbranches, List.filter_cons_of_neg
    (by simpa using hjoin)]
  unfold tail
  split <;> simp [mixLabel]

theorem directives_of_plan (h : OperationSet.form.validate v = .ok o) (hi : 1 ≤ inputs)
    (hp : o.plan c inputs = .ok p) :
    p.filtering.directives = (o.stages c).flatten.map Filter.text := by
  rcases filtering_of_plan h hi hp with ⟨-, hf⟩ | ⟨layers, segments, target, -, hf, hs, -, hread, -⟩
  · rw [hf]
    split
    · rename_i hnone
      simp [Filtering.directives, hnone]
    · rename_i hsome
      exact Stage.splitAt_texts stage_ne_nil hsome
  · rw [hf]
    simp only [Filtering.directives, hread, Option.getD_some]
    rw [hs, filter_reads_mix, tail]
    simp only [List.map_eq_nil_iff]
    split
    · rename_i hnone
      simp [hnone]
    · rename_i hsome
      rw [List.flatMap_singleton]
      exact Stage.splitAt_texts stage_ne_nil hsome

/-! ### Words without a dash at their start -/

theorem beginsWithDash_of_slash {path : String} (h : path.toList.head? = some '/') :
    beginsWithDash path = false := by
  simp [beginsWithDash, h]

theorem beginsWithDash_graphText {segments : List Segment}
    (h : ∀ s ∈ segments, s.reads ≠ []) : beginsWithDash (graphText segments) = false := by
  rw [beginsWithDash_eq_false, graphText, String.toList_intercalate]
  cases segments with
  | nil => decide
  | cons s rest =>
      have hs := Segment.toList_text (h s List.mem_cons_self)
      cases rest with
      | nil => simp [hs]
      | cons t rest => simp [List.intercalate_cons_of_ne_nil, hs]

theorem beginsWithDash_bitrate {n : Int} (h : 0 ≤ n) :
    beginsWithDash (toString n ++ "k") = false := by
  obtain ⟨k, rfl⟩ := Int.eq_ofNat_of_zero_le h
  have hdigits := head?_toDigits_ne k
  obtain ⟨d, ds, hd⟩ := List.exists_cons_of_ne_nil (Nat.toDigits_ne_nil (b := 10) (n := k))
  have htext : (toString (k : Int)).toList = Nat.toDigits 10 k := by
    show (toString k).toList = _
    simp
  rw [hd] at hdigits
  rw [beginsWithDash_eq_false, String.toList_append, htext, hd]
  exact hdigits

theorem Valid.trim {o : OperationSet} (h : o.Valid) {t : Trim} (ht : o.trim = some t) :
    t.Valid := by
  obtain ⟨e, he, het⟩ := Option.bind_eq_some_iff.mp ht
  exact (h.effects e he).trim t het

theorem undashed_filtering (h : OperationSet.form.validate v = .ok o) (hi : 1 ≤ inputs)
    (hp : o.plan c inputs = .ok p) :
    ∀ word ∈ p.filtering.values, beginsWithDash word = false := by
  intro word hword
  rcases filtering_of_plan h hi hp with ⟨-, hf⟩ | ⟨_, segments, _, -, hf, -, hclean, -⟩
  · rw [hf] at hword
    split at hword
    · exact absurd hword List.not_mem_nil
    · obtain rfl := List.mem_singleton.mp hword
      exact beginsWithDash_eq_false.mpr (Stage.head?_texts_ne stage_ne_nil)
  · rw [hf] at hword
    rcases List.mem_pair.mp hword with rfl | rfl
    · exact beginsWithDash_graphText fun s hs => (hclean s hs).nonempty
    · simp [beginsWithDash_eq_false, Segment.toList_bracketed]

theorem carries_arguments (h : OperationSet.form.validate v = .ok o) {paths : List String}
    (hi : 1 ≤ paths.length) (hp : o.plan c paths.length = .ok p) (binary output : String) :
    (p.arguments binary paths output).Carries o c paths := by
  have hfiltering := filtering_of_plan h hi hp
  have hdirectives := directives_of_plan h hi hp
  have hplan := hp
  rw [plan_eq h (writable_of_plan hp) c hi] at hplan
  have hsettings : p.seek = o.settings.seek ∧ p.duration = o.settings.duration ∧
      p.sampleRate = o.settings.sampleRate ∧ p.channels = o.settings.channels ∧
      p.codec = o.settings.codec ∧ p.bitrate = o.settings.bitrate := by
    cases hplan
    exact ⟨rfl, rfl, rfl, rfl, rfl, rfl⟩
  obtain ⟨hseek, hduration, hrate, hchannels, hcodec, hbitrate⟩ := hsettings
  constructor
  case inputs =>
    simp only [Plan.arguments, hseek, settings, trim, Option.map_map]
    rfl
  case duration =>
    simp only [Plan.arguments, hduration, settings, trim]
    cases o.effects.bind (·.trim) with
    | none => rfl
    | some t =>
        simp only [Option.bind_some, Trim.duration]
        split <;> rfl
  case nothing =>
    show p.filtering = .nothing ↔ _
    rcases hfiltering with ⟨hl, hf⟩ | ⟨layers, _, _, hl, hf, -⟩
    · rw [hf]
      split <;> simp_all
    · simp [hf, hl]
  case chain =>
    show (∃ text, p.filtering = .chain text) ↔ _
    rcases hfiltering with ⟨hl, hf⟩ | ⟨layers, _, _, hl, hf, -⟩
    · rw [hf]
      split <;> simp_all
    · simp [hf, hl]
  case graph =>
    intro text stream hgraph
    change p.filtering = .graph text stream at hgraph
    rcases hfiltering with ⟨-, hf⟩ | ⟨layers, segments, target, hl, hf, -, -, hread, hwell⟩
    · rw [hf] at hgraph
      split at hgraph <;> cases hgraph
    · rw [hf] at hgraph
      cases hgraph
      exact ⟨layers, segments, target, hl, rfl, hread, hwell⟩
  case directives => exact hdirectives
  case sampleRate =>
    simp only [Plan.arguments, hrate, settings]
    rcases o.format.bind (·.sampleRate) with _ | x
    · rfl
    · cases x <;> rfl
  case channels =>
    simp only [Plan.arguments, hchannels, settings]
    rcases o.format.bind (·.channels) with _ | x
    · rfl
    · cases x <;> rfl
  case codec =>
    simp only [Plan.arguments, hcodec, settings]
    rcases o.format.bind (·.codec) with _ | x
    · rfl
    · cases x <;> rfl
  case bitrate =>
    simp only [Plan.arguments, hbitrate, settings]
    cases o.format.bind (·.bitrateKbps) with
    | none => rfl
    | some n =>
        simp [Option.filter]

/-- Nothing in the command line of an accepted operation set is taken for an option. -/
theorem undashed_arguments (h : OperationSet.form.validate v = .ok o) {paths : List String}
    (hi : 1 ≤ paths.length) (hp : o.plan c paths.length = .ok p)
    (hpaths : ∀ path ∈ paths, path.toList.head? = some '/') {output : String}
    (houtput : output.toList.head? = some '/') (binary : String) :
    (p.arguments binary paths output).Undashed := by
  have hvalid : o.Valid := Form.valid_of_validate form_exact h
  have hfiltering := undashed_filtering h hi hp
  have hplan := hp
  rw [plan_eq h (writable_of_plan hp) c hi] at hplan
  constructor
  case filtering => exact hfiltering
  case paths =>
    intro i hi
    obtain ⟨path, hpath, rfl⟩ := List.mem_map.mp hi
    exact beginsWithDash_of_slash (hpaths path hpath)
  case output => exact beginsWithDash_of_slash houtput
  -- the rest are the settings of the operation set
  all_goals cases hplan
  case starts =>
    intro i hi start hstart
    obtain ⟨path, -, rfl⟩ := List.mem_map.mp hi
    obtain ⟨x, hx, rfl⟩ := Option.map_eq_some_iff.mp hstart
    obtain ⟨t, ht, rfl⟩ := Option.map_eq_some_iff.mp hx
    exact beginsWithDash_eq_false.mpr (Binary64.head?_plain_ne (hvalid.trim ht).startSec)
  case duration =>
    intro text htext
    obtain ⟨x, hx, rfl⟩ := Option.map_eq_some_iff.mp htext
    obtain ⟨t, -, ht⟩ := Option.bind_eq_some_iff.mp hx
    unfold Trim.duration at ht
    split at ht
    · rename_i hlt
      cases ht
      exact beginsWithDash_eq_false.mpr (Binary64.head?_plain_ne (Binary64.nonneg_sub_of_lt hlt))
    · cases ht
  case sampleRate =>
    intro text htext
    obtain ⟨x, hx, rfl⟩ := Option.map_eq_some_iff.mp htext
    obtain ⟨r, -, rfl⟩ := Option.map_eq_some_iff.mp (Option.filter_eq_some_iff.mp hx).1
    cases r <;> decide
  case channels =>
    intro text htext
    obtain ⟨x, hx, rfl⟩ := Option.map_eq_some_iff.mp htext
    obtain ⟨n, -, rfl⟩ := Option.map_eq_some_iff.mp (Option.filter_eq_some_iff.mp hx).1
    cases n <;> decide
  case codec =>
    intro text htext
    obtain ⟨k, -, rfl⟩ := Option.map_eq_some_iff.mp (Option.filter_eq_some_iff.mp htext).1
    cases k <;> decide
  case bitrate =>
    intro text htext
    obtain ⟨n, hn, rfl⟩ := Option.map_eq_some_iff.mp (Option.filter_eq_some_iff.mp htext).1
    obtain ⟨f, hf, hfn⟩ := Option.bind_eq_some_iff.mp hn
    have hleast := ((hvalid.format f hf).bitrateKbps n hfn).1
    exact beginsWithDash_bitrate (by omega)

end

/-- The command line of an accepted operation set can be read in one way only. It carries the
whole set, with the filters of the plan in one place, each stage of several filters taken apart;
its options are the words that begin with a dash. There is one unless a loop has too many plays to
be written. -/
theorem command_read_once {v : Value} {o : OperationSet}
    (h : OperationSet.form.validate v = .ok o) (c : Capability) {inputs : List String}
    (hne : inputs ≠ []) (hinputs : ∀ path ∈ inputs, path.toList.head? = some '/')
    {output : String} (houtput : output.toList.head? = some '/') (binary : String) :
    (o.Writable → ∃ p a, o.plan c inputs.length = .ok p ∧
      p.filters = (o.stages c).map Stage.text ∧
      (∀ s ∈ o.stages c, (∃ f, s = [f]) ∨
        ∃ sp, o.advanced.bind (·.spectral) = some sp ∧ s = sp.bands) ∧
      a.Carries o c inputs ∧ a.program = binary ∧ a.output = output ∧
      Arguments.read? (p.command binary inputs output) = some a ∧
      (∀ a' : Arguments, a'.words = p.command binary inputs output ↔ a' = a) ∧
      (p.command binary inputs output).tail.filter beginsWithDash = a.options) ∧
    (¬o.Writable → o.plan c inputs.length = .error .tooManyDigits) := by
  refine ⟨fun hw => ?_, fun hw => plan_of_not_writable hw _ _⟩
  have hi : 1 ≤ inputs.length := List.length_pos_iff.mpr hne
  obtain ⟨p, hp, hfilters⟩ := exists_plan h hw c hi
  have hwords := p.words_arguments binary inputs output
  refine ⟨p, p.arguments binary inputs output, hp, hfilters, fun s hs => (stage_cases hs).2,
    carries_arguments h hi hp binary output, rfl, rfl, ?_, fun a' => ⟨fun ha' => ?_, ?_⟩, ?_⟩
  · rw [← hwords, Arguments.read?_words]
  · exact Arguments.words_injective (ha'.trans hwords.symm)
  · rintro rfl
    exact hwords
  · rw [← hwords]
    exact (undashed_arguments h hi hp hinputs houtput binary).filter_words

/-- Two bands behind a gain, and a part of the inputs that ends before it starts. -/
def bandedVoice : Value :=
  .object
    [("volume", .object [("adjust_db", .integer (-3))]),
      ("effects", .object
        [("trim", .object [("start_sec", .number 1.5), ("end_sec", .integer 1)])]),
      ("format", .object [("codec", .text "mp3")]),
      ("advanced", .object
        [("spectral", .object [("bass_boost", .integer 2), ("warmth", .number 0.5)])])]

def bandedSet : OperationSet where
  volume := some { adjustDb := some (-3) }
  effects := some { trim := some { startSec := 1.5, endSec := 1 } }
  format := some { codec := some .mp3 }
  advanced := some { spectral := some { bassBoost := some 2, warmth := some 0.5 } }

theorem validate_bandedVoice : OperationSet.form.validate bandedVoice = .ok bandedSet := rfl

/-- The two bands are read as filters of their own, each input has its start, and there is no
length. -/
theorem command_of_bandedVoice :
    ∃ p a, bandedSet.plan .advanced 2 = .ok p ∧
      Arguments.read? (p.command "ffmpeg" ["/in/a.wav", "/in/b.wav"] "/out/c.mp3") = some a ∧
      a.inputs = [(some "1.5", "/in/a.wav"), (some "1.5", "/in/b.wav")] ∧ a.duration = none ∧
      a.filtering.directives =
        ["volume=-3dB", "bass=g=2", "equalizer=f=200:width=100:g=1.5"] ∧
      a.codec = some "libmp3lame" ∧ a.output = "/out/c.mp3" := by
  obtain ⟨p, a, hp, -, -, ha, -, houtput, hread, -⟩ :=
    (command_read_once validate_bandedVoice .advanced
      (by decide : ["/in/a.wav", "/in/b.wav"] ≠ []) (by decide)
      (by decide : "/out/c.mp3".toList.head? = some '/') "ffmpeg").1 (by decide)
  exact ⟨p, a, hp, hread, ha.inputs.trans (by decide +kernel),
    ha.duration.trans (by decide +kernel), ha.directives.trans (by decide +kernel),
    ha.codec.trans (by decide), houtput⟩

end OperationSet

end Soundworks
