import Soundworks.Proofs.Filter.Finite
import Soundworks.Proofs.Plan.Command
import Soundworks.Proofs.Validation.Writable
/-!
The numbers in the plans of accepted operation sets. All of them are finite but those of five
settings that have no upper bound: the loudness a normalization aims at, the times of the fades,
and the start and the end of the part that is kept. Nowhere else does a plan or its command line
hold a word for a number that is not finite.
-/

namespace Soundworks

open Binary64

/-! ### Graphs -/

namespace NamesNonFinite

theorem append_quiet_iff {front cs : List Char} (h : ∀ c ∈ cs, isWordLetter c = false) :
    NamesNonFinite (front ++ cs) ↔ NamesNonFinite front := by
  cases cs with
  | nil => rw [List.append_nil]
  | cons c cs =>
      rw [append_cons_iff (h c List.mem_cons_self)]
      exact or_iff_left (not_of_quiet fun d hd => h d (List.mem_cons_of_mem _ hd))

end NamesNonFinite

theorem isWordLetter_of_mem_toString {n : Nat} {c : Char} (h : c ∈ (toString n).toList) :
    isWordLetter c = false :=
  isWordLetter_of_isDigit ((Decimal.digits_toDigits n).2 c (by simpa using h))

/-- A segment holds a word in one of its labels or in its body. -/
theorem Segment.namesNonFinite_text_iff {s : Segment} : NamesNonFinite s.text.toList ↔
    (∃ label ∈ s.reads, NamesNonFinite label.toList) ∨ NamesNonFinite s.body.toList ∨
      NamesNonFinite s.defines.toList := by
  have hreads : ∀ (labels : List String) (rest : List Char),
      NamesNonFinite ((labels.map bracketed).flatMap String.toList ++ rest) ↔
        (∃ label ∈ labels, NamesNonFinite label.toList) ∨ NamesNonFinite rest := by
    intro labels rest
    induction labels with
    | nil => simp
    | cons label labels ih =>
        rw [List.map_cons, List.flatMap_cons, toList_bracketed, List.append_assoc, List.cons_append,
          NamesNonFinite.cons_iff rfl, List.append_assoc, List.singleton_append,
          NamesNonFinite.append_cons_iff rfl, ih]
        simp [or_assoc]
  rw [text, String.toList_append, String.toList_append, String.toList_join, List.append_assoc,
    hreads, toList_bracketed, NamesNonFinite.append_cons_iff rfl,
    NamesNonFinite.append_cons_iff rfl]
  simp

theorem namesNonFinite_graphText_iff {segments : List Segment} :
    NamesNonFinite (graphText segments).toList ↔
      ∃ s ∈ segments, NamesNonFinite s.text.toList := by
  rw [graphText, String.toList_intercalate]
  show NamesNonFinite ([';'].intercalate _) ↔ _
  rw [NamesNonFinite.intercalate_iff rfl]
  simp

namespace Mix

theorem not_namesNonFinite_inputLabel (i : Nat) : ¬NamesNonFinite (inputLabel i).toList := by
  rw [inputLabel, String.toList_append,
    NamesNonFinite.quiet_append_iff fun _ => isWordLetter_of_mem_toString]
  decide

theorem not_namesNonFinite_layerLabel (i : Nat) : ¬NamesNonFinite (layerLabel i).toList := by
  rw [layerLabel, String.toList_append,
    NamesNonFinite.append_quiet_iff fun _ => isWordLetter_of_mem_toString]
  decide

theorem not_namesNonFinite_join (count : Nat) (label : String) :
    ¬NamesNonFinite (join count label).body.toList := by
  rw [join, String.toList_append, String.toList_append,
    show ":duration=longest:dropout_transition=2".toList =
      ':' :: "duration=longest:dropout_transition=2".toList from rfl,
    NamesNonFinite.append_cons_iff rfl,
    NamesNonFinite.append_quiet_iff fun _ => isWordLetter_of_mem_toString]
  decide

theorem exists_of_mem_branches {i : Nat} {ls : List Layer} {s : Segment} (h : s ∈ branches i ls) :
    ∃ k, ∃ l ∈ ls, s = branch k l := by
  induction ls generalizing i with
  | nil => cases h
  | cons l ls ih =>
      rcases List.mem_cons.mp h with rfl | h
      · exact ⟨i, l, List.mem_cons_self, rfl⟩
      · obtain ⟨k, l', hl', hs⟩ := ih h
        exact ⟨k, l', List.mem_cons_of_mem _ hl', hs⟩

theorem not_namesNonFinite_branch (i : Nat) {l : Layer} (h : l.Valid) :
    ¬NamesNonFinite (branch i l).text.toList := by
  have hbody : ¬NamesNonFinite (branch i l).body.toList := by
    show ¬NamesNonFinite (Stage.text (if l.filters = [] then [.pass] else l.filters)).toList
    rw [Stage.namesNonFinite_text_iff]
    rintro ⟨f, hf, x, hx, hnot⟩
    split at hf
    · obtain rfl := List.mem_singleton.mp hf
      cases hx
    · simp [h.finite hf x hx] at hnot
  rw [Segment.namesNonFinite_text_iff]
  rintro (⟨label, hlabel, hnames⟩ | hnames | hnames)
  · obtain rfl : label = inputLabel i := List.mem_singleton.mp hlabel
    exact not_namesNonFinite_inputLabel i hnames
  · exact hbody hnames
  · exact not_namesNonFinite_layerLabel i hnames

end Mix

namespace OperationSet

/-- The graph of a mix of valid layers holds a word exactly if one of the filters behind the mix
does. -/
theorem namesNonFinite_mix_iff {usable : List Layer} (h : ∀ l ∈ usable, l.Valid)
    (filters : List String) :
    NamesNonFinite (graphText (mixSegments usable filters)).toList ↔
      ∃ text ∈ filters, NamesNonFinite text.toList := by
  have hmix : ¬NamesNonFinite mixLabel.toList := by decide
  have htail : (∃ s ∈ tail filters, NamesNonFinite s.text.toList) ↔
      ∃ text ∈ filters, NamesNonFinite text.toList := by
    unfold tail
    split
    · rename_i hnil
      simp [hnil]
    · have hfinal : ¬NamesNonFinite finalLabel.toList := by decide
      simp only [List.mem_singleton, exists_eq_left, Segment.namesNonFinite_text_iff, hmix, hfinal,
        false_or, or_false]
      rw [String.toList_intercalate]
      show NamesNonFinite ([','].intercalate _) ↔ _
      rw [NamesNonFinite.intercalate_iff rfl]
      simp
  rw [namesNonFinite_graphText_iff, ← htail]
  constructor
  · rintro ⟨s, hs, hnames⟩
    simp only [mixSegments, List.mem_append, List.mem_singleton] at hs
    rcases hs with (hs | rfl) | hs
    · obtain ⟨k, l, hl, rfl⟩ := Mix.exists_of_mem_branches hs
      exact absurd hnames (Mix.not_namesNonFinite_branch k (h l hl))
    · rcases Segment.namesNonFinite_text_iff.mp hnames with
        ⟨label, hlabel, hnames⟩ | hnames | hnames
      · obtain ⟨i, -, rfl⟩ := List.mem_map.mp hlabel
        exact absurd hnames (Mix.not_namesNonFinite_layerLabel i)
      · exact absurd hnames (Mix.not_namesNonFinite_join _ _)
      · exact absurd hnames hmix
    · exact ⟨s, hs, hnames⟩
  · rintro ⟨s, hs, hnames⟩
    exact ⟨s, List.mem_append_right _ hs, hnames⟩

/-! ### Filters with a number that is not finite -/

/-- A filter of the whole sound with a number that is not finite: the loudness that a normalization
aims at, a fade that never ends or one that never begins. -/
inductive Unbounded (o : OperationSet) : Filter → Prop
  | loudness {v : Volume} {x : Binary64} (hv : v ∈ o.volume) (hnormalize : v.normalize = some true)
      (hx : x ∈ v.targetLufs) (hnot : x.isFinite = false) : Unbounded o (.loudness x)
  | fadeIn {e : Effects} (he : e ∈ o.effects) (h : e.fadeInSec = some (.infinite false)) :
      Unbounded o (.fadeIn (.infinite false))
  | fadeOut {e : Effects} (he : e ∈ o.effects) (h : e.fadeOutSec = some (.infinite false)) :
      Unbounded o (.fadeOut (.infinite false))

variable {o : OperationSet} {c : Capability} {f : Filter}

theorem Unbounded.numbers (h : o.Unbounded f) : ∃ x, f.numbers = [x] ∧ x.isFinite = false := by
  cases h with
  | loudness _ _ _ hnot => exact ⟨_, rfl, hnot⟩
  | fadeIn => exact ⟨_, rfl, rfl⟩
  | fadeOut => exact ⟨_, rfl, rfl⟩

/-- It stands alone among the stages of each plan. -/
theorem Unbounded.mem_stages (h : o.Unbounded f) (c : Capability) : [f] ∈ o.stages c := by
  have hbasic : f ∈ o.volume.elim [] Volume.filters ++ o.effects.elim [] Effects.filters := by
    cases h with
    | @loudness v x hv hnormalize hx hnot =>
        refine List.mem_append_left _ ?_
        rw [Option.mem_def.mp hv, Option.elim_some, Volume.filters, if_pos hnormalize,
          Option.mem_def.mp hx]
        exact List.mem_append_right _ List.mem_cons_self
    | @fadeIn e he h =>
        refine List.mem_append_right _ ?_
        rw [Option.mem_def.mp he, Option.elim_some, Effects.filters, h]
        exact List.mem_append_left _ (List.mem_append_left _ List.mem_cons_self)
    | @fadeOut e he h =>
        refine List.mem_append_right _ ?_
        rw [Option.mem_def.mp he, Option.elim_some, Effects.filters, h]
        exact List.mem_append_left _ (List.mem_append_right _ List.mem_cons_self)
  have hmem : [f] ∈ o.basicStages := List.mem_map.mpr ⟨f, hbasic, rfl⟩
  cases c with
  | basic => exact hmem
  | advanced => exact List.mem_append_left _ hmem

/-- Each other filter of the whole sound is finite. -/
theorem Valid.finite_or_unbounded (h : o.Valid) (hf : f ∈ (o.stages c).flatten) :
    f.Finite ∨ o.Unbounded f := by
  have hbasic : f ∈ o.basicStages.flatten → f.Finite ∨ o.Unbounded f := by
    rw [basicStages, Stage.flatten_each, List.mem_append]
    rintro (hf | hf)
    · cases hv : o.volume with
      | none => simp [hv] at hf
      | some v =>
          rw [hv, Option.elim_some] at hf
          refine ((h.volume v hv).finite_or hf).imp_right ?_
          rintro ⟨x, hx, hnormalize, hnot, rfl⟩
          exact .loudness hv hnormalize hx hnot
    · cases he : o.effects with
      | none => simp [he] at hf
      | some e =>
          rw [he, Option.elim_some] at hf
          refine ((h.effects e he).finite_or hf).imp_right ?_
          rintro (⟨hin, rfl⟩ | ⟨hout, rfl⟩)
          · exact .fadeIn he hin
          · exact .fadeOut he hout
  cases c with
  | basic => exact hbasic hf
  | advanced =>
      rw [stages, List.flatten_append, List.mem_append] at hf
      rcases hf with hf | hf
      · exact hbasic hf
      · cases ha : o.advanced with
        | none => simp [ha] at hf
        | some a =>
            rw [ha, Option.elim_some] at hf
            exact .inl ((h.advanced a ha).finite hf)

/-- The text of a stage holds a word exactly if the stage is one of these filters. -/
theorem Valid.namesNonFinite_stage_iff (h : o.Valid) {s : Stage} (hs : s ∈ o.stages c) :
    NamesNonFinite s.text.toList ↔ ∃ f, o.Unbounded f ∧ s = [f] := by
  rw [Stage.namesNonFinite_text_iff]
  constructor
  · rintro ⟨f, hf, x, hx, hnot⟩
    have hunbounded : o.Unbounded f :=
      (h.finite_or_unbounded (List.mem_flatten_of_mem hs hf)).resolve_left fun hfinite => by
        simp [hfinite x hx] at hnot
    rcases (stage_cases hs).2 with ⟨g, rfl⟩ | ⟨sp, hsp, rfl⟩
    · exact ⟨f, hunbounded, by rw [List.mem_singleton.mp hf]⟩
    · obtain ⟨a, ha, hspectral⟩ := Option.bind_eq_some_iff.mp hsp
      have hfinite := ((h.advanced a ha).spectral sp hspectral).finite hf x hx
      simp [hfinite] at hnot
  · rintro ⟨f, hf, rfl⟩
    obtain ⟨x, hx, hnot⟩ := hf.numbers
    exact ⟨f, List.mem_singleton_self f, x, by simp [hx], hnot⟩

theorem Valid.exists_namesNonFinite_iff (h : o.Valid) (c : Capability) :
    (∃ text ∈ (o.stages c).map Stage.text, NamesNonFinite text.toList) ↔ ∃ f, o.Unbounded f := by
  constructor
  · rintro ⟨_, htext, hnames⟩
    obtain ⟨s, hs, rfl⟩ := List.mem_map.mp htext
    obtain ⟨f, hf, -⟩ := (h.namesNonFinite_stage_iff hs).mp hnames
    exact ⟨f, hf⟩
  · rintro ⟨f, hf⟩
    have hmem := hf.mem_stages c
    exact ⟨_, List.mem_map_of_mem hmem, (h.namesNonFinite_stage_iff hmem).mpr ⟨f, hf, rfl⟩⟩

end OperationSet

/-! ### The start and the length of the part that is kept -/

/-- The length of a part is finite if its end is, and infinite otherwise. -/
theorem Trim.Valid.finite_duration {t : Trim} (h : t.Valid) {x : Binary64}
    (hx : t.duration = some x) : (x.isFinite = true ∧ t.endSec.isFinite = true) ∨
      (x = .infinite false ∧ t.endSec = .infinite false ∧ t.startSec.isFinite = true) := by
  unfold Trim.duration at hx
  split at hx
  · rename_i hlt
    cases hx
    rcases isFinite_or_infinite_of_nonneg h.startSec with hstart | hstart
    · rcases isFinite_or_infinite_of_nonneg h.endSec with hend | hend
      · have hlow := (nonneg_iff_value hstart).mp h.startSec
        have hvalue := (lt_iff hstart hend).mp hlt
        have hleast : (0 : Binary64).isFinite = true := rfl
        refine .inl ⟨(rounds_sub hend hstart).isFinite hleast hend ?_ ?_, hend⟩
        · rw [value_nought]
          linarith
        · linarith
      · refine .inr ⟨?_, hend, hstart⟩
        rw [hend]
        cases hs : t.startSec with
        | finite => rfl
        | _ => simp [hs, isFinite] at hstart
    · rw [hstart] at hlt
      rcases isFinite_or_infinite_of_nonneg h.endSec with hend | hend
      · cases he : t.endSec with
        | finite => simp [he, lt_def, compare?] at hlt
        | _ => simp [he, isFinite] at hend
      · rw [hend] at hlt
        exact absurd hlt (by decide)
  · cases hx

/-! ### Plans -/

/-- A plan in which all numbers are finite but those that an operation set does not bound. -/
structure Plan.FiniteBut (p : Plan) (o : OperationSet) (c : Capability) : Prop where
  filters : p.filters = (o.stages c).map Stage.text
  numbers : ∀ f ∈ (o.stages c).flatten, ∀ g ∈ f.fragments, g.isWords = false →
    (∃ d, Decimal.read? g.text.toList = some d) ∨
      o.Unbounded f ∧ ∃ x, g = .number x ∧ x.isFinite = false
  layers : ∀ layers ∈ o.mixedLayers c, ∀ l ∈ layers, ∀ f ∈ l.filters, ∀ g ∈ f.fragments,
    g.isWords = false → ∃ d, Decimal.read? g.text.toList = some d
  unbounded : ∀ f, o.Unbounded f → [f] ∈ o.stages c ∧ ∃ x, f.numbers = [x] ∧ x.isFinite = false
  seek : p.seek = o.trim.map (·.startSec) ∧
    ∀ x ∈ p.seek, x.isFinite = true ∨ x = .infinite false
  duration : ∀ x ∈ p.duration, ∃ t ∈ o.trim, (x.isFinite = true ∧ t.endSec.isFinite = true) ∨
    (x = .infinite false ∧ t.endSec = .infinite false ∧ t.startSec.isFinite = true)
  directives : ∀ text ∈ p.filters,
    NamesNonFinite text.toList ↔ ∃ f, o.Unbounded f ∧ text = f.text
  graph : ∀ graph ∈ p.graph, NamesNonFinite graph.toList ↔ ∃ f, o.Unbounded f
  command : ∀ binary paths output, ∀ word ∈ p.command binary paths output,
    NamesNonFinite word.toList → word = binary ∨ word ∈ paths ∨ word = output ∨
      (word = "inf" ∧ (p.seek = some (.infinite false) ∨ p.duration = some (.infinite false))) ∨
      (word ∈ p.filtering.values ∧ ∃ f, o.Unbounded f)

theorem Fragment.exists_read {f : Fragment} (hwords : f.isWords = false)
    (h : ∀ x, f = .number x → x.isFinite = true) : ∃ d, Decimal.read? f.text.toList = some d := by
  refine (isDecimal_text hwords ?_).read
  cases f with
  | words s => cases hwords
  | number x => exact h x rfl
  | integer n => rfl

theorem Filter.Finite.exists_read {f : Filter} (h : f.Finite) {g : Fragment}
    (hg : g ∈ f.fragments) (hwords : g.isWords = false) :
    ∃ d, Decimal.read? g.text.toList = some d :=
  Fragment.exists_read hwords fun _ hx => Filter.finite_iff.mp h _ (hx ▸ hg)

theorem mem_optionArgs {name word : String} {value : Option String}
    (h : word ∈ optionArgs name value) : word = name ∨ value = some word := by
  cases value with
  | none => cases h
  | some value => exact (List.mem_pair.mp h).imp_right fun heq => by rw [heq]

namespace OperationSet

variable {o : OperationSet} {c : Capability} {p : Plan}

theorem Valid.exists_read (h : o.Valid) {f : Filter} (hf : f ∈ (o.stages c).flatten)
    {g : Fragment} (hg : g ∈ f.fragments) (hwords : g.isWords = false) :
    (∃ d, Decimal.read? g.text.toList = some d) ∨
      o.Unbounded f ∧ ∃ x, g = .number x ∧ x.isFinite = false := by
  rcases h.finite_or_unbounded hf with hfinite | hunbounded
  · exact .inl (hfinite.exists_read hg hwords)
  · by_cases hx : ∃ x, g = .number x ∧ x.isFinite = false
    · exact .inr ⟨hunbounded, hx⟩
    · refine .inl (Fragment.exists_read hwords fun x hgx => ?_)
      by_contra hnot
      exact hx ⟨x, hgx, Bool.eq_false_iff.mpr hnot⟩

theorem Valid.of_mem_mixedLayers (h : o.Valid) {layers : List Layer}
    (hl : o.mixedLayers c = some layers) {l : Layer} (hmem : l ∈ layers) : l.Valid := by
  cases c with
  | basic => cases hl
  | advanced =>
      obtain ⟨x, hx, rfl⟩ := Option.map_eq_some_iff.mp hl
      obtain ⟨a, ha, hlayering⟩ := Option.bind_eq_some_iff.mp hx
      exact ((h.advanced a ha).layering x hlayering).layers l hmem

/-- The format of the output is written without such words. -/
theorem Valid.not_namesNonFinite_format (h : o.Valid) {word : String}
    (hword : word ∈ o.settings.formatArgs) : ¬NamesNonFinite word.toList := by
  simp only [Plan.formatArgs, List.mem_append] at hword
  rcases hword with ((hword | hword) | hword) | hword <;>
    rcases mem_optionArgs hword with rfl | hvalue
  case inl.inl.inl.inl => decide
  case inl.inl.inr.inl => decide
  case inl.inr.inl => decide
  case inr.inl => decide
  case inl.inl.inl.inr =>
    obtain ⟨x, hx, rfl⟩ := Option.map_eq_some_iff.mp hvalue
    obtain ⟨r, -, rfl⟩ := Option.map_eq_some_iff.mp (Option.filter_eq_some_iff.mp hx).1
    cases r <;> decide
  case inl.inl.inr.inr =>
    obtain ⟨x, hx, rfl⟩ := Option.map_eq_some_iff.mp hvalue
    obtain ⟨n, -, rfl⟩ := Option.map_eq_some_iff.mp (Option.filter_eq_some_iff.mp hx).1
    cases n <;> decide
  case inl.inr.inr =>
    obtain ⟨k, -, rfl⟩ := Option.map_eq_some_iff.mp (Option.filter_eq_some_iff.mp hvalue).1
    cases k <;> decide
  case inr.inr =>
    obtain ⟨n, hn, rfl⟩ := Option.map_eq_some_iff.mp (Option.filter_eq_some_iff.mp hvalue).1
    obtain ⟨f, hf, hfn⟩ := Option.bind_eq_some_iff.mp hn
    have hleast := ((h.format f hf).bitrateKbps n hfn).1
    obtain ⟨k, rfl⟩ := Int.eq_ofNat_of_zero_le (by omega : 0 ≤ n)
    rw [String.toList_append]
    show ¬NamesNonFinite ((toString k).toList ++ _)
    rw [NamesNonFinite.quiet_append_iff fun _ => isWordLetter_of_mem_toString]
    decide

/-- The plan of a valid operation set: what it is made of, and a graph if there are layers. -/
structure Planned (o : OperationSet) (c : Capability) (p : Plan) : Prop where
  settings : p.seek = o.settings.seek ∧ p.duration = o.settings.duration ∧
    p.formatArgs = o.settings.formatArgs
  filters : p.filters = (o.stages c).map Stage.text
  graph : ∀ graph ∈ p.graph, ∃ usable : List Layer, (∀ l ∈ usable, l.Valid) ∧
    graph = graphText (mixSegments usable p.filters)
  target : p.graphOutput.getD "None" ∈ ["None", "mixed", "final"]

theorem exists_planned (h : form.Reads o) (hw : o.Writable) (c : Capability) {inputs : ℕ}
    (hi : 1 ≤ inputs) : ∃ p, o.plan c inputs = .ok p ∧ o.Planned c p := by
  have hvalid := Form.valid_of_reads form_exact h
  obtain ⟨v, hv⟩ := Form.validate_of_reads form_exact h
  refine ⟨_, plan_eq hv hw c hi, ⟨rfl, rfl, rfl⟩, rfl, fun graph hgraph => ?_, ?_⟩
  · obtain ⟨layers, hl, rfl⟩ := Option.map_eq_some_iff.mp hgraph
    exact ⟨layers.take inputs,
      fun l hmem => hvalid.of_mem_mixedLayers hl (List.mem_of_mem_take hmem), rfl⟩
  · show ((o.mixedLayers c).map fun _ => outputLabel _).getD "None" ∈ _
    cases o.mixedLayers c with
    | none => exact List.mem_cons_self
    | some layers =>
        show outputLabel _ ∈ _
        unfold outputLabel
        split <;> decide

namespace Planned

theorem namesNonFinite_filters_iff (h : o.Planned c p) (hvalid : o.Valid) :
    (∃ text ∈ p.filters, NamesNonFinite text.toList) ↔ ∃ f, o.Unbounded f := by
  rw [h.filters, hvalid.exists_namesNonFinite_iff]

theorem namesNonFinite_graph_iff (h : o.Planned c p) (hvalid : o.Valid) {graph : String}
    (hgraph : graph ∈ p.graph) : NamesNonFinite graph.toList ↔ ∃ f, o.Unbounded f := by
  obtain ⟨usable, husable, rfl⟩ := h.graph graph hgraph
  rw [namesNonFinite_mix_iff husable, h.namesNonFinite_filters_iff hvalid]

/-- What is said of the filters on a command line. -/
theorem namesNonFinite_filtering (h : o.Planned c p) (hvalid : o.Valid) {word : String}
    (hword : word ∈ p.filterArgs) (hnames : NamesNonFinite word.toList) :
    word ∈ p.filtering.values ∧ ∃ f, o.Unbounded f := by
  rw [← Plan.words_filtering] at hword
  unfold Plan.filtering at hword ⊢
  cases hg : p.graph.filter (· ≠ "") with
  | some graph =>
      have hmem : graph ∈ p.graph := (Option.filter_eq_some_iff.mp hg).1
      have hstream : ¬NamesNonFinite (bracketed (p.graphOutput.getD "None")).toList := by
        have htarget := h.target
        simp only [List.mem_cons, List.not_mem_nil, or_false] at htarget
        rcases htarget with ht | ht | ht <;> rw [ht] <;> decide
      simp only [hg, Filtering.words, Filtering.values, List.mem_cons, List.not_mem_nil,
        or_false] at hword ⊢
      rcases hword with rfl | rfl | rfl | rfl
      · exact absurd hnames (by decide)
      · exact ⟨.inl rfl, (h.namesNonFinite_graph_iff hvalid hmem).mp hnames⟩
      · exact absurd hnames (by decide)
      · exact absurd hnames hstream
  | none =>
      simp only [hg] at hword ⊢
      split at hword
      · cases hword
      · rcases List.mem_pair.mp hword with rfl | rfl
        · exact absurd hnames (by decide)
        · rename_i hne
          rw [if_neg hne]
          refine ⟨List.mem_singleton_self _, (h.namesNonFinite_filters_iff hvalid).mp ?_⟩
          rw [Plan.filterChain, String.toList_intercalate] at hnames
          change NamesNonFinite ([','].intercalate _) at hnames
          rw [NamesNonFinite.intercalate_iff rfl] at hnames
          simpa using hnames

theorem seek_or (h : o.Planned c p) (hvalid : o.Valid) {x : Binary64} (hx : x ∈ p.seek) :
    x.isFinite = true ∨ x = .infinite false := by
  rw [h.settings.1] at hx
  obtain ⟨t, ht, rfl⟩ := Option.map_eq_some_iff.mp hx
  exact isFinite_or_infinite_of_nonneg (hvalid.trim ht).startSec

theorem exists_duration (h : o.Planned c p) (hvalid : o.Valid) {x : Binary64}
    (hx : x ∈ p.duration) : ∃ t ∈ o.trim, (x.isFinite = true ∧ t.endSec.isFinite = true) ∨
      (x = .infinite false ∧ t.endSec = .infinite false ∧ t.startSec.isFinite = true) := by
  rw [h.settings.2.1] at hx
  obtain ⟨t, ht, hduration⟩ := Option.bind_eq_some_iff.mp hx
  exact ⟨t, ht, (hvalid.trim ht).finite_duration hduration⟩

/-- The words of a command line: the paths, the times, the filters and the format. -/
theorem namesNonFinite_command (h : o.Planned c p) (hvalid : o.Valid) {binary output word : String}
    {paths : List String} (hword : word ∈ p.command binary paths output)
    (hnames : NamesNonFinite word.toList) : word = binary ∨ word ∈ paths ∨ word = output ∨
      (word = "inf" ∧ (p.seek = some (.infinite false) ∨ p.duration = some (.infinite false))) ∨
      (word ∈ p.filtering.values ∧ ∃ f, o.Unbounded f) := by
  -- a time is finite, or it is the word for an infinite one
  have htime : ∀ {x : Binary64}, word = x.plain → x.isFinite = true ∨ x = .infinite false →
      word = "inf" ∧ x = .infinite false := by
    rintro x rfl (hfinite | rfl)
    · rw [namesNonFinite_plain_iff, hfinite] at hnames
      cases hnames
    · exact ⟨rfl, rfl⟩
  simp only [Plan.command, List.mem_append, List.mem_cons, List.not_mem_nil, or_false] at hword
  rcases hword with ((((hfixed | hinput) | hduration) | hfilter) | hformat) | houtput
  · rcases hfixed with rfl | rfl | rfl | rfl | rfl
    · exact .inl rfl
    all_goals exact absurd hnames (by decide)
  · obtain ⟨path, hpath, hinput⟩ := List.mem_flatMap.mp hinput
    rcases List.mem_append.mp hinput with hseek | hinput
    · rcases mem_optionArgs hseek with rfl | hvalue
      · exact absurd hnames (by decide)
      · obtain ⟨x, hx, hplain⟩ := Option.map_eq_some_iff.mp hvalue
        obtain ⟨hinf, rfl⟩ := htime hplain.symm (h.seek_or hvalid hx)
        exact .inr (.inr (.inr (.inl ⟨hinf, .inl hx⟩)))
    · rcases List.mem_pair.mp hinput with rfl | rfl
      · exact absurd hnames (by decide)
      · exact .inr (.inl hpath)
  · rcases mem_optionArgs hduration with rfl | hvalue
    · exact absurd hnames (by decide)
    · obtain ⟨x, hx, hplain⟩ := Option.map_eq_some_iff.mp hvalue
      obtain ⟨t, -, hcases⟩ := h.exists_duration hvalid hx
      obtain ⟨hinf, rfl⟩ := htime hplain.symm (hcases.imp And.left And.left)
      exact .inr (.inr (.inr (.inl ⟨hinf, .inr hx⟩)))
  · exact .inr (.inr (.inr (.inr (h.namesNonFinite_filtering hvalid hfilter hnames))))
  · rw [h.settings.2.2] at hformat
    exact absurd hnames (hvalid.not_namesNonFinite_format hformat)
  · exact .inr (.inr (.inl houtput))

end Planned

/-- All numbers in the plan of an accepted operation set are finite but those that are not bounded:
the loudness that a normalization aims at may be no number or infinite, and the times of the fades,
the start and the end may be infinite. A plan holds a word for such a number exactly there. There
is no plan if a loop has too many plays to be written, and only then; an operation set that is read
from a text never has them. -/
theorem plan_finite_but (h : form.Reads o) (c : Capability) {inputs : ℕ} (hi : 1 ≤ inputs) :
    (o.Writable → ∃ p, o.plan c inputs = .ok p ∧ p.FiniteBut o c) ∧
      (¬o.Writable → o.plan c inputs = .error .tooManyDigits) ∧
      ∀ source text v, Json.read? text = some v → form.read source v = .ok o → o.Writable := by
  refine ⟨fun hw => ?_, fun hw => plan_of_not_writable hw _ _, fun _ _ _ => writable_of_read⟩
  have hvalid := Form.valid_of_reads form_exact h
  obtain ⟨p, hp, hplanned⟩ := exists_planned h hw c hi
  refine ⟨p, hp, ?_⟩
  constructor
  case filters => exact hplanned.filters
  case numbers => exact fun f hf g hg hwords => hvalid.exists_read hf hg hwords
  case layers =>
    intro layers hl l hmem f hf g hg hwords
    exact ((hvalid.of_mem_mixedLayers hl hmem).finite hf).exists_read hg hwords
  case unbounded => exact fun f hf => ⟨hf.mem_stages c, hf.numbers⟩
  case seek => exact ⟨hplanned.settings.1, fun x => hplanned.seek_or hvalid⟩
  case duration => exact fun x => hplanned.exists_duration hvalid
  case directives =>
    intro text htext
    rw [hplanned.filters] at htext
    obtain ⟨s, hs, rfl⟩ := List.mem_map.mp htext
    constructor
    · intro hnames
      obtain ⟨f, hf, rfl⟩ := (hvalid.namesNonFinite_stage_iff hs).mp hnames
      exact ⟨f, hf, String.intercalate_singleton⟩
    · rintro ⟨f, hf, heq⟩
      obtain ⟨x, hx, hnot⟩ := hf.numbers
      rw [heq, Filter.namesNonFinite_text_iff]
      exact ⟨x, by simp [hx], hnot⟩
  case graph => exact fun graph => hplanned.namesNonFinite_graph_iff hvalid
  case command =>
    exact fun binary paths output word => hplanned.namesNonFinite_command hvalid

/-- A fade that never begins, a part without an end, and a layer. -/
def endlessVoice : Value :=
  .object
    [("volume", .object [("adjust_db", .integer (-3))]),
      ("effects", .object
        [("fade_out_sec", .text "inf"),
          ("trim", .object [("start_sec", .number 1.5), ("end_sec", .text "Infinity")])]),
      ("advanced", .object
        [("layering", .object [("layers", .list [.object [("pan", .number 0.5)]])])])]

def endlessSet : OperationSet where
  volume := some { adjustDb := some (-3) }
  effects := some
    { fadeOutSec := some (.infinite false)
      trim := some { startSec := 1.5, endSec := .infinite false } }
  advanced := some { layering := some { layers := [{ pan := some 0.5 }] } }

/-- The fade and the length are written as infinite, and nothing else is. -/
theorem plan_finite_but_endless :
    ∃ p, endlessSet.plan .advanced 1 = .ok p ∧
      p.filters = ["volume=-3dB", "afade=t=out:st=inf:d=1"] ∧ p.seek = some 1.5 ∧
      p.duration = some (.infinite false) ∧ p.FiniteBut endlessSet .advanced ∧
      ∀ text ∈ p.filters, NamesNonFinite text.toList ↔ text = "afade=t=out:st=inf:d=1" := by
  have hread : form.validate endlessVoice = .ok endlessSet := by decide +kernel
  obtain ⟨p, hp, hfinite⟩ :=
    (plan_finite_but (.inl ⟨_, hread⟩) .advanced (le_refl 1)).1 (by decide)
  have hfilters : p.filters = ["volume=-3dB", "afade=t=out:st=inf:d=1"] :=
    hfinite.filters.trans (by decide +kernel)
  have hduration : (endlessSet.plan .advanced 1).map (·.duration) =
      .ok (some (.infinite false)) := by decide +kernel
  rw [hp] at hduration
  refine ⟨p, hp, hfilters, hfinite.seek.1.trans (by decide +kernel), Except.ok.inj hduration,
    hfinite, ?_⟩
  rw [hfilters]
  decide +kernel

def aimlessVoice : Value :=
  .object [("volume", .object [("normalize", .bool true), ("target_lufs", .text "nan")])]

def aimlessSet : OperationSet where
  volume := some { normalize := some true, targetLufs := some .nan }

/-- What a normalization aims at is written even if it is no number. -/
theorem not_plan_finite :
    form.validate aimlessVoice = .ok aimlessSet ∧
      (aimlessSet.plan .advanced 1).map (·.filters) = .ok ["loudnorm=I=nan:LRA=7:tp=-2"] ∧
      ¬∀ (o : OperationSet) (c : Capability) (inputs : ℕ), form.Reads o → 1 ≤ inputs →
        ∃ p, o.plan c inputs = .ok p ∧ (∀ f ∈ (o.stages c).flatten, f.Finite) ∧
          (∀ x ∈ p.seek, x.isFinite = true) ∧ (∀ x ∈ p.duration, x.isFinite = true) ∧
          (∀ text ∈ p.filters, ¬NamesNonFinite text.toList) ∧
          ∀ graph ∈ p.graph, ¬NamesNonFinite graph.toList := by
  have hread : form.validate aimlessVoice = .ok aimlessSet := by decide +kernel
  refine ⟨hread, by decide +kernel, fun h => ?_⟩
  obtain ⟨p, -, hfinite, -⟩ := h aimlessSet .advanced 1 (.inl ⟨_, hread⟩) le_rfl
  have hnot := hfinite (.loudness .nan) (by decide +kernel) .nan (by decide +kernel)
  cases hnot

end OperationSet

end Soundworks
