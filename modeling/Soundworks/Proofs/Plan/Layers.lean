import Mathlib.Data.List.Count
import Mathlib.Data.List.Nodup
import Soundworks.Proofs.Filter.Text
import Soundworks.Proofs.Filter.Writable
import Soundworks.Proofs.Plan.Graph
import Soundworks.Proofs.Validation.Reading
/-!
The graph of a mix. Each layer that has an input is a branch of its own, the branches are mixed,
and the mix goes through the filters of the plan, if there are any. Every label between the
segments is defined once and read once, apart from the one that is the output.
-/

namespace Soundworks

/-- What is done to one input of a mix: a delay of both channels, a pitch shift, a level and a
position, in this order. A delay and a shift of zero are left out. -/
def Layer.directives (l : Layer) : List String :=
  (match l.delayMs with
    | some ms => if ms.isZero then [] else ["adelay=" ++ ms.plain ++ "|" ++ ms.plain]
    | none => []) ++
  (match l.pitchSemitones with
    | some s =>
      if s.isZero then [] else ["asetrate=44100*" ++ (s / 12).exp2.plain, "aresample=44100"]
    | none => []) ++
  (match l.volume with
    | some v => ["volume=" ++ v.plain]
    | none => []) ++
  (match l.pan with
    | some p =>
      let m := PanMatrix.ofPosition p
      ["pan=stereo|c0=" ++ m.leftFromLeft.plain ++ "*c0+" ++ m.leftFromRight.plain ++ "*c1|c1=" ++
        m.rightFromRight.plain ++ "*c1+" ++ m.rightFromLeft.plain ++ "*c0"]
    | none => [])

namespace Mix

/-- The graph that mixes the first `count` of some layers and sends the mix through the filters
of a plan. -/
structure WellFormed (layers : List Layer) (count : Nat) (filters : List String)
    (target : String) (segments : List Segment) : Prop where
  length : segments.length = count + 1 + if filters = [] then 0 else 1
  branch : ∀ i < count, ∃ l, layers[i]? = some l ∧ segments[i]? = some
    { reads := [toString i ++ ":a"]
      body := if l.directives = [] then "anull" else ",".intercalate l.directives
      defines := "processed" ++ toString i }
  mix : segments[count]? = some
    { reads := (List.range count).map fun i => "processed" ++ toString i
      body := "amix=inputs=" ++ toString count ++ ":duration=longest:dropout_transition=2"
      defines := "mixed" }
  tail : filters ≠ [] → segments[count + 1]? = some
    { reads := ["mixed"], body := ",".intercalate filters, defines := "final" }
  once : (segments.map (·.defines)).Nodup
  output : target ∈ segments.map (·.defines)
  consumed : ∀ label ∈ segments.map (·.defines),
    (segments.flatMap (·.reads)).count label = if label = target then 0 else 1
  streams : ∀ i, (segments.flatMap (·.reads)).count (inputLabel i) = if i < count then 1 else 0
  unmarked : ∀ s ∈ segments, Unmarked s.body

/-! ### The branches -/

theorem nonzero_some (x : Binary64) :
    nonzero (some x) = if x.isZero then none else some x := by
  cases hx : x.isZero <;> simp [nonzero, Option.filter, hx]

theorem texts_shift (ratio : Binary64) :
    (Filter.shift ratio).map Filter.text =
      ["asetrate=44100*" ++ ratio.plain, "aresample=44100"] := by
  have hrate : String.ofList (Binary64.integerChars Filter.referenceRate) = "44100" := rfl
  have hfront : "asetrate=" ++ ("44100" ++ ("*" ++ ratio.plain)) =
      "asetrate=44100*" ++ ratio.plain := by
    rw [← String.append_assoc, ← String.append_assoc]
    rfl
  simpa [Filter.shift, Filter.text, Filter.fragments, Fragment.text, hrate] using hfront

theorem texts_filters (l : Layer) : l.filters.map Filter.text = l.directives := by
  simp only [Layer.filters, Layer.directives, List.map_append]
  refine congrArg₂ (· ++ ·) (congrArg₂ (· ++ ·) (congrArg₂ (· ++ ·) ?delay ?pitch) ?volume) ?pan
  case delay =>
    rcases l.delayMs with _ | ms
    · rfl
    · cases hms : ms.isZero <;>
        simp [nonzero_some, hms, whenSet, Filter.text, Filter.fragments, Fragment.text,
          String.append_assoc]
  case pitch =>
    rcases l.pitchSemitones with _ | s
    · rfl
    · cases hs : s.isZero <;> simp [nonzero_some, hs, texts_shift]
  case volume =>
    rcases l.volume with _ | v
    · rfl
    · simp [whenSet, Filter.text, Filter.fragments, Fragment.text]
  case pan =>
    rcases l.pan with _ | p
    · rfl
    · simp [whenSet, Filter.text, Filter.fragments, Fragment.text, String.append_assoc]

theorem length_branches (i : Nat) (ls : List Layer) : (branches i ls).length = ls.length := by
  induction ls generalizing i with
  | nil => rfl
  | cons l ls ih => rw [branches, List.length_cons, ih, List.length_cons]

theorem getElem?_branches (i k : Nat) (ls : List Layer) :
    (branches i ls)[k]? = ls[k]?.map (Mix.branch (i + k)) := by
  induction ls generalizing i k with
  | nil => simp [branches]
  | cons l ls ih =>
      cases k with
      | zero => simp [branches]
      | succ k =>
          rw [branches, List.getElem?_cons_succ, ih, List.getElem?_cons_succ, Nat.add_right_comm]
          rfl

theorem defines_branches (i : Nat) (ls : List Layer) :
    (branches i ls).map (·.defines) = (List.range' i ls.length).map layerLabel := by
  induction ls generalizing i with
  | nil => rfl
  | cons l ls ih =>
      rw [branches, List.map_cons, ih, List.length_cons, List.range'_succ, List.map_cons]
      rfl

theorem reads_branches (i : Nat) (ls : List Layer) :
    (branches i ls).flatMap (·.reads) = (List.range' i ls.length).map inputLabel := by
  induction ls generalizing i with
  | nil => rfl
  | cons l ls ih =>
      rw [branches, List.flatMap_cons, ih, List.length_cons, List.range'_succ, List.map_cons]
      rfl

/-! ### Labels -/

theorem toDigits_injective : Function.Injective (Nat.toDigits 10) := by
  intro i k h
  have hvalue := congrArg (Nat.ofDigitChars 10 · 0) h
  simpa using hvalue

theorem layerLabel_injective : Function.Injective layerLabel := fun i k h =>
  toDigits_injective (by simpa [layerLabel, ← String.toList_inj] using h)

theorem inputLabel_injective : Function.Injective inputLabel := fun i k h =>
  toDigits_injective (by simpa [inputLabel, ← String.toList_inj] using h)

theorem nodup_layerLabels (count : Nat) : ((List.range count).map layerLabel).Nodup :=
  List.nodup_range.map layerLabel_injective

theorem colon_not_mem_layerLabel (i : Nat) : ':' ∉ (layerLabel i).toList := by
  intro h
  have hdigits : ':' ∈ Nat.toDigits 10 i := by simpa [layerLabel] using h
  exact absurd (isNumeric_of_mem_toDigits hdigits) (by decide)

theorem inputLabel_ne_layerLabel (i k : Nat) : inputLabel i ≠ layerLabel k := by
  intro h
  refine colon_not_mem_layerLabel k ?_
  rw [← h]
  simp [inputLabel]

/-- A text without a colon that does not start like the label of a layer is no label of a mix. -/
theorem layerLabel_ne {i : Nat} {s : String} (h : s.toList.head? ≠ some 'p') :
    layerLabel i ≠ s := by
  rintro rfl
  exact h (by simp [layerLabel])

theorem inputLabel_ne {i : Nat} {s : String} (h : ':' ∉ s.toList) : inputLabel i ≠ s := by
  rintro rfl
  exact h (by simp [inputLabel])

/-! ### Texts without marks -/

theorem isMark_of_isDirective {c : Char} (h : isDirective c = true) : isMark c = false := by
  by_contra hmark
  simp only [isMark, Bool.or_eq_true, decide_eq_true_eq, Bool.not_eq_false] at hmark
  rcases hmark with (rfl | rfl) | rfl <;> exact absurd h (by decide)

theorem unmarked_append {s t : String} (hs : Unmarked s) (ht : Unmarked t) :
    Unmarked (s ++ t) := by
  intro c hc
  rw [String.toList_append, List.mem_append] at hc
  exact hc.elim (hs c) (ht c)

theorem unmarked_toString (n : Nat) : Unmarked (toString n) := by
  intro c hc
  have hdigits : c ∈ Nat.toDigits 10 n := by simpa using hc
  exact isMark_of_isDirective (isDirective_of_isNumeric (isNumeric_of_mem_toDigits hdigits))

theorem unmarked_stage (s : Stage) : Unmarked s.text := by
  intro c hc
  rcases Stage.mem_text hc with rfl | hc
  · rfl
  · exact isMark_of_isDirective hc

theorem unmarked_inputLabel (i : Nat) : Unmarked (inputLabel i) :=
  unmarked_append (unmarked_toString i) (unmarked_of_all (by decide))

theorem unmarked_layerLabel (i : Nat) : Unmarked (layerLabel i) :=
  unmarked_append (unmarked_of_all (by decide)) (unmarked_toString i)

theorem clean_branch (i : Nat) (l : Layer) : (Mix.branch i l).Clean where
  reads := fun r hr => by
    obtain rfl : r = inputLabel i := List.mem_singleton.mp hr
    exact unmarked_inputLabel i
  body := unmarked_stage _
  defines := unmarked_layerLabel i
  nonempty := List.cons_ne_nil _ _

theorem clean_branches {i : Nat} {ls : List Layer} {s : Segment} (h : s ∈ branches i ls) :
    s.Clean := by
  induction ls generalizing i with
  | nil => exact absurd h List.not_mem_nil
  | cons l ls ih =>
      rcases List.mem_cons.mp h with rfl | h
      · exact clean_branch i l
      · exact ih h

theorem clean_join {count : Nat} (hcount : count ≠ 0) {label : String} (hlabel : Unmarked label) :
    (join count label).Clean where
  reads := fun r hr => by
    obtain ⟨i, -, rfl⟩ := List.mem_map.mp hr
    exact unmarked_layerLabel i
  body := unmarked_append (unmarked_append (unmarked_of_all (by decide)) (unmarked_toString count))
    (unmarked_of_all (by decide))
  defines := hlabel
  nonempty := by simpa [join] using hcount

end Mix

namespace OperationSet

/-- The filters of a plan as one chain hold no marks. -/
theorem unmarked_filters (stages : List Stage) :
    Unmarked (",".intercalate (stages.map Stage.text)) := by
  intro c hc
  rw [String.toList_intercalate] at hc
  rcases Text.mem_intercalate hc with rfl | ⟨part, hpart, hc⟩
  · rfl
  · obtain ⟨t, ht, rfl⟩ := List.mem_map.mp hpart
    obtain ⟨s, -, rfl⟩ := List.mem_map.mp ht
    exact Mix.unmarked_stage s c hc

theorem clean_tail {stages : List Stage} {s : Segment} (h : s ∈ tail (stages.map Stage.text)) :
    s.Clean := by
  unfold tail at h
  split at h
  · exact absurd h List.not_mem_nil
  · obtain rfl := List.mem_singleton.mp h
    have hmix : Unmarked mixLabel := unmarked_of_all (by decide)
    have hfinal : Unmarked finalLabel := unmarked_of_all (by decide)
    refine ⟨fun r hr => ?_, unmarked_filters stages, hfinal, List.cons_ne_nil _ _⟩
    obtain rfl : r = mixLabel := List.mem_singleton.mp hr
    exact hmix

/-- The segments for some layers that have inputs, and the filters of a plan. -/
def mixSegments (usable : List Layer) (filters : List String) : List Segment :=
  Mix.branches 0 usable ++ [Mix.join usable.length mixLabel] ++ tail filters

def outputLabel (filters : List String) : String := if filters = [] then mixLabel else finalLabel

theorem plan_of_not_writable {o : OperationSet} (h : ¬o.Writable) (c : Capability)
    (inputs : Nat) : o.plan c inputs = .error .tooManyDigits := by
  rw [plan, if_neg (mt writable_iff.mp h)]

theorem writable_of_plan {o : OperationSet} {c : Capability} {inputs : Nat} {p : Plan}
    (h : o.plan c inputs = .ok p) : o.Writable := by
  by_contra hnot
  rw [plan_of_not_writable hnot] at h
  cases h

theorem plan_of_mix {o : OperationSet} (hw : o.Writable) {layers : List Layer}
    (hl : o.mixedLayers .advanced = some layers) (hne : layers ≠ []) {inputs : Nat}
    (hi : 1 ≤ inputs) :
    o.plan .advanced inputs = .ok { o.settings with
      filters := (o.stages .advanced).map Stage.text
      graph := some (graphText (mixSegments (layers.take inputs)
        ((o.stages .advanced).map Stage.text)))
      graphOutput := some (outputLabel ((o.stages .advanced).map Stage.text)) } := by
  have hi' : inputs ≠ 0 := Nat.ne_of_gt hi
  simp only [plan, if_pos (writable_iff.mpr hw), hl, Mix.segments, hi', hne, if_false]
  rfl

theorem clean_mixSegments {usable : List Layer} (hne : usable ≠ []) {stages : List Stage}
    {s : Segment} (h : s ∈ mixSegments usable (stages.map Stage.text)) : s.Clean := by
  simp only [mixSegments, List.mem_append, List.mem_singleton] at h
  rcases h with (h | rfl) | h
  · exact Mix.clean_branches h
  · exact Mix.clean_join (by simpa using hne) (unmarked_of_all (by decide))
  · exact clean_tail h

/-! ### Which labels are defined and read -/

theorem defines_mixSegments (usable : List Layer) (filters : List String) :
    (mixSegments usable filters).map (·.defines) =
      (List.range usable.length).map Mix.layerLabel ++
        mixLabel :: if filters = [] then [] else [finalLabel] := by
  simp only [mixSegments, List.map_append, Mix.defines_branches, ← List.range_eq_range',
    List.append_assoc, tail]
  split <;> rfl

theorem reads_mixSegments (usable : List Layer) (filters : List String) :
    (mixSegments usable filters).flatMap (·.reads) =
      (List.range usable.length).map Mix.inputLabel ++
        ((List.range usable.length).map Mix.layerLabel ++
          if filters = [] then [] else [mixLabel]) := by
  simp only [mixSegments, List.flatMap_append, Mix.reads_branches, ← List.range_eq_range',
    List.append_assoc, tail]
  split <;> simp [Mix.join]

theorem layerLabel_ne_mixLabel (i : Nat) : Mix.layerLabel i ≠ mixLabel :=
  Mix.layerLabel_ne (by decide)

theorem layerLabel_ne_finalLabel (i : Nat) : Mix.layerLabel i ≠ finalLabel :=
  Mix.layerLabel_ne (by decide)

theorem nodup_defines (usable : List Layer) (filters : List String) :
    ((mixSegments usable filters).map (·.defines)).Nodup := by
  have hdiffer : mixLabel ≠ finalLabel := by decide
  rw [defines_mixSegments, List.nodup_append]
  refine ⟨Mix.nodup_layerLabels _, ?_, ?_⟩
  · split <;> simp [hdiffer]
  · intro label hlabel other hother
    obtain ⟨i, -, rfl⟩ := List.mem_map.mp hlabel
    split at hother
    · obtain rfl := List.mem_singleton.mp hother
      exact layerLabel_ne_mixLabel i
    · rcases List.mem_pair.mp hother with rfl | rfl
      · exact layerLabel_ne_mixLabel i
      · exact layerLabel_ne_finalLabel i

theorem count_reads {label : String} (hinput : ∀ i, Mix.inputLabel i ≠ label)
    (usable : List Layer) (filters : List String) :
    ((mixSegments usable filters).flatMap (·.reads)).count label =
      ((List.range usable.length).map Mix.layerLabel).count label +
        (if filters = [] then [] else [mixLabel]).count label := by
  have hstreams : ((List.range usable.length).map Mix.inputLabel).count label = 0 := by
    refine List.count_eq_zero_of_not_mem fun hmem => ?_
    obtain ⟨i, -, hi⟩ := List.mem_map.mp hmem
    exact hinput i hi
  rw [reads_mixSegments, List.count_append, List.count_append, hstreams, Nat.zero_add]

theorem count_layers_of_ne {label : String} (h : ∀ i, Mix.layerLabel i ≠ label) (count : Nat) :
    ((List.range count).map Mix.layerLabel).count label = 0 := by
  refine List.count_eq_zero_of_not_mem fun hmem => ?_
  obtain ⟨i, -, hi⟩ := List.mem_map.mp hmem
  exact h i hi

/-- What is defined is read once, and the output is not read. -/
theorem count_of_mem_defines {usable : List Layer} {filters : List String} {label : String}
    (h : label ∈ (mixSegments usable filters).map (·.defines)) :
    ((mixSegments usable filters).flatMap (·.reads)).count label =
      if label = outputLabel filters then 0 else 1 := by
  have hdiffer : mixLabel ≠ finalLabel := by decide
  rw [defines_mixSegments, List.mem_append, List.mem_cons] at h
  rcases h with h | rfl | h
  -- the label of a layer is read by the segment that mixes the layers
  · obtain ⟨i, -, rfl⟩ := List.mem_map.mp h
    have hother : Mix.layerLabel i ≠ outputLabel filters := by
      unfold outputLabel
      split
      · exact layerLabel_ne_mixLabel i
      · exact layerLabel_ne_finalLabel i
    have hrest : (if filters = [] then [] else [mixLabel]).count (Mix.layerLabel i) = 0 := by
      split <;> simp [(layerLabel_ne_mixLabel i).symm]
    rw [count_reads fun k => Mix.inputLabel_ne_layerLabel k i,
      List.count_eq_one_of_mem (Mix.nodup_layerLabels _) h, hrest, if_neg hother]
  -- the mix is read when filters follow it
  · rw [count_reads fun k => Mix.inputLabel_ne (by decide),
      count_layers_of_ne layerLabel_ne_mixLabel]
    by_cases hfilters : filters = []
    · simp [hfilters, outputLabel]
    · simp [hfilters, outputLabel, hdiffer]
  · by_cases hfilters : filters = []
    · simp [hfilters] at h
    · obtain rfl : label = finalLabel := by simpa [hfilters] using h
      rw [count_reads fun k => Mix.inputLabel_ne (by decide),
        count_layers_of_ne layerLabel_ne_finalLabel]
      simp [hfilters, outputLabel, hdiffer]

/-- Each stream of an input with a layer is read once, and no other stream is read. -/
theorem count_inputLabel (usable : List Layer) (filters : List String) (i : Nat) :
    ((mixSegments usable filters).flatMap (·.reads)).count (Mix.inputLabel i) =
      if i < usable.length then 1 else 0 := by
  have hlayers : ((List.range usable.length).map Mix.layerLabel).count (Mix.inputLabel i) = 0 :=
    count_layers_of_ne (fun k => (Mix.inputLabel_ne_layerLabel i k).symm) _
  have hrest : (if filters = [] then [] else [mixLabel]).count (Mix.inputLabel i) = 0 := by
    have hne : Mix.inputLabel i ≠ mixLabel := Mix.inputLabel_ne (by decide)
    split <;> simp [hne.symm]
  rw [reads_mixSegments, List.count_append, List.count_append, hlayers, hrest,
    List.count_map_of_injective _ _ Mix.inputLabel_injective, List.count_range, Nat.add_zero]

/-! ### The graph of a plan -/

theorem wellFormed_mixSegments {layers : List Layer} {inputs : Nat} {stages : List Stage}
    (hne : layers.take inputs ≠ []) :
    Mix.WellFormed layers (min inputs layers.length) (stages.map Stage.text)
      (outputLabel (stages.map Stage.text))
      (mixSegments (layers.take inputs) (stages.map Stage.text)) := by
  have hcount : (layers.take inputs).length = min inputs layers.length := List.length_take
  have hbranches : (Mix.branches 0 (layers.take inputs)).length = min inputs layers.length := by
    rw [Mix.length_branches, hcount]
  have hjoined : (Mix.branches 0 (layers.take inputs) ++
      [Mix.join (layers.take inputs).length mixLabel]).length = min inputs layers.length + 1 := by
    rw [List.length_append, hbranches, List.length_singleton]
  refine ⟨?_, ?_, ?_, ?_, nodup_defines _ _, ?_, fun label => count_of_mem_defines, ?_, ?_⟩
  · rw [mixSegments, List.length_append, hjoined, tail]
    split <;> rfl
  · intro i hi
    have hlt : i < layers.length := Nat.lt_of_lt_of_le hi (Nat.min_le_right ..)
    have htake : (layers.take inputs)[i]? = some layers[i] := by
      rw [List.getElem?_take_of_lt (Nat.lt_of_lt_of_le hi (Nat.min_le_left ..)),
        List.getElem?_eq_getElem hlt]
    refine ⟨layers[i], List.getElem?_eq_getElem hlt, ?_⟩
    rw [mixSegments, List.getElem?_append_left (by omega), List.getElem?_append_left (by omega),
      Mix.getElem?_branches, htake, Nat.zero_add, Option.map_some, Mix.branch]
    simp only [← Mix.texts_filters, List.map_eq_nil_iff]
    congr 2
    split <;> rfl
  · rw [mixSegments, List.getElem?_append_left (by omega), List.getElem?_append_right (by omega),
      hbranches, Nat.sub_self, hcount]
    rfl
  · intro hfilters
    rw [mixSegments, List.getElem?_append_right (by omega), hjoined, Nat.sub_self, tail,
      if_neg hfilters]
    rfl
  · rw [defines_mixSegments]
    unfold outputLabel
    split <;> simp
  · intro i
    rw [count_inputLabel, hcount]
  · exact fun s hs => (clean_mixSegments hne hs).body

/-- An accepted operation set with a mix has a plan for any inputs, unless a loop has too many plays
to be written. The text of its graph reads back as one branch for each layer with an input, the
segment that mixes them, and one for the filters of the plan, if there are any. -/
theorem layered_graph_wellFormed {v : Value} {o : OperationSet}
    (h : OperationSet.form.validate v = .ok o) {a : Advanced} (ha : o.advanced = some a)
    {l : Layering} (hl : a.layering = some l) {inputs : Nat} (hi : 1 ≤ inputs) :
    (o.Writable → ∃ p g target segments, o.plan .advanced inputs = .ok p ∧ p.graph = some g ∧
      p.graphOutput = some target ∧ readGraph g = some segments ∧
      Mix.WellFormed l.layers (min inputs l.layers.length) p.filters target segments) ∧
    (¬o.Writable → o.plan .advanced inputs = .error .tooManyDigits) := by
  have hlayers : o.mixedLayers .advanced = some l.layers := by
    simp [mixedLayers, ha, hl]
  have hne : l.layers ≠ [] := layers_ne_nil_of_validate h hlayers
  have husable : l.layers.take inputs ≠ [] := by
    simpa [hne] using Nat.ne_of_gt hi
  have hsome : mixSegments (l.layers.take inputs) ((o.stages .advanced).map Stage.text) ≠ [] := by
    simp [mixSegments]
  have hread := readGraph_graphText hsome fun s hs => clean_mixSegments husable hs
  refine ⟨fun hw => ?_, fun hw => plan_of_not_writable hw _ _⟩
  exact ⟨_, _, _, _, plan_of_mix hw hlayers hne hi, rfl, rfl, hread,
    wellFormed_mixSegments husable⟩

/-- A gain, and a mix of a delayed layer with a plain one. -/
def echoedVoice : Value :=
  .object
    [("volume", .object [("adjust_db", .integer (-3))]),
      ("advanced", .object [("layering", .object [("layers", .list
        [.object [("delay_ms", .integer 250)], .object []])])])]

def echoedLayers : Layering := { layers := [{ delayMs := some 250 }, {}] }

theorem validate_echoedVoice :
    OperationSet.form.validate echoedVoice = .ok
      { volume := some { adjustDb := some (-3) }
        advanced := some { layering := some echoedLayers } } := by
  rfl

/-- Three inputs for two layers: the third one has no branch. -/
theorem layered_graph_of_echoedVoice :
    ∃ p g target segments,
      OperationSet.plan { volume := some { adjustDb := some (-3) }
                          advanced := some { layering := some echoedLayers } } .advanced 3 =
        .ok p ∧ p.graph = some g ∧ p.graphOutput = some target ∧ readGraph g = some segments ∧
      Mix.WellFormed echoedLayers.layers 2 p.filters target segments :=
  (layered_graph_wellFormed validate_echoedVoice rfl rfl (by decide : 1 ≤ 3)).1 (by decide)

end OperationSet

end Soundworks
