import Mathlib.Logic.Relation
import Soundworks.Proofs.Plan.Layers
/-!
Where the streams of a graph go. A segment takes the labels it reads into the one it defines; what
the graph of a mix yields is reached from the inputs that have a layer, and from no other input.
-/

namespace Soundworks

/-- A segment of a graph reads one label and defines another one. -/
def Feeds (segments : List Segment) (label next : String) : Prop :=
  ∃ s ∈ segments, label ∈ s.reads ∧ s.defines = next

/-- A stream goes into another one, through any number of segments. -/
abbrev Reaches (segments : List Segment) : String → String → Prop :=
  Relation.ReflTransGen (Feeds segments)

theorem Feeds.mem_reads {segments : List Segment} {label next : String}
    (h : Feeds segments label next) : label ∈ segments.flatMap (·.reads) := by
  obtain ⟨s, hs, hlabel, -⟩ := h
  exact List.mem_flatMap.mpr ⟨s, hs, hlabel⟩

namespace OperationSet

variable {usable : List Layer} {filters : List String}

theorem feeds_layer {i : Nat} (h : i < usable.length) :
    Feeds (mixSegments usable filters) (Mix.inputLabel i) (Mix.layerLabel i) := by
  have hbranch : (Mix.branches 0 usable)[i]? = some (Mix.branch i usable[i]) := by
    rw [Mix.getElem?_branches, List.getElem?_eq_getElem h, Nat.zero_add]
    rfl
  refine ⟨Mix.branch i usable[i], ?_, List.mem_singleton_self _, rfl⟩
  exact List.mem_append_left _ (List.mem_append_left _ (List.mem_of_getElem? hbranch))

theorem feeds_mix {i : Nat} (h : i < usable.length) :
    Feeds (mixSegments usable filters) (Mix.layerLabel i) mixLabel := by
  refine ⟨Mix.join usable.length mixLabel, ?_, ?_, rfl⟩
  · exact List.mem_append_left _ (List.mem_append_right _ (List.mem_singleton_self _))
  · exact List.mem_map_of_mem (List.mem_range.mpr h)

/-- The mix is what the graph yields, or goes into it. -/
theorem reaches_outputLabel (usable : List Layer) (filters : List String) :
    Reaches (mixSegments usable filters) mixLabel (outputLabel filters) := by
  unfold outputLabel
  split
  · exact .refl
  · rename_i hfilters
    refine .single ⟨⟨[mixLabel], ",".intercalate filters, finalLabel⟩, ?_,
      List.mem_singleton_self _, rfl⟩
    rw [mixSegments, tail, if_neg hfilters]
    exact List.mem_append_right _ (List.mem_singleton_self _)

/-- An input is read in the graph of a mix exactly if there is a layer for it. -/
theorem inputLabel_mem_reads_iff (filters : List String) {i : Nat} :
    Mix.inputLabel i ∈ (mixSegments usable filters).flatMap (·.reads) ↔ i < usable.length := by
  rw [← List.count_pos_iff, count_inputLabel]
  split <;> simp [*]

/-- An input that is read goes into what the graph yields, and no other one does. -/
theorem reaches_outputLabel_iff (filters : List String) {i : Nat} :
    Reaches (mixSegments usable filters) (Mix.inputLabel i) (outputLabel filters) ↔
      i < usable.length := by
  constructor
  · intro h
    rcases h.cases_head with heq | ⟨next, hfeeds, -⟩
    · refine absurd heq (Mix.inputLabel_ne ?_)
      unfold outputLabel
      split <;> decide
    · exact (inputLabel_mem_reads_iff filters).mp hfeeds.mem_reads
  · intro hi
    exact .head (feeds_layer hi) (.head (feeds_mix hi) (reaches_outputLabel usable filters))

end OperationSet

end Soundworks
