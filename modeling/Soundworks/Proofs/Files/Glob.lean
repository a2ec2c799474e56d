import Soundworks.Proofs.Files.Discovery
import Soundworks.Proofs.Files.Supported
/-!
What a pattern leads to below a directory. Each of its parts leads from a path to paths below it,
and where they lead depends only on what stands there; so a pattern leads to the same places below
two directories with the same contents.
-/

namespace Soundworks

namespace FileTree

variable {t t' : FileTree}

/-! ### Names below a directory -/

theorem mem_children {path : List String} {name : String} :
    name ∈ t.children path ↔ ∃ e, t.lookup (path ++ [name]) = some e := by
  constructor
  · intro h
    obtain ⟨f, hf, hname⟩ := List.mem_filterMap.mp h
    split at hname
    · rename_i hpath
      have hf' : f.1 = path ++ [name] := by
        rw [← hpath, List.dropLast_append_getLast? name hname]
      rw [lookup_of_ne_nil _ (by simp), ← Option.isSome_iff_exists, Option.isSome_map,
        List.find?_isSome]
      exact ⟨f, hf, decide_eq_true hf'⟩
    · cases hname
  · rintro ⟨e, he⟩
    exact mem_children_of_lookup he

theorem le_foldl_max {n : ℕ} {l : List ℕ} {init : ℕ} (h : n ∈ l ∨ n ≤ init) :
    n ≤ l.foldl max init := by
  induction l generalizing init with
  | nil => simpa using h
  | cons m l ih =>
      refine ih ?_
      rcases h with h | h
      · rcases List.mem_cons.mp h with rfl | h
        · exact .inr (le_max_right init n)
        · exact .inl h
      · exact .inr (h.trans (le_max_left init m))

/-- No path in a tree is longer than the tree is deep. -/
theorem length_le_depth {path : List String} {e : Entry} (h : t.lookup path = some e) :
    path.length ≤ t.depth := by
  by_cases hp : path = []
  · simp [hp]
  · exact le_foldl_max (.inl (List.mem_map_of_mem (mem_entries_of_lookup hp h)))

theorem Grounded.mem_descendants (hg : t.Grounded) {fuel : ℕ} {path y : List String} :
    y ∈ t.descendants fuel path ↔ ∃ rel, y = path ++ rel ∧ rel.length ≤ fuel ∧
      (∀ s ∈ rel, GlobPart.isHidden s = false) ∧ (rel ≠ [] → ∃ e, t.lookup y = some e) := by
  induction fuel generalizing path with
  | zero =>
      simp only [descendants, List.mem_singleton, Nat.le_zero, List.length_eq_zero_iff]
      constructor
      · rintro rfl
        exact ⟨[], by simp⟩
      · rintro ⟨rel, rfl, rfl, -⟩
        simp
  | succ fuel ih =>
      simp only [descendants, List.mem_cons, List.mem_flatMap, List.mem_filter, ih]
      constructor
      · rintro (rfl | ⟨name, ⟨hname, hhidden⟩, rel, rfl, hlen, hrel, he⟩)
        · exact ⟨[], by simp⟩
        · refine ⟨name :: rel, by simp, by simpa using hlen, ?_, fun _ => ?_⟩
          · exact List.forall_mem_cons.mpr ⟨by simpa using hhidden, hrel⟩
          · by_cases hnil : rel = []
            · simpa [hnil] using mem_children.mp hname
            · exact he hnil
      · rintro ⟨rel, rfl, hlen, hrel, he⟩
        cases rel with
        | nil => simp
        | cons name rel =>
            obtain ⟨e, he⟩ := he (by simp)
            obtain ⟨hhidden, hrel⟩ := List.forall_mem_cons.mp hrel
            have hname : ∃ e, t.lookup (path ++ [name]) = some e := by
              by_cases hnil : rel = []
              · exact ⟨e, by simpa [hnil] using he⟩
              · rw [← List.singleton_append, ← List.append_assoc] at he
                exact ⟨_, hg.lookup_of_append he hnil⟩
            exact .inr ⟨name, ⟨mem_children.mpr hname, by simpa using hhidden⟩, rel, by simp,
              by simpa using hlen, hrel, fun _ => ⟨e, he⟩⟩

/-- Any depth leads to everything below a directory that is not hidden. -/
theorem Grounded.mem_descendants_depth (hg : t.Grounded) {path y : List String} :
    y ∈ t.descendants t.depth path ↔ ∃ rel, y = path ++ rel ∧
      (∀ s ∈ rel, GlobPart.isHidden s = false) ∧ (rel ≠ [] → ∃ e, t.lookup y = some e) := by
  rw [hg.mem_descendants]
  constructor
  · rintro ⟨rel, hy, -, hrel, he⟩
    exact ⟨rel, hy, hrel, he⟩
  · rintro ⟨rel, rfl, hrel, he⟩
    refine ⟨rel, rfl, ?_, hrel, he⟩
    by_cases hnil : rel = []
    · simp [hnil]
    · obtain ⟨e, he⟩ := he hnil
      have hdepth := length_le_depth he
      rw [List.length_append] at hdepth
      omega

/-- A name leads down to what has the name, and a dot nowhere. -/
theorem mem_stepTo_name {path next : List String} {part : String} (hdots : part ≠ "..") :
    next ∈ t.stepTo path (.name part) ↔ t.lookup path = some .directory ∧
      ∃ rel, rel = (if part = "." then [] else [part]) ∧ next = path ++ rel ∧
        ∃ e, t.lookup (path ++ rel) = some e := by
  by_cases hdirectory : t.lookup path = some .directory
  · by_cases hdot : part = "."
    · simp [stepTo, walk, hdirectory, hdot]
    · cases hlook : t.lookup (path ++ [part]) <;>
        simp [stepTo, walk, hdirectory, hdot, hdots, hlook]
  · simp [stepTo, walk, hdirectory]

/-! ### Two directories with the same contents -/

/-- Below two paths the same stands in two trees. -/
def SameBelow (t : FileTree) (here : List String) (t' : FileTree) (here' : List String) : Prop :=
  ∀ rel, t.lookup (here ++ rel) = t'.lookup (here' ++ rel)

variable {here here' : List String}

theorem SameBelow.symm (h : SameBelow t here t' here') : SameBelow t' here' t here :=
  fun rel => (h rel).symm

theorem SameBelow.mem_children (h : SameBelow t here t' here') {rel : List String}
    {name : String} : name ∈ t.children (here ++ rel) ↔ name ∈ t'.children (here' ++ rel) := by
  rw [FileTree.mem_children, FileTree.mem_children, List.append_assoc, List.append_assoc, h]

/-- A part that is no step to a parent leads to the same places below both. -/
theorem SameBelow.stepTo (h : SameBelow t here t' here') (hg : t.Grounded) (hg' : t'.Grounded)
    {part : GlobPart} (hpart : part ≠ .name "..") {rel next : List String}
    (hnext : next ∈ t.stepTo (here ++ rel) part) :
    ∃ rel', next = here ++ rel' ∧ here' ++ rel' ∈ t'.stepTo (here' ++ rel) part := by
  cases part with
  | name part =>
      have hdots : part ≠ ".." := fun heq => hpart (heq ▸ rfl)
      obtain ⟨hdirectory, below, hbelow, rfl, he⟩ := (mem_stepTo_name hdots).mp hnext
      rw [h] at hdirectory
      rw [List.append_assoc, h, ← List.append_assoc] at he
      exact ⟨rel ++ below, List.append_assoc _ _ _,
        (mem_stepTo_name hdots).mpr ⟨hdirectory, below, hbelow, by rw [List.append_assoc], he⟩⟩
  | pattern dotted wildcards =>
      simp only [FileTree.stepTo, h rel] at hnext ⊢
      split at hnext
      · rename_i hdirectory
        obtain ⟨name, hname, rfl⟩ := List.mem_map.mp hnext
        obtain ⟨hname, hadmits⟩ := List.mem_filter.mp hname
        refine ⟨rel ++ [name], by simp, ?_⟩
        rw [if_pos hdirectory, ← List.append_assoc]
        exact List.mem_map_of_mem (List.mem_filter.mpr ⟨h.mem_children.mp hname, hadmits⟩)
      · cases hnext
  | anyDepth =>
      simp only [FileTree.stepTo, h rel] at hnext ⊢
      split at hnext
      · rename_i hdirectory
        obtain ⟨below, rfl, hbelow, he⟩ := hg.mem_descendants_depth.mp hnext
        refine ⟨rel ++ below, by simp, ?_⟩
        rw [if_pos hdirectory, hg'.mem_descendants_depth]
        exact ⟨below, by simp, hbelow, fun hne => by
          rw [← h, ← List.append_assoc]
          exact he hne⟩
      · cases hnext

/-- A pattern without steps to a parent leads to the same places below both. -/
theorem SameBelow.glob (h : SameBelow t here t' here') (hg : t.Grounded) (hg' : t'.Grounded)
    {parts : List GlobPart} (hparts : .name ".." ∉ parts) {rel y : List String}
    (hy : y ∈ t.glob (here ++ rel) parts) :
    ∃ rel', y = here ++ rel' ∧ here' ++ rel' ∈ t'.glob (here' ++ rel) parts := by
  induction parts generalizing rel with
  | nil =>
      rw [FileTree.glob, List.mem_singleton] at hy
      exact ⟨rel, hy, List.mem_singleton_self _⟩
  | cons part parts ih =>
      rw [List.mem_cons, not_or] at hparts
      obtain ⟨next, hnext, hy⟩ := List.mem_flatMap.mp hy
      obtain ⟨rel', rfl, hnext'⟩ := h.stepTo hg hg' (Ne.symm hparts.1) hnext
      obtain ⟨rel'', rfl, hy'⟩ := ih hparts.2 hy
      exact ⟨rel'', rfl, List.mem_flatMap.mpr ⟨_, hnext', hy'⟩⟩

end FileTree

end Soundworks
