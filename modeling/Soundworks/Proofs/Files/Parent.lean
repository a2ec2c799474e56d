import Soundworks.Proofs.Files.Path
/-!
The directory of a path. The directory of an absolute path has all its parts but the last one.
Two absolute paths in one directory are the same if they have the same parts.
-/

namespace Soundworks

namespace Path

/-! ### Parts and slashes -/

theorem parts_append_slash (front : List Char) {name : List Char} (h : '/' ∉ name) :
    parts (String.ofList (front ++ '/' :: name)) =
      parts (String.ofList front) ++ if name = [] then [] else [String.ofList name] := by
  simp only [parts, String.toList_ofList, Text.splitAt_append_sep, Text.splitAt_of_not_mem h,
    List.filter_append, List.map_append]
  by_cases hn : name = [] <;> simp [hn]

/-- Slashes at the end of a path add no part. -/
theorem parts_rdropWhile (cs : List Char) :
    parts (String.ofList (cs.rdropWhile (· = '/'))) = parts (String.ofList cs) := by
  induction cs using List.reverseRecOn with
  | nil => rfl
  | append_singleton cs c ih =>
      by_cases hc : c = '/'
      · subst c
        rw [List.rdropWhile_concat_pos _ _ _ (by simp), ih,
          parts_append_slash cs List.not_mem_nil]
        simp
      · rw [List.rdropWhile_concat_neg _ _ _ (by simpa using hc)]

theorem parent_eq (p : String) :
    parent p = String.ofList
      (if (Text.throughLast '/' p.toList).rdropWhile (· = '/') = [] then
        Text.throughLast '/' p.toList
      else (Text.throughLast '/' p.toList).rdropWhile (· = '/')) := rfl

theorem parts_parent_eq (p : String) :
    parts (parent p) = parts (String.ofList (Text.throughLast '/' p.toList)) := by
  rw [parent_eq]
  split
  · rfl
  · exact parts_rdropWhile _

/-- The parts of a path are those of its directory and its name. -/
theorem parts_eq_parent_append {p : String} (hslash : '/' ∈ p.toList) :
    parts p = parts (parent p) ++ if Text.afterLast '/' p.toList = [] then [] else [name p] := by
  obtain ⟨front, hfront⟩ := Text.exists_throughLast hslash
  have hname := Text.sep_not_mem_afterLast '/' p.toList
  have hsplit := Text.throughLast_append_afterLast '/' p.toList
  rw [hfront, List.append_assoc, List.singleton_append] at hsplit
  have hparent : parts (parent p) = parts (String.ofList front) := by
    rw [parts_parent_eq, hfront, parts_append_slash front List.not_mem_nil]
    simp
  rw [hparent, name, ← parts_append_slash front hname, hsplit, String.ofList_toList]

/-- An absolute path ends in its name, unless it is the root. -/
theorem IsAbsolute.parts_eq {p : String} (h : IsAbsolute p) (hp : parts p ≠ []) :
    parts p = parts (parent p) ++ [name p] := by
  have hslash : '/' ∈ p.toList := List.mem_of_head? h.head
  have hne : Text.afterLast '/' p.toList ≠ [] := by
    intro hnil
    obtain ⟨front, hfront⟩ := Text.exists_throughLast hslash
    have hsplit := Text.throughLast_append_afterLast '/' p.toList
    rw [hnil, List.append_nil, hfront] at hsplit
    refine h.last hp ?_
    rw [← hsplit, List.getLast?_concat]
  rw [parts_eq_parent_append hslash, if_neg hne]

theorem IsAbsolute.parts_parent {p : String} (h : IsAbsolute p) :
    parts (parent p) = (parts p).dropLast := by
  by_cases hp : parts p = []
  · have hroot := parts_eq_parent_append (List.mem_of_head? h.head)
    rw [hp] at hroot ⊢
    exact (List.append_eq_nil_iff.mp hroot.symm).1
  · rw [h.parts_eq hp, List.dropLast_concat]

/-! ### Two slashes at the start -/

theorem slashes_not_prefix_ofParts {l : List String} (h : ∀ s ∈ l, IsPart s) :
    ¬['/', '/'] <+: (ofParts l).toList := by
  rw [toList_ofParts]
  cases l with
  | nil => simp
  | cons s rest =>
      have hs := h s List.mem_cons_self
      obtain ⟨c, cs, hc⟩ := List.exists_cons_of_ne_nil (show s.toList ≠ [] by simpa using hs.1)
      have hne : c ≠ '/' := by
        rintro rfl
        exact hs.2 (by simp [hc])
      intro hpre
      cases rest with
      | nil => simp [hc, hne.symm] at hpre
      | cons s' rest => simp [hc, hne.symm] at hpre

theorem parent_isPrefix (p : String) : (parent p).toList <+: p.toList := by
  have hhead : Text.throughLast '/' p.toList <+: p.toList := List.rdropWhile_prefix _ _
  rw [parent_eq, String.toList_ofList]
  split
  · exact hhead
  · exact (List.rdropWhile_prefix _ _).trans hhead

/-- A path starts with two slashes if its directory does. -/
theorem slashes_prefix_parent {p : String} :
    ['/', '/'] <+: (parent p).toList ↔ ['/', '/'] <+: p.toList := by
  refine ⟨fun h => h.trans (parent_isPrefix p), fun h => ?_⟩
  obtain ⟨rest, hrest⟩ := h
  have hhead : ['/', '/'] <+: Text.throughLast '/' p.toList := by
    rw [← hrest, Text.throughLast_eq]
    exact Text.prefix_rdropWhile ['/'] rest (by simp)
  rw [parent_eq, String.toList_ofList]
  split
  · exact hhead
  · rename_i hne
    have hlast := List.rdropWhile_last_not _ _ hne
    have htrim := List.rdropWhile_prefix (· = '/') (Text.throughLast '/' p.toList)
    refine List.prefix_of_prefix_length_le hhead htrim ?_
    -- a shorter one would be a single slash, and that is dropped
    obtain ⟨c, cs, hc⟩ := List.exists_cons_of_ne_nil hne
    cases cs with
    | cons d ds => simp [hc]
    | nil =>
        simp only [hc, List.getLast_singleton] at hlast
        obtain ⟨more, hmore⟩ := hhead
        rw [hc, ← hmore] at htrim
        simp at htrim
        simp [htrim] at hlast

/-- Two absolute forms in one directory are the same if they have the same parts. -/
theorem eq_of_parent_eq {p q : String} {l : List String} (h : ∀ s ∈ l, IsPart s)
    (hp : p = ofParts l ∨ p = "/" ++ ofParts l) (hq : q = ofParts l ∨ q = "/" ++ ofParts l)
    (hparent : parent p = parent q) : p = q := by
  have hslashes : ['/', '/'] <+: p.toList ↔ ['/', '/'] <+: q.toList := by
    rw [← slashes_prefix_parent (p := p), hparent, slashes_prefix_parent]
  have hdoubled : ['/', '/'] <+: ("/" ++ ofParts l).toList := by simp [toList_ofParts]
  have hsingle := slashes_not_prefix_ofParts h
  rcases hp with rfl | rfl <;> rcases hq with rfl | rfl
  · rfl
  · exact absurd (hslashes.mpr hdoubled) hsingle
  · exact absurd (hslashes.mp hdoubled) hsingle
  · rfl

end Path

/-- Absolute paths in one directory are the same if they lead to the same place. -/
theorem Workplace.resolve_eq_of_parts (w : Workplace) {p q : String}
    (hparent : Path.parent (w.resolve p) = Path.parent (w.resolve q))
    (hparts : Path.parts (w.resolve p) = Path.parts (w.resolve q)) :
    w.resolve p = w.resolve q := by
  have hp := Path.absolute_cases w.directory (Path.expandHome w.home p)
  have hq := Path.absolute_cases w.directory (Path.expandHome w.home q)
  rw [← Path.parts_absolute] at hp hq
  refine Path.eq_of_parent_eq (fun s hs => ((w.isAbsolute_resolve p).names s hs).1) hp ?_ hparent
  rw [hparts]
  exact hq

end Soundworks
