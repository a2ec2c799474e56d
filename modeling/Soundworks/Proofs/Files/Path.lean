import Soundworks.Files.Path
import Soundworks.Proofs.Text.Split
/-!
Absolute paths and their parts. The absolute form of a path has proper names as its parts: none of
them is empty, holds a slash, or is a step to itself or to a parent.
-/

namespace Soundworks

namespace Path

/-- A part of a path. -/
def IsPart (s : String) : Prop := s ≠ "" ∧ '/' ∉ s.toList

/-- A part of a path that names an entry of a directory. -/
def IsName (s : String) : Prop := IsPart s ∧ s ≠ "." ∧ s ≠ ".."

instance (s : String) : Decidable (IsPart s) := inferInstanceAs (Decidable (_ ∧ _))

instance (s : String) : Decidable (IsName s) := inferInstanceAs (Decidable (_ ∧ _))

theorem isPart_of_mem_parts {p s : String} (h : s ∈ parts p) : IsPart s := by
  obtain ⟨cs, hcs, rfl⟩ := List.mem_map.mp h
  obtain ⟨hmem, hne⟩ := List.mem_filter.mp hcs
  have hne' : cs ≠ [] := by simpa using hne
  refine ⟨fun hnil => hne' ?_, ?_⟩
  · have hlist := congrArg String.toList hnil
    simpa using hlist
  · simpa using Text.not_mem_of_mem_splitAt hmem

theorem parts_slash_append (p : String) : parts ("/" ++ p) = parts p := by
  simp [parts, Text.splitAt]

theorem toList_ofParts (l : List String) :
    (ofParts l).toList = '/' :: ['/'].intercalate (l.map String.toList) := by
  simp [ofParts]

theorem parts_ofParts {l : List String} (h : ∀ s ∈ l, IsPart s) : parts (ofParts l) = l := by
  cases l with
  | nil => rfl
  | cons first rest =>
      have hsep : ∀ cs ∈ (first :: rest).map String.toList, '/' ∉ cs := by
        intro cs hcs
        obtain ⟨s, hs, rfl⟩ := List.mem_map.mp hcs
        exact (h s hs).2
      have hsplit := List.splitOn_intercalate '/' hsep (by simp)
      have hkeep : ((first :: rest).map String.toList).filter (· ≠ []) =
          (first :: rest).map String.toList := by
        refine List.filter_eq_self.mpr fun cs hcs => ?_
        obtain ⟨s, hs, rfl⟩ := List.mem_map.mp hcs
        simpa using (h s hs).1
      rw [parts, toList_ofParts, Text.splitAt, if_pos rfl, Text.splitAt_eq_splitOn, hsplit,
        List.filter_cons_of_neg (by simp), hkeep, List.map_map]
      simp [Function.comp_def]

/-- A path that is made from parts, perhaps with a second slash, has these parts. -/
theorem parts_of_eq_ofParts {p : String} {l : List String} (h : ∀ s ∈ l, IsPart s)
    (hp : p = ofParts l ∨ p = "/" ++ ofParts l) : parts p = l := by
  rcases hp with rfl | rfl
  · exact parts_ofParts h
  · rw [parts_slash_append, parts_ofParts h]

/-! ### Collapsing -/

theorem mem_foldl_descend {ps stack : List String} {s : String}
    (h : s ∈ ps.foldl descend stack) :
    s ∈ stack ∨ s ∈ ps ∧ s ≠ "." ∧ s ≠ ".." := by
  induction ps generalizing stack with
  | nil => exact .inl h
  | cons p ps ih =>
      rcases ih h with hs | ⟨hs, hdot⟩
      · unfold descend at hs
        split at hs
        · exact .inl hs
        · split at hs
          · exact .inl (List.mem_of_mem_drop hs)
          · rcases List.mem_cons.mp hs with rfl | hs
            · exact .inr ⟨List.mem_cons_self, by assumption, by assumption⟩
            · exact .inl hs
      · exact .inr ⟨List.mem_cons_of_mem _ hs, hdot⟩

theorem isName_of_mem_collapse {p s : String} (h : s ∈ collapse (parts p)) : IsName s := by
  have hmem : s ∈ (parts p).foldl descend [] := List.mem_reverse.mp h
  rcases mem_foldl_descend hmem with hs | ⟨hs, hdot⟩
  · exact absurd hs List.not_mem_nil
  · exact ⟨isPart_of_mem_parts hs, hdot⟩

/-! ### Absolute paths -/

/-- A path that is absolute and leads down from the root by names alone. -/
structure IsAbsolute (p : String) : Prop where
  head : p.toList.head? = some '/'
  names : ∀ s ∈ parts p, IsName s
  last : parts p ≠ [] → p.toList.getLast? ≠ some '/'

theorem getLast?_intercalate {α : Type} (sep : List α) (ls : List (List α)) {y : List α}
    (hy : y ≠ []) : (sep.intercalate (ls ++ [y])).getLast? = y.getLast? := by
  induction ls with
  | nil => simp
  | cons l ls ih =>
      have hne : sep.intercalate (ls ++ [y]) ≠ [] := by
        intro hnil
        rw [hnil] at ih
        exact hy (List.getLast?_eq_none_iff.mp ih.symm)
      rw [List.cons_append, List.intercalate_cons_of_ne_nil (by simp),
        List.getLast?_append_of_ne_nil _ hne, ih]

/-- The last character of a path that is made from parts belongs to the last one. -/
theorem getLast?_ofParts_ne {l : List String} (h : ∀ s ∈ l, IsPart s) (hl : l ≠ []) :
    (ofParts l).toList.getLast? ≠ some '/' := by
  obtain ⟨front, s, rfl⟩ := (List.eq_nil_or_concat' l).resolve_left hl
  have hs : IsPart s := h s (by simp)
  have hne : s.toList ≠ [] := by simpa using hs.1
  have hlast := getLast?_intercalate ['/'] (front.map String.toList) hne
  have hbody : ['/'].intercalate (front.map String.toList ++ [s.toList]) ≠ [] := by
    intro hnil
    rw [hnil] at hlast
    exact hne (List.getLast?_eq_none_iff.mp hlast.symm)
  rw [toList_ofParts, ← List.singleton_append, List.map_append, List.map_singleton,
    List.getLast?_append_of_ne_nil _ hbody, hlast]
  intro hslash
  exact hs.2 (List.mem_of_getLast? hslash)

/-- A path that is made from names, perhaps with a second slash, is absolute. -/
theorem isAbsolute_of_eq_ofParts {p : String} {l : List String} (h : ∀ s ∈ l, IsName s)
    (hp : p = ofParts l ∨ p = "/" ++ ofParts l) : IsAbsolute p := by
  have hparts := parts_of_eq_ofParts (fun s hs => (h s hs).1) hp
  refine ⟨?_, hparts ▸ h, fun hl => ?_⟩
  · rcases hp with rfl | rfl <;> simp [toList_ofParts]
  · have hlast := getLast?_ofParts_ne (fun s hs => (h s hs).1) (hparts ▸ hl)
    rcases hp with rfl | rfl
    · exact hlast
    · rwa [String.toList_append, List.getLast?_append_of_ne_nil _ (by simp [toList_ofParts])]

theorem absolute_cases (directory p : String) :
    absolute directory p = ofParts (collapse (parts (join directory p))) ∨
      absolute directory p = "/" ++ ofParts (collapse (parts (join directory p))) :=
  (ite_eq_or_eq _ _ _).symm

theorem parts_absolute (directory p : String) :
    parts (absolute directory p) = collapse (parts (join directory p)) :=
  parts_of_eq_ofParts (fun _ hs => (isName_of_mem_collapse hs).1) (absolute_cases directory p)

theorem isAbsolute_absolute (directory p : String) : IsAbsolute (absolute directory p) :=
  isAbsolute_of_eq_ofParts (fun _ hs => isName_of_mem_collapse hs) (absolute_cases directory p)

theorem IsAbsolute.join_eq {p : String} (h : IsAbsolute p) (directory : String) :
    join directory p = p := by
  simp [join, h.head]

end Path

theorem Workplace.isAbsolute_resolve (w : Workplace) (p : String) :
    Path.IsAbsolute (w.resolve p) :=
  Path.isAbsolute_absolute w.directory (Path.expandHome w.home p)

end Soundworks
