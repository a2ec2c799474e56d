import Soundworks.Proofs.Files.Discovery
/-!
Absolute forms. The absolute form of a path is made from names, perhaps behind a second slash, and
it is its own absolute form. It is told by its directory and its name.
-/

namespace Soundworks

namespace Path

/-! ### One part more -/

theorem intercalate_concat {α : Type} (sep : List α) {ls : List (List α)} (h : ls ≠ [])
    (y : List α) : sep.intercalate (ls ++ [y]) = sep.intercalate ls ++ sep ++ y := by
  induction ls with
  | nil => exact absurd rfl h
  | cons l ls ih =>
      by_cases hls : ls = []
      · subst hls
        simp
      · rw [List.cons_append, List.intercalate_cons_of_ne_nil (by simp), ih hls,
          List.intercalate_cons_of_ne_nil hls]
        simp

/-- The directory of what is after a slash is what is before it, without slashes at its end. -/
theorem parent_append_slash (front : List Char) {name : List Char} (h : '/' ∉ name) :
    parent (String.ofList (front ++ '/' :: name)) = String.ofList
      (if front.rdropWhile (· = '/') = [] then front ++ ['/'] else front.rdropWhile (· = '/')) := by
  have hhead : Text.throughLast '/' (front ++ '/' :: name) = front ++ ['/'] := by
    have hsplit := Text.throughLast_append_afterLast '/' (front ++ '/' :: name)
    rw [Text.afterLast_append_cons front h] at hsplit
    exact List.append_cancel_right (hsplit.trans (by simp))
  rw [parent_eq, String.toList_ofList, hhead, List.rdropWhile_concat_pos _ _ _ (by simp)]

/-- One part more leads from a directory to what is in it; slashes at the start stay. -/
theorem parent_ofParts_concat {l : List String} (h : ∀ s ∈ l, IsPart s) {n : String}
    (hn : '/' ∉ n.toList) (slashes : List Char) (hslashes : ∀ c ∈ slashes, c = '/') :
    parent (String.ofList (slashes ++ (ofParts (l ++ [n])).toList)) =
      String.ofList (slashes ++ (ofParts l).toList) := by
  by_cases hl : l = []
  · subst hl
    have hdrop : slashes.rdropWhile (· = '/') = [] :=
      List.rdropWhile_eq_nil_iff.mpr fun c hc => by simpa using hslashes c hc
    have hroot : (ofParts [n]).toList = '/' :: n.toList := by simp [toList_ofParts]
    rw [List.nil_append, hroot, parent_append_slash slashes hn, if_pos hdrop]
    rfl
  · have hbelow : (ofParts (l ++ [n])).toList = (ofParts l).toList ++ '/' :: n.toList := by
      rw [toList_ofParts, toList_ofParts, List.map_append, List.map_singleton,
        intercalate_concat _ (by simpa using hl)]
      simp
    have hlast := getLast?_ofParts_ne h hl
    have hkeep : (slashes ++ (ofParts l).toList).rdropWhile (· = '/') =
        slashes ++ (ofParts l).toList := by
      obtain ⟨front, c, hfront⟩ :=
        (List.eq_nil_or_concat' (ofParts l).toList).resolve_left (by simp [toList_ofParts])
      rw [hfront, List.getLast?_concat] at hlast
      rw [hfront, ← List.append_assoc, List.rdropWhile_concat_neg _ _ _ (by simpa using hlast)]
    rw [hbelow, ← List.append_assoc, parent_append_slash _ hn, hkeep,
      if_neg (by simp [toList_ofParts])]

/-! ### The second slash -/

theorem isDoubled_iff {p : String} :
    isDoubled p = true ↔ ['/', '/'] <+: p.toList ∧ ¬['/', '/', '/'] <+: p.toList := by
  unfold isDoubled
  split
  · rename_i rest heq
    simp [heq]
  · rename_i rest hrest heq
    have hthird : ¬['/'] <+: rest := by
      rintro ⟨more, rfl⟩
      exact hrest more rfl
    simp [heq, hthird]
  · rename_i h h'
    refine iff_of_false Bool.false_ne_true fun hp => ?_
    obtain ⟨rest, hrest⟩ := hp.1
    exact h' rest hrest.symm

theorem isDoubled_ofParts {l : List String} (h : ∀ s ∈ l, IsPart s) :
    isDoubled (ofParts l) = false :=
  Bool.eq_false_iff.mpr fun hp => slashes_not_prefix_ofParts h (isDoubled_iff.mp hp).1

theorem isDoubled_slash_ofParts {l : List String} (h : ∀ s ∈ l, IsPart s) :
    isDoubled ("/" ++ ofParts l) = true := by
  refine isDoubled_iff.mpr ⟨by simp [toList_ofParts], fun hp => slashes_not_prefix_ofParts h ?_⟩
  rwa [String.toList_append, show "/".toList = ['/'] from rfl, List.singleton_append,
    List.cons_prefix_cons, and_iff_right rfl] at hp

/-- The absolute form that is made from parts, with the second slash of another path. -/
def like (p : String) (l : List String) : String :=
  if isDoubled p then "/" ++ ofParts l else ofParts l

theorem like_cases (p : String) (l : List String) :
    like p l = ofParts l ∨ like p l = "/" ++ ofParts l :=
  (ite_eq_or_eq _ _ _).symm

theorem like_congr {p q : String} (h : isDoubled p = isDoubled q) (l : List String) :
    like p l = like q l := by
  rw [like, like, h]

/-- A path in absolute form is made from its parts, which are names. -/
structure IsNormal (p : String) : Prop where
  names : ∀ s ∈ parts p, IsName s
  eq : p = like p (parts p)

theorem IsNormal.cases {p : String} (h : IsNormal p) :
    p = ofParts (parts p) ∨ p = "/" ++ ofParts (parts p) := by
  have hcases := like_cases p (parts p)
  rwa [← h.eq] at hcases

theorem IsNormal.isAbsolute {p : String} (h : IsNormal p) : IsAbsolute p :=
  isAbsolute_of_eq_ofParts h.names h.cases

theorem isDoubled_like (p : String) {l : List String} (h : ∀ s ∈ l, IsPart s) :
    isDoubled (like p l) = isDoubled p := by
  unfold like
  cases hp : isDoubled p with
  | false => exact isDoubled_ofParts h
  | true => exact isDoubled_slash_ofParts h

theorem parts_like (p : String) {l : List String} (h : ∀ s ∈ l, IsPart s) : parts (like p l) = l :=
  parts_of_eq_ofParts h (like_cases p l)

theorem isNormal_like (p : String) {l : List String} (h : ∀ s ∈ l, IsName s) :
    IsNormal (like p l) := by
  have hparts := parts_like p fun s hs => (h s hs).1
  refine ⟨by rwa [hparts], ?_⟩
  rw [hparts]
  exact like_congr (isDoubled_like p fun s hs => (h s hs).1).symm l

/-- A path that is made from names, perhaps with a second slash, is in absolute form. -/
theorem isNormal_of_cases {p : String} (h : ∀ s ∈ parts p, IsName s)
    (hp : p = ofParts (parts p) ∨ p = "/" ++ ofParts (parts p)) : IsNormal p := by
  have hparts : ∀ s ∈ parts p, IsPart s := fun s hs => (h s hs).1
  refine ⟨h, ?_⟩
  generalize parts p = l at hp hparts
  rcases hp with rfl | rfl
  · rw [like, isDoubled_ofParts hparts, if_neg Bool.false_ne_true]
  · rw [like, isDoubled_slash_ofParts hparts, if_pos rfl]

/-- The directory of an absolute form is the absolute form without the last part. -/
theorem parent_like (p : String) {l : List String} (h : ∀ s ∈ l, IsPart s) {n : String}
    (hn : '/' ∉ n.toList) : parent (like p (l ++ [n])) = like p l := by
  unfold like
  split
  · simpa [String.ofList_append] using parent_ofParts_concat h hn ['/'] (by simp)
  · simpa using parent_ofParts_concat h hn [] (by simp)

theorem name_like (p : String) {l : List String} {n : String} (h : ∀ s ∈ l ++ [n], IsName s) :
    name (like p (l ++ [n])) = n := by
  have habsolute := isAbsolute_of_eq_ofParts h (like_cases p (l ++ [n]))
  have hparts := parts_like p fun s hs => (h s hs).1
  have hsplit := habsolute.parts_eq (by simp [hparts])
  rw [hparts] at hsplit
  exact (List.singleton_inj.mp (List.append_inj_right' hsplit rfl)).symm

/-- A path in absolute form is the name in its directory. -/
theorem IsNormal.eq_like {p : String} (h : IsNormal p) (hp : parts p ≠ []) :
    p = like (parent p) (parts (parent p) ++ [name p]) := by
  have hsplit := h.isAbsolute.parts_eq hp
  have hnames := h.names
  rw [hsplit] at hnames
  have hfront : ∀ s ∈ parts (parent p), IsPart s := fun s hs =>
    (hnames s (List.mem_append_left _ hs)).1
  have hparent : parent p = like p (parts (parent p)) := by
    have hlike := parent_like p hfront (hnames (name p) (by simp)).1.2
    rwa [← hsplit, ← h.eq] at hlike
  have hdoubled : isDoubled (parent p) = isDoubled p := by
    rw [hparent, isDoubled_like p hfront]
  rw [← hsplit, like_congr hdoubled, ← h.eq]

end Path

namespace Workplace

theorem resolve_eq_like (w : Workplace) (p : String) :
    w.resolve p = Path.like (Path.join w.directory (Path.expandHome w.home p))
      (Path.collapse (Path.parts (Path.join w.directory (Path.expandHome w.home p)))) := rfl

theorem isNormal_resolve (w : Workplace) (p : String) : Path.IsNormal (w.resolve p) := by
  rw [resolve_eq_like]
  exact Path.isNormal_like _ fun _ hs => Path.isName_of_mem_collapse hs

/-- A path in absolute form stays as it is. -/
theorem resolve_of_isNormal (w : Workplace) {p : String} (h : Path.IsNormal p) :
    w.resolve p = p := by
  rw [resolve_eq_like, Path.expandHome_of_head h.isAbsolute.head, h.isAbsolute.join_eq,
    Path.collapse_of_names h.names, ← h.eq]

end Workplace

end Soundworks
