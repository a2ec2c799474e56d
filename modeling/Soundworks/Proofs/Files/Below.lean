import Soundworks.Proofs.Files.Naming
import Soundworks.Proofs.Files.Normal
/-!
Paths below a directory. What is joined to a directory follows its parts, whatever they are, and
the paths below a directory are in the order of what follows it.
-/

namespace Soundworks

namespace Path

theorem parts_append_cons (front rest : List Char) :
    parts (String.ofList (front ++ '/' :: rest)) =
      parts (String.ofList front) ++ parts (String.ofList rest) := by
  simp only [parts, String.toList_ofList, Text.splitAt_append_sep, List.filter_append,
    List.map_append]

theorem toList_ofParts_concat {l : List String} (hl : l ≠ []) (q : String) :
    (ofParts (l ++ [q])).toList = (ofParts l).toList ++ '/' :: q.toList := by
  rw [toList_ofParts, toList_ofParts, List.map_append, List.map_singleton,
    intercalate_concat _ (by simpa using hl)]
  simp

theorem toList_like (p : String) (l : List String) :
    (like p l).toList = (if isDoubled p then ['/'] else []) ++ (ofParts l).toList := by
  unfold like
  split <;> simp

/-- What is joined to an absolute form is one part more, which may hold slashes itself. -/
theorem join_like (p : String) {l : List String} (h : ∀ s ∈ l, IsPart s) {q : String}
    (hq : q.toList.head? ≠ some '/') : join (like p l) q = like p (l ++ [q]) := by
  have hne : like p l ≠ "" := by
    intro hnil
    have hlist := congrArg String.toList hnil
    rw [toList_like, toList_ofParts] at hlist
    simp at hlist
  apply String.toList_inj.mp
  rw [join, if_neg hq]
  by_cases hl : l = []
  · subst hl
    have hlast : (like p []).toList.getLast? = some '/' := by
      rw [toList_like, toList_ofParts]
      simp
    rw [if_pos (.inr hlast), String.toList_append, toList_like, toList_like]
    simp [toList_ofParts]
  · have hlast : (like p l).toList.getLast? ≠ some '/' := by
      rw [toList_like, List.getLast?_append_of_ne_nil _ (by simp [toList_ofParts])]
      exact getLast?_ofParts_ne h hl
    rw [if_neg (not_or.mpr ⟨hne, hlast⟩), toList_like, toList_ofParts_concat hl]
    simp [toList_like]

theorem parts_like_concat (p : String) {l : List String} (h : ∀ s ∈ l, IsPart s) (q : String) :
    parts (like p (l ++ [q])) = l ++ parts q := by
  have hslash : parts (like p (l ++ [q])) = parts (ofParts (l ++ [q])) := by
    rcases like_cases p (l ++ [q]) with heq | heq
    · rw [heq]
    · rw [heq, parts_slash_append]
  rw [hslash]
  by_cases hl : l = []
  · subst hl
    rw [List.nil_append, List.nil_append, ofParts]
    exact parts_slash_append _
  · rw [← String.ofList_toList (s := ofParts (l ++ [q])), toList_ofParts_concat hl,
      parts_append_cons, String.ofList_toList, String.ofList_toList, parts_ofParts h]

theorem head?_intercalate_ne {l : List String} {q : String} (h : ∀ s ∈ l, IsPart s)
    (hq : q.toList.head? ≠ some '/') :
    (['/'].intercalate ((l ++ [q]).map String.toList)).head? ≠ some '/' := by
  cases l with
  | nil => simpa using hq
  | cons s l =>
      obtain ⟨hne, hslash⟩ := h s List.mem_cons_self
      have hs : s.toList ≠ [] := by simpa using hne
      rw [List.cons_append, List.map_cons, List.intercalate_cons_of_ne_nil (by simp),
        List.append_assoc, List.head?_append_of_ne_nil _ hs]
      exact fun hhead => hslash (List.mem_of_head? hhead)

theorem isDoubled_slashes {rest : List Char} (hrest : rest.head? ≠ some '/') :
    isDoubled (String.ofList ('/' :: rest)) = false ∧
      isDoubled (String.ofList ('/' :: '/' :: rest)) = true := by
  cases rest with
  | nil => simp [isDoubled]
  | cons c rest =>
      have hc : c ≠ '/' := by simpa using hrest
      simp [isDoubled, hc]

/-- The slashes at the start are those of the directory. -/
theorem isDoubled_like_concat (p : String) {l : List String} (h : ∀ s ∈ l, IsPart s) {q : String}
    (hq : q.toList.head? ≠ some '/') : isDoubled (like p (l ++ [q])) = isDoubled p := by
  obtain ⟨hsingle, hdouble⟩ := isDoubled_slashes (head?_intercalate_ne h hq)
  rw [← String.ofList_toList (s := like p (l ++ [q])), toList_like, toList_ofParts]
  cases isDoubled p with
  | false => exact hsingle
  | true => exact hdouble

/-- A path below a directory ends like what follows the directory. -/
theorem getLast?_like_concat (p : String) (l : List String) (q : String) :
    (like p (l ++ [q])).toList.getLast? = some '/' ↔ q = "" ∨ q.toList.getLast? = some '/' := by
  have hslash : ∃ front, (like p (l ++ [q])).toList = front ++ '/' :: q.toList := by
    by_cases hl : l = []
    · exact ⟨if isDoubled p then ['/'] else [], by simp [toList_like, toList_ofParts, hl]⟩
    · exact ⟨_, by rw [toList_like, toList_ofParts_concat hl, List.append_assoc]⟩
  obtain ⟨front, hfront⟩ := hslash
  rw [hfront]
  by_cases hq : q = ""
  · simp [hq]
  · have hne : q.toList ≠ [] := by simpa using hq
    rw [List.getLast?_append_of_ne_nil _ (by simp), List.getLast?_cons_of_ne_nil hne]
    simp [hq]

/-! ### Names below a directory -/

/-- The path from a directory down to what the names lead to. -/
def relative (names : List String) : String := "/".intercalate names

theorem head?_relative {names : List String} (h : ∀ s ∈ names, IsPart s) :
    (relative names).toList.head? ≠ some '/' := by
  rw [relative, String.toList_intercalate]
  rcases List.eq_nil_or_concat' names with rfl | ⟨front, last, rfl⟩
  · simp
  · refine head?_intercalate_ne (fun s hs => h s (List.mem_append_left _ hs)) fun hhead => ?_
    exact (h last (by simp)).2 (List.mem_of_head? hhead)

theorem like_relative (p : String) (l : List String) {names : List String} (h : names ≠ []) :
    like p (l ++ [relative names]) = like p (l ++ names) := by
  have hparts : ofParts (l ++ [relative names]) = ofParts (l ++ names) := by
    by_cases hl : l = []
    · simp [hl, ofParts, relative]
    · rw [ofParts, ofParts, String.intercalate_append_of_ne_nil hl h,
        String.intercalate_append_of_ne_nil hl (by simp)]
      simp [relative]
  rw [like, like, hparts]

/-- What names lead to below a directory in absolute form. -/
theorem IsNormal.join_relative {root : String} (hroot : IsNormal root) {names : List String}
    (h : ∀ s ∈ names, IsPart s) (hne : names ≠ []) :
    join root (relative names) = like root (parts root ++ names) := by
  have hjoin := join_like root (fun s hs => (hroot.names s hs).1) (head?_relative h)
  rwa [← hroot.eq, like_relative root _ hne] at hjoin

/-- The name of a path below a directory is that of what follows the directory. -/
theorem IsNormal.name_join_relative {root : String} (hroot : IsNormal root)
    {front : List String} {n : String} (h : ∀ s ∈ front ++ [n], IsName s) :
    name (join root (relative (front ++ [n]))) = n := by
  rw [hroot.join_relative (fun s hs => (h s hs).1) (by simp), ← List.append_assoc]
  refine name_like root fun s hs => ?_
  rw [List.append_assoc, List.mem_append] at hs
  exact hs.elim (hroot.names s) (h s)

/-- The paths below a directory are in the order of what follows it. -/
theorem join_lt_join (directory : String) {p q : String} (hp : p.toList.head? ≠ some '/')
    (hq : q.toList.head? ≠ some '/') : join directory p < join directory q ↔ p < q := by
  obtain ⟨front, hfront⟩ : ∃ front : String, ∀ r : String, r.toList.head? ≠ some '/' →
      join directory r = front ++ r := by
    by_cases hdirectory : directory = "" ∨ directory.toList.getLast? = some '/'
    · exact ⟨directory, fun r hr => by rw [join, if_neg hr, if_pos hdirectory]⟩
    · exact ⟨directory ++ "/", fun r hr => by rw [join, if_neg hr, if_neg hdirectory]⟩
  rw [hfront p hp, hfront q hq, String.lt_iff, String.lt_iff,
    String.toList_append, String.toList_append]
  generalize front.toList = cs
  induction cs with
  | nil => rfl
  | cons c cs ih => simp [ih]

end Path

end Soundworks
