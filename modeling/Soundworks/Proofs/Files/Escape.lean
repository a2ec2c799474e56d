import Mathlib.Data.List.Infix
import Soundworks.Proofs.Files.Below
import Soundworks.Proofs.Files.Glob
/-!
Escaped names. A character that may stand for others is written in brackets, where it stands for
itself; so an escaped name leads to what has the name and to nothing else, and a pattern behind the
escaped path of a directory leads to what it leads to in the directory.
-/

namespace Soundworks

namespace Wildcard

def isSpecial (c : Char) : Bool := c = '*' || c = '?' || c = '['

theorem isPattern_eq (cs : List Char) : isPattern cs = cs.any isSpecial := rfl

/-- A character that may stand for others, in brackets, and any other one as it is. -/
def escapeChar (c : Char) : List Char := if isSpecial c then ['[', c, ']'] else [c]

def escape (cs : List Char) : List Char := cs.flatMap escapeChar

def ofEscaped (c : Char) : Wildcard :=
  if isSpecial c then .oneOf false [(c, c)] else .char c

theorem matchesAll_ofEscaped (cs ds : List Char) :
    matchesAll (cs.map ofEscaped) ds = true ↔ ds = cs := by
  induction cs generalizing ds with
  | nil => simp [matchesAll]
  | cons c cs ih =>
      have hchar : ∀ d, matchesChar d (ofEscaped c) = true ↔ d = c := by
        intro d
        unfold ofEscaped
        split
        · have hrange : c ≤ d ∧ d ≤ c ↔ d = c :=
            ⟨fun h => Char.le_antisymm h.2 h.1, fun h => h ▸ ⟨Char.le_refl d, Char.le_refl d⟩⟩
          simpa [matchesChar] using hrange
        · simp [matchesChar]
      have hstar : ofEscaped c ≠ .star := by
        unfold ofEscaped
        split <;> simp
      cases ds with
      | nil => simp [matchesAll]
      | cons d ds => simp [matchesAll, ih, hchar]

theorem readWithin_escape {fuel : ℕ} {cs : List Char} (h : cs.length ≤ fuel) :
    readWithin fuel (escape cs) = cs.map ofEscaped := by
  induction cs generalizing fuel with
  | nil => cases fuel <;> rfl
  | cons c cs ih =>
      obtain ⟨fuel, rfl⟩ : ∃ n, fuel = n + 1 := ⟨fuel - 1, by simp at h; omega⟩
      rw [escape, List.flatMap_cons, ← escape, List.map_cons, ← ih (by simpa using h)]
      by_cases hc : isSpecial c = true
      · rw [escapeChar, ofEscaped, if_pos hc, if_pos hc]
        simp only [isSpecial, Bool.or_eq_true, decide_eq_true_eq] at hc
        rcases hc with (rfl | rfl) | rfl <;>
          simp [readWithin, readClass?, closeClass?, closeClass?.closeLater?, classRanges]
      · rw [escapeChar, ofEscaped, if_neg hc, if_neg hc]
        simp only [isSpecial, Bool.or_eq_true, decide_eq_true_eq, not_or] at hc
        simp [readWithin, hc]

theorem length_le_escape (cs : List Char) : cs.length ≤ (escape cs).length := by
  induction cs with
  | nil => simp
  | cons c cs ih =>
      have hc : 1 ≤ (escapeChar c).length := by
        unfold escapeChar
        split <;> simp
      rw [escape, List.flatMap_cons, List.length_append, ← escape, List.length_cons]
      omega

theorem matchesAll_escape {cs ds : List Char} :
    matchesAll (read (escape cs)) ds = true ↔ ds = cs := by
  rw [read, readWithin_escape (length_le_escape cs), matchesAll_ofEscaped]

/-- A text without characters that may stand for others is its own escaped text. -/
theorem escape_of_not_isPattern {cs : List Char} (h : isPattern cs = false) : escape cs = cs := by
  rw [isPattern_eq, List.any_eq_false] at h
  induction cs with
  | nil => rfl
  | cons c cs ih =>
      rw [List.forall_mem_cons] at h
      rw [escape, List.flatMap_cons, escapeChar, if_neg h.1, ← escape, ih h.2,
        List.singleton_append]

/-- An escaped text has characters that may stand for others where the text has them. -/
theorem isPattern_escape (cs : List Char) : isPattern (escape cs) = isPattern cs := by
  have hchar : ∀ c, (escapeChar c).any isSpecial = isSpecial c := by
    intro c
    unfold escapeChar
    split
    · rename_i hc
      simp [hc]
    · simp
  simp only [isPattern_eq, escape, List.any_flatMap, hchar]

/-- An escaped text starts with a bracket or with an ordinary character. -/
theorem head?_escape {c : Char} (hc : c ≠ '[') (cs : List Char) :
    (escape cs).head? = some c ↔ cs.head? = some c ∧ isSpecial c = false := by
  cases cs with
  | nil => simp [escape]
  | cons d cs =>
      rw [escape, List.flatMap_cons, escapeChar]
      cases hd : isSpecial d with
      | true =>
          refine iff_of_false (by simpa using Ne.symm hc) ?_
          rintro ⟨heq, hspecial⟩
          obtain rfl : d = c := by simpa using heq
          simp [hd] at hspecial
      | false =>
          simp only [List.singleton_append, List.head?_cons, Bool.false_eq_true, if_false,
            Option.some.injEq, iff_self_and]
          rintro rfl
          exact hd

theorem not_mem_escape {c : Char} (hopen : c ≠ '[') (hclose : c ≠ ']') {cs : List Char}
    (h : c ∉ cs) : c ∉ escape cs := by
  intro hmem
  obtain ⟨d, hd, hc⟩ := List.mem_flatMap.mp hmem
  have hne : c ≠ d := fun heq => h (heq ▸ hd)
  unfold escapeChar at hc
  split at hc <;> simp_all

end Wildcard

namespace Path

def escape (p : String) : String := String.ofList (Wildcard.escape p.toList)

@[simp] theorem toList_escape (p : String) : (escape p).toList = Wildcard.escape p.toList :=
  String.toList_ofList

theorem isPart_escape {s : String} (h : IsPart s) : IsPart (escape s) := by
  obtain ⟨hne, hslash⟩ := h
  constructor
  · rw [Ne, ← String.toList_inj, toList_escape]
    intro hnil
    have hlen := Wildcard.length_le_escape s.toList
    rw [hnil] at hlen
    exact hne (by simpa using hlen)
  · rw [toList_escape]
    exact Wildcard.not_mem_escape (by decide) (by decide) hslash

theorem IsNormal.isPart_of_mem_escape {p : String} (h : IsNormal p) :
    ∀ s ∈ (parts p).map escape, IsPart s := by
  intro s hs
  obtain ⟨s, hmem, rfl⟩ := List.mem_map.mp hs
  exact isPart_escape (h.names s hmem).1

/-- The slashes of a path are not escaped. -/
theorem escape_like (p : String) (l : List String) :
    escape (like p l) = like p (l.map escape) := by
  have hjoin : ∀ ls : List (List Char), Wildcard.escape (['/'].intercalate ls) =
      ['/'].intercalate (ls.map Wildcard.escape) := by
    intro ls
    induction ls with
    | nil => rfl
    | cons cs ls ih =>
        by_cases hls : ls = []
        · simp [hls]
        · rw [List.intercalate_cons_of_ne_nil hls, List.map_cons,
            List.intercalate_cons_of_ne_nil (by simpa using hls), ← ih]
          simp [Wildcard.escape, Wildcard.escapeChar, Wildcard.isSpecial]
  have hparts : Wildcard.escape (ofParts l).toList = (ofParts (l.map escape)).toList := by
    rw [toList_ofParts, toList_ofParts, Wildcard.escape, List.flatMap_cons, ← Wildcard.escape,
      hjoin]
    simp [Wildcard.escapeChar, Wildcard.isSpecial, Function.comp_def]
  apply String.toList_inj.mp
  rw [toList_escape, toList_like, toList_like, ← hparts]
  split <;> simp [Wildcard.escape, Wildcard.escapeChar, Wildcard.isSpecial]

end Path

namespace FileTree

variable {t : FileTree}

theorem glob_append (t : FileTree) (path : List String) (ps qs : List GlobPart) :
    t.glob path (ps ++ qs) = (t.glob path ps).flatMap fun next => t.glob next qs := by
  induction ps generalizing path with
  | nil => simp [glob]
  | cons p ps ih => simp [glob, ih, List.flatMap_assoc]

theorem isHidden_escape (s : String) :
    GlobPart.isHidden (Path.escape s) = GlobPart.isHidden s := by
  unfold GlobPart.isHidden
  rw [decide_eq_decide, Path.toList_escape, Wildcard.head?_escape (by decide)]
  exact and_iff_left rfl

/-- No escaped name stands for any depth. -/
theorem ofText_escape (recursive : Bool) (s : String) :
    GlobPart.ofText recursive (Path.escape s) =
      if Wildcard.isPattern s.toList then
        .pattern (GlobPart.isHidden s) (Wildcard.read (Wildcard.escape s.toList))
      else .name s := by
  have hstars : Path.escape s ≠ "**" := by
    intro heq
    have hhead : (Path.escape s).toList.head? = some '*' := by rw [heq]; rfl
    rw [Path.toList_escape, Wildcard.head?_escape (by decide)] at hhead
    exact absurd hhead.2 (by decide)
  rw [GlobPart.ofText, if_neg fun h => hstars h.2, Path.toList_escape, Wildcard.isPattern_escape,
    isHidden_escape]
  split
  · rfl
  · rename_i hpattern
    rw [Path.escape, Wildcard.escape_of_not_isPattern (by simpa using hpattern),
      String.ofList_toList]

theorem mem_stepTo_escape {path next : List String} {s : String} (hs : Path.IsName s)
    (recursive : Bool) {e : Entry} (hpath : t.lookup path = some .directory)
    (he : t.lookup (path ++ [s]) = some e) :
    next ∈ t.stepTo path (GlobPart.ofText recursive (Path.escape s)) ↔ next = path ++ [s] := by
  rw [ofText_escape]
  split
  · have hadmits : ∀ name, GlobPart.admits (GlobPart.isHidden s)
        (Wildcard.read (Wildcard.escape s.toList)) name = true ↔ name = s := by
      intro name
      rw [GlobPart.admits, Bool.and_eq_true, Wildcard.matchesAll_escape, String.toList_inj]
      refine and_iff_right_of_imp ?_
      rintro rfl
      exact Bool.or_not_self _
    rw [stepTo, if_pos hpath, List.mem_map]
    simp only [List.mem_filter, hadmits]
    constructor
    · rintro ⟨name, ⟨-, rfl⟩, rfl⟩
      rfl
    · rintro rfl
      exact ⟨s, ⟨mem_children_of_lookup he, rfl⟩, rfl⟩
  · rw [mem_stepTo_name hs.2.2, if_neg hs.2.1]
    constructor
    · rintro ⟨-, _, rfl, rfl, -⟩
      rfl
    · rintro rfl
      exact ⟨hpath, [s], rfl, rfl, e, he⟩

theorem Grounded.mem_glob_escape (hg : t.Grounded) {path names : List String}
    (hnames : ∀ s ∈ names, Path.IsName s) (recursive : Bool)
    (hdirectory : t.lookup (path ++ names) = some .directory) {y : List String} :
    y ∈ t.glob path (names.map fun s => GlobPart.ofText recursive (Path.escape s)) ↔
      y = path ++ names := by
  induction names generalizing path with
  | nil => simp [glob]
  | cons s names ih =>
      obtain ⟨hs, hnames⟩ := List.forall_mem_cons.mp hnames
      have hpath : t.lookup path = some .directory :=
        hg.lookup_of_append hdirectory (List.cons_ne_nil s names)
      rw [← List.singleton_append, ← List.append_assoc] at hdirectory
      have hnext : ∃ e, t.lookup (path ++ [s]) = some e := by
        by_cases hnil : names = []
        · exact ⟨_, by simpa [hnil] using hdirectory⟩
        · exact ⟨_, hg.lookup_of_append hdirectory hnil⟩
      obtain ⟨e, he⟩ := hnext
      simp only [List.map_cons, glob, List.mem_flatMap, mem_stepTo_escape hs recursive hpath he,
        exists_eq_left, ih hnames hdirectory, List.append_assoc, List.singleton_append]

/-! ### Patterns behind a directory -/

/-- A text has two stars, so that two stars for a part stand for any depth. -/
def isRecursive (cs : List Char) : Bool := ['*', '*'] <:+: cs

def hasFile (t : FileTree) (path : List String) : Bool :=
  match t.lookup path with
  | some (.file ..) => true
  | _ => false

theorem hasFile_iff {path : List String} :
    t.hasFile path = true ↔ ∃ text mode, t.lookup path = some (.file text mode) := by
  unfold hasFile
  split
  · rename_i text mode h
    simp [h]
  · rename_i h
    simpa using h

/-- The files that a pattern leads to from a path; a slash at the end asks for directories. -/
def globFrom (t : FileTree) (start : List String) (recursive : Bool) (pattern : String) :
    List (List String) :=
  (if pattern.toList.getLast? = some '/' then []
    else t.glob start ((Path.parts pattern).map (GlobPart.ofText recursive))).filter t.hasFile

theorem mem_globFrom {start path : List String} {recursive : Bool} {pattern : String} :
    path ∈ t.globFrom start recursive pattern ↔ pattern.toList.getLast? ≠ some '/' ∧
      path ∈ t.glob start ((Path.parts pattern).map (GlobPart.ofText recursive)) ∧
        t.hasFile path = true := by
  rw [globFrom, List.mem_filter]
  by_cases hlast : pattern.toList.getLast? = some '/'
  · rw [if_pos hlast]
    exact iff_of_false (fun h => List.not_mem_nil h.1) fun h => h.1 hlast
  · rw [if_neg hlast, and_iff_right hlast]

def globFiles (t : FileTree) (recursive : Bool) (pattern : String) : List String :=
  (t.globFrom [] recursive pattern).map (Path.like pattern)

theorem any_zip_tail (cs : List Char) :
    ((cs.zip cs.tail).any fun (a, b) => a = '*' && b = '*') = isRecursive cs := by
  unfold isRecursive
  induction cs with
  | nil => rfl
  | cons c cs ih =>
      cases cs with
      | nil => simp [List.infix_cons_iff]
      | cons d cs =>
          simp only [List.tail_cons, List.zip_cons_cons, List.any_cons] at ih ⊢
          rw [ih]
          simp [List.infix_cons_iff (a := c), eq_comm]

theorem filesMatching_eq (root : String) (pattern : List Char) :
    t.filesMatching root pattern =
      if pattern.head? = some '/' then
        t.globFiles (isRecursive pattern) (String.ofList pattern)
      else
        (t.globFrom (Path.parts root) (isRecursive pattern) (String.ofList pattern)).map
          (Path.like root) := by
  unfold filesMatching globFiles globFrom
  dsimp only
  rw [any_zip_tail, String.toList_ofList]
  by_cases hhead : pattern.head? = some '/'
  · rw [if_pos hhead, if_pos hhead]
    rfl
  · rw [if_neg hhead, if_neg hhead]
    rfl

theorem mem_filesMatching_of_relative {root x : String} {pattern : List Char}
    (h : pattern.head? ≠ some '/') :
    x ∈ t.filesMatching root pattern ↔
      ∃ path ∈ t.globFrom (Path.parts root) (isRecursive pattern) (String.ofList pattern),
        x = Path.like root path := by
  rw [filesMatching_eq, if_neg h, List.mem_map]
  simp only [eq_comm]

/-- Behind the escaped path of a directory a pattern leads to what it leads to below it. -/
theorem Grounded.mem_globFrom_escape (hg : t.Grounded) {root : String} (hroot : Path.IsNormal root)
    (hdirectory : t.lookup (Path.parts root) = some .directory) (recursive : Bool)
    {pattern : String} (hhead : pattern.toList.head? ≠ some '/') {path : List String} :
    path ∈ t.globFrom [] recursive
        (Path.like root ((Path.parts root).map Path.escape ++ [pattern])) ↔
      path ∈ t.globFrom (Path.parts root) recursive pattern := by
  have hparts := hroot.isPart_of_mem_escape
  have hstart : ∀ y, y ∈ t.glob [] ((Path.parts root).map fun s =>
      GlobPart.ofText recursive (Path.escape s)) ↔ y = [] ++ Path.parts root :=
    fun y => hg.mem_glob_escape hroot.names recursive hdirectory
  rw [mem_globFrom, mem_globFrom, Ne, Path.getLast?_like_concat, Path.parts_like_concat root hparts,
    List.map_append, List.map_map, glob_append, List.mem_flatMap]
  simp only [Function.comp_def, hstart, List.nil_append, exists_eq_left]
  by_cases hnil : pattern = ""
  · subst hnil
    have hnone : t.hasFile (Path.parts root) = false := by rw [hasFile, hdirectory]
    have hparts : Path.parts "" = [] := rfl
    simp only [hparts, List.map_nil, glob, List.mem_singleton]
    refine iff_of_false (fun h => h.1 (.inl trivial)) ?_
    rintro ⟨-, rfl, hfile⟩
    simp [hnone] at hfile
  · simp [hnil]

/-- A pattern leads from a directory where it leads behind the escaped path of the directory,
whatever the names of the path are. -/
theorem Grounded.mem_filesMatching (hg : t.Grounded) {root x : String}
    (hroot : Path.IsNormal root) (hdirectory : t.lookup (Path.parts root) = some .directory)
    (pattern : List Char) :
    x ∈ t.filesMatching root pattern ↔
      x ∈ t.globFiles (isRecursive pattern)
        (Path.join (Path.escape root) (String.ofList pattern)) := by
  by_cases hhead : pattern.head? = some '/'
  · rw [filesMatching_eq, if_pos hhead, Path.join, if_pos (by simpa using hhead)]
  · have hhead' : (String.ofList pattern).toList.head? ≠ some '/' := by simpa using hhead
    have hparts := hroot.isPart_of_mem_escape
    have hwhole : Path.join (Path.escape root) (String.ofList pattern) =
        Path.like root ((Path.parts root).map Path.escape ++ [String.ofList pattern]) := by
      rw [← Path.join_like root hparts hhead', ← Path.escape_like, ← hroot.eq]
    rw [mem_filesMatching_of_relative hhead, globFiles, List.mem_map, hwhole]
    simp only [hg.mem_globFrom_escape hroot hdirectory _ hhead',
      Path.like_congr (Path.isDoubled_like_concat root hparts hhead'), eq_comm]

end FileTree

end Soundworks
