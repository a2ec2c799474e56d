import Soundworks.Media.Discovery
import Soundworks.Proofs.Files.Parent
/-!
The names of outputs. A name is cut into its stem and its extension, and a suffix goes between
them. The name can be told from what comes of it, whatever the suffix is; if the extension is
replaced, only the stem can be told. Different names in a directory are different places.
-/

namespace Soundworks

namespace Path

/-! ### Stems and extensions -/

/-- A name has no extension, or it is cut at its last dot, and the stem is not made of dots. -/
theorem splitName_cases (cs : List Char) :
    splitName cs = (cs, []) ∧ '.' ∉ cs.dropWhile (· = '.') ∨
      ∃ stem ext, splitName cs = (stem, '.' :: ext) ∧ cs = stem ++ '.' :: ext ∧ '.' ∉ ext ∧
        ∃ c ∈ stem, c ≠ '.' := by
  unfold splitName
  dsimp only
  split
  · rename_i hdot
    obtain ⟨front, hfront⟩ := Text.exists_throughLast hdot
    have hbody := Text.throughLast_append_afterLast '.' (cs.dropWhile (· = '.'))
    rw [hfront, List.append_assoc, List.singleton_append] at hbody
    refine .inr ⟨_, _, rfl, ?_, Text.sep_not_mem_afterLast _ _, ?_⟩
    · rw [hfront, List.dropLast_concat, List.append_assoc, hbody, List.takeWhile_append_dropWhile]
    · rw [hfront, List.dropLast_concat]
      -- what is left of the name without its first dots starts with another character
      have hhead := List.head?_dropWhile_not (· = '.') cs
      rw [← hbody] at hhead
      cases front with
      | nil => simp at hhead
      | cons c front => exact ⟨c, by simp, by simpa using hhead⟩
  · rename_i hdot
    exact .inl ⟨rfl, hdot⟩

theorem splitName_append (cs : List Char) : (splitName cs).1 ++ (splitName cs).2 = cs := by
  rcases splitName_cases cs with ⟨heq, -⟩ | ⟨stem, ext, heq, hcs, -⟩
  · rw [heq, List.append_nil]
  · rw [heq, hcs]

/-- A text after a name without an extension is not the same text between a stem and an
extension. -/
theorem insert_ne {stem ext cs : List Char} (hstem : ∃ c ∈ stem, c ≠ '.')
    (hcs : '.' ∉ cs.dropWhile (· = '.')) (mid : List Char) :
    stem ++ mid ++ '.' :: ext ≠ cs ++ mid := by
  intro h
  have hlen := congrArg List.length h
  have hcount := congrArg (List.count '.') h
  simp only [List.length_append, List.length_cons, List.count_append, List.count_cons_self]
    at hlen hcount
  have hpre : stem <+: cs := by
    refine List.prefix_of_prefix_length_le ⟨mid ++ '.' :: ext, ?_⟩ (List.prefix_append cs mid)
      (by omega)
    rw [← h, List.append_assoc]
  obtain ⟨rest, rfl⟩ := hpre
  -- the name has as many dots as the stem and the extension, so one comes after the stem
  rw [List.count_append] at hcount
  have hdot : '.' ∈ rest := List.count_pos_iff.mp (by omega)
  rw [List.dropWhile_append, if_neg (by simpa using hstem)] at hcs
  exact hcs (List.mem_append_right _ hdot)

/-- A text between the stem and the extension of a name does not hide the name. -/
theorem eq_of_insert {cs ds : List Char} (mid : List Char)
    (h : (splitName cs).1 ++ mid ++ (splitName cs).2 =
      (splitName ds).1 ++ mid ++ (splitName ds).2) : cs = ds := by
  rcases splitName_cases cs with ⟨heq, hcs⟩ | ⟨stem, ext, heq, hcs, hext, hstem⟩ <;>
    rcases splitName_cases ds with ⟨heq', hds⟩ | ⟨stem', ext', heq', hds, hext', hstem'⟩ <;>
    simp only [heq, heq', List.append_nil] at h
  · exact List.append_cancel_right h
  · exact absurd h.symm (insert_ne hstem' hcs mid)
  · exact absurd h (insert_ne hstem hds mid)
  · obtain ⟨hfront, rfl⟩ := Text.append_cons_inj hext hext' h
    rw [hcs, hds, List.append_cancel_right hfront]

variable {p q : String}

theorem toList_name (p : String) : (name p).toList = Text.afterLast '/' p.toList :=
  String.toList_ofList

theorem stem_append_extension (p : String) : stem p ++ extension p = name p := by
  apply String.toList_inj.mp
  rw [String.toList_append, stem, extension, String.toList_ofList, String.toList_ofList,
    splitName_append, toList_name]

theorem stem_eq_of_name_eq (h : name p = name q) : stem p = stem q := by
  rw [stem, stem, ← toList_name, h, toList_name]

theorem extension_eq_of_name_eq (h : name p = name q) : extension p = extension q := by
  rw [extension, extension, ← toList_name, h, toList_name]

/-- Names that differ are told apart from their stems and extensions, whatever is between them. -/
theorem name_eq_of_insert {mid : String}
    (h : stem p ++ mid ++ extension p = stem q ++ mid ++ extension q) : name p = name q := by
  have hlist := congrArg String.toList h
  simp only [String.toList_append, stem, extension, String.toList_ofList] at hlist
  rw [name, name, eq_of_insert mid.toList hlist]

theorem slash_not_mem_name (p : String) : '/' ∉ (name p).toList := by
  rw [toList_name]
  exact Text.sep_not_mem_afterLast '/' p.toList

theorem slash_not_mem_stem_extension (p : String) :
    '/' ∉ (stem p).toList ∧ '/' ∉ (extension p).toList := by
  have h := slash_not_mem_name p
  rwa [← stem_append_extension, String.toList_append, List.mem_append, not_or] at h

theorem IsName.append {s rest : String} (h : IsName s) (hrest : '/' ∉ rest.toList) :
    IsName (s ++ rest) := by
  obtain ⟨⟨hne, hslash⟩, hdot, hdots⟩ := h
  simp only [Ne, ← String.toList_inj] at hne hdot hdots
  refine ⟨⟨?_, ?_⟩, ?_, ?_⟩
  · rw [Ne, ← String.toList_inj, String.toList_append]
    exact fun hnil => hne (List.append_eq_nil_iff.mp hnil).1
  · rw [String.toList_append, List.mem_append, not_or]
    exact ⟨hslash, hrest⟩
  · rw [Ne, ← String.toList_inj, String.toList_append]
    generalize s.toList = cs at *
    rcases cs with _ | ⟨a, _ | ⟨b, cs⟩⟩ <;> simp_all
  · rw [Ne, ← String.toList_inj, String.toList_append]
    generalize s.toList = cs at *
    rcases cs with _ | ⟨a, _ | ⟨b, _ | ⟨c, cs⟩⟩⟩ <;> simp_all

/-- A text without slashes that is not made of dots is a name. -/
theorem isName_of_mem {s : String} (hslash : '/' ∉ s.toList) {c : Char} (hc : c ∈ s.toList)
    (hdot : c ≠ '.') : IsName s := by
  refine ⟨⟨?_, hslash⟩, ?_, ?_⟩
  · rintro rfl
    exact absurd hc (by simp)
  · rintro rfl
    exact hdot (by simpa using hc)
  · rintro rfl
    exact hdot (by simpa using hc)

theorem isName_stem (h : IsName (name p)) : IsName (stem p) := by
  rcases splitName_cases (Text.afterLast '/' p.toList) with
    ⟨heq, -⟩ | ⟨front, ext, heq, -, -, c, hc, hdot⟩
  · rw [stem, heq]
    exact h
  · have hmem : c ∈ (stem p).toList := by
      rw [stem, heq, String.toList_ofList]
      exact hc
    exact isName_of_mem (slash_not_mem_stem_extension p).1 hmem hdot

/-! ### Names in a directory -/

theorem IsName.head_ne {s : String} (h : IsName s) : s.toList.head? ≠ some '/' :=
  fun hhead => h.1.2 (List.mem_of_head? hhead)

/-- Different relative paths are different below a directory. -/
theorem join_inj (directory : String) {p q : String} (hp : p.toList.head? ≠ some '/')
    (hq : q.toList.head? ≠ some '/') : join directory p = join directory q ↔ p = q := by
  unfold join
  rw [if_neg hp, if_neg hq]
  split <;> simp

/-- A name is behind a slash below a directory. -/
theorem exists_join_eq {directory : String} (h : directory ≠ "") :
    ∃ front, ∀ n, IsName n → join directory n = String.ofList (front ++ '/' :: n.toList) := by
  by_cases hlast : directory.toList.getLast? = some '/'
  · obtain ⟨front, hfront⟩ := List.getLast?_eq_some_iff.mp hlast
    refine ⟨front, fun n hn => ?_⟩
    rw [join, if_neg hn.head_ne, if_pos (.inr hlast)]
    apply String.toList_inj.mp
    simp [hfront]
  · refine ⟨directory.toList, fun n hn => ?_⟩
    rw [join, if_neg hn.head_ne, if_neg (not_or.mpr ⟨h, hlast⟩)]
    apply String.toList_inj.mp
    simp

theorem head?_append_slash (front rest : List Char) :
    (front ++ '/' :: rest).head? = some (front.head?.getD '/') := by
  cases front <;> simp

/-- What is behind a slash stays there when a path is read from a directory. -/
theorem exists_join_slash_eq (directory : String) (front : List Char) :
    ∃ front', ∀ rest, join directory (String.ofList (front ++ '/' :: rest)) =
      String.ofList (front' ++ '/' :: rest) := by
  have hhead : ∀ rest, (String.ofList (front ++ '/' :: rest)).toList.head? =
      some (front.head?.getD '/') := by
    intro rest
    rw [String.toList_ofList, head?_append_slash]
  by_cases hslash : front.head?.getD '/' = '/'
  · exact ⟨front, fun rest => by rw [join, if_pos (by rw [hhead, hslash])]⟩
  · by_cases hdirectory : directory = "" ∨ directory.toList.getLast? = some '/'
    · refine ⟨directory.toList ++ front, fun rest => ?_⟩
      rw [join, if_neg (by rw [hhead]; simpa using hslash), if_pos hdirectory]
      simp [String.ofList_append]
    · refine ⟨directory.toList ++ '/' :: front, fun rest => ?_⟩
      rw [join, if_neg (by rw [hhead]; simpa using hslash), if_neg hdirectory]
      apply String.toList_inj.mp
      simp

/-- What is behind a slash stays there when a tilde is replaced. -/
theorem exists_expandHome_slash_eq (home : String) (front : List Char) :
    ∃ front', ∀ rest, expandHome home (String.ofList (front ++ '/' :: rest)) =
      String.ofList (front' ++ '/' :: rest) := by
  rcases front with _ | ⟨c, front⟩
  · exact ⟨[], fun rest => by simp [expandHome]⟩
  · by_cases hc : c = '~' ∧ front.head?.getD '/' = '/'
    · obtain ⟨rfl, hhead⟩ := hc
      refine ⟨(home.toList.reverse.dropWhile (· = '/')).reverse ++ front, fun rest => ?_⟩
      simp [expandHome, hhead]
    · refine ⟨c :: front, fun rest => ?_⟩
      unfold expandHome
      split
      · rename_i tail hsplit
        obtain ⟨rfl, rfl⟩ : c = '~' ∧ front ++ '/' :: rest = tail := by simpa using hsplit
        rw [if_neg]
        simpa [head?_append_slash] using hc
      · rfl

/-- Names stay at the end when steps are taken out. -/
theorem collapse_append_name (ps : List String) {n : String} (hn : IsName n) :
    collapse (ps ++ [n]) = collapse ps ++ [n] := by
  rw [collapse, List.foldl_append, List.foldl_cons, List.foldl_nil, descend, if_neg hn.2.1,
    if_neg hn.2.2, List.reverse_cons, ← collapse]

end Path

/-- Below a directory, each name is the last part of the place that it leads to. -/
theorem Workplace.exists_parts_resolve_join (w : Workplace) {directory : String}
    (h : directory ≠ "") :
    ∃ above, ∀ n, Path.IsName n →
      Path.parts (w.resolve (Path.join directory n)) = above ++ [n] := by
  obtain ⟨front, hjoin⟩ := Path.exists_join_eq h
  obtain ⟨front', hhome⟩ := Path.exists_expandHome_slash_eq w.home front
  obtain ⟨front'', hwhole⟩ := Path.exists_join_slash_eq w.directory front'
  refine ⟨Path.collapse (Path.parts (String.ofList front'')), fun n hn => ?_⟩
  have hne : n.toList ≠ [] := by simpa using hn.1.1
  rw [resolve, hjoin n hn, hhome, Path.parts_absolute, hwhole,
    Path.parts_append_slash front'' hn.1.2, if_neg hne, String.ofList_toList,
    Path.collapse_append_name _ hn]

/-- Different names in a directory are different places. -/
theorem Workplace.parts_resolve_join_inj (w : Workplace) {directory : String}
    (h : directory ≠ "") {m n : String} (hm : Path.IsName m) (hn : Path.IsName n) :
    Path.parts (w.resolve (Path.join directory m)) =
      Path.parts (w.resolve (Path.join directory n)) ↔ m = n := by
  obtain ⟨above, hparts⟩ := w.exists_parts_resolve_join h
  rw [hparts m hm, hparts n hn]
  simp

/-! ### The outputs of inputs -/

def derivedName (inputPath suffix : String) (extension : Option String) : String :=
  Path.stem inputPath ++ suffix ++
    (extension.filter (· ≠ "")).elim (Path.extension inputPath) fun e =>
      String.ofList ('.' :: e.toList.dropWhile (· = '.'))

theorem derivedOutput_eq (inputPath directory suffix : String) (extension : Option String) :
    derivedOutput inputPath directory suffix extension =
      Path.join directory (derivedName inputPath suffix extension) := rfl

/-- Two inputs have the same name, or the same stem and their outputs are given an extension. -/
def Namesakes (extension : Option String) (p q : String) : Prop :=
  Path.name p = Path.name q ∨ extension.filter (· ≠ "") ≠ none ∧ Path.stem p = Path.stem q

instance (extension : Option String) (p q : String) : Decidable (Namesakes extension p q) :=
  inferInstanceAs (Decidable (_ ∨ _))

section

variable {p q suffix : String} {extension : Option String}

/-- Whatever the suffix is, outputs have the same name exactly when the inputs are namesakes. -/
theorem derivedName_eq_iff :
    derivedName p suffix extension = derivedName q suffix extension ↔
      Namesakes extension p q := by
  unfold derivedName Namesakes
  cases extension.filter (· ≠ "") with
  | none =>
      simp only [Option.elim_none, ne_eq, not_true, false_and, or_false]
      refine ⟨Path.name_eq_of_insert, fun h => ?_⟩
      rw [Path.stem_eq_of_name_eq h, Path.extension_eq_of_name_eq h]
  | some e =>
      simp only [Option.elim_some, ne_eq, reduceCtorEq, not_false_iff, true_and]
      rw [String.append_left_inj, String.append_left_inj]
      exact ⟨.inr, fun h => h.elim Path.stem_eq_of_name_eq id⟩

/-- The name of an output starts like the name of its input, and not with a slash. -/
theorem head_derivedName (h : Path.IsName (Path.name p)) :
    (derivedName p suffix extension).toList.head? ≠ some '/' := by
  have hstem := Path.isName_stem h
  have hne : (Path.stem p).toList ≠ [] := by simpa using hstem.1.1
  rw [derivedName, String.append_assoc, String.toList_append, List.head?_append_of_ne_nil _ hne]
  exact hstem.head_ne

/-- If no slash is added, the name of an output is a proper name. -/
theorem isName_derivedName (h : Path.IsName (Path.name p)) (hsuffix : '/' ∉ suffix.toList)
    (hextension : ∀ e ∈ extension, '/' ∉ e.toList) :
    Path.IsName (derivedName p suffix extension) := by
  refine ((Path.isName_stem h).append hsuffix).append ?_
  cases he : extension.filter (· ≠ "") with
  | none => exact (Path.slash_not_mem_stem_extension p).2
  | some e =>
      have hslash := hextension e (Option.filter_eq_some_iff.mp he).1
      simp only [Option.elim_some, String.toList_ofList, List.mem_cons, not_or]
      exact ⟨by decide, fun hmem => hslash ((List.dropWhile_sublist _).mem hmem)⟩

/-- Two outputs in a directory have the same path exactly when their inputs are namesakes. -/
theorem derivedOutput_eq_iff (directory : String) (hp : Path.IsName (Path.name p))
    (hq : Path.IsName (Path.name q)) :
    derivedOutput p directory suffix extension = derivedOutput q directory suffix extension ↔
      Namesakes extension p q := by
  rw [derivedOutput_eq, derivedOutput_eq,
    Path.join_inj directory (head_derivedName hp) (head_derivedName hq), derivedName_eq_iff]

/-- If no slash is added, outputs of others than namesakes are at different places. -/
theorem Workplace.parts_derivedOutput_eq_iff (w : Workplace) {directory : String}
    (h : directory ≠ "") (hp : Path.IsName (Path.name p)) (hq : Path.IsName (Path.name q))
    (hsuffix : '/' ∉ suffix.toList) (hextension : ∀ e ∈ extension, '/' ∉ e.toList) :
    Path.parts (w.resolve (derivedOutput p directory suffix extension)) =
        Path.parts (w.resolve (derivedOutput q directory suffix extension)) ↔
      Namesakes extension p q := by
  rw [derivedOutput_eq, derivedOutput_eq,
    w.parts_resolve_join_inj h (isName_derivedName hp hsuffix hextension)
      (isName_derivedName hq hsuffix hextension), derivedName_eq_iff]

end

end Soundworks
