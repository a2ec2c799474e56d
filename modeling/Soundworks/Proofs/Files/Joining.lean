import Soundworks.Proofs.Files.Below
/-!
Names joined to a directory as it is given. Whatever the directory is, empty, relative or behind a
tilde, a name that is joined to it leads to this name in the absolute form of the directory.
-/

namespace Soundworks

namespace Path

variable {n p : String}

theorem IsPart.head_ne (h : IsPart n) : n.toList.head? ≠ some '/' :=
  fun hhead => h.2 (List.mem_of_head? hhead)

/-! ### What a name is put behind -/

/-- A path with a slash at its end, unless it is empty. -/
def opened (p : String) : String :=
  if p = "" ∨ p.toList.getLast? = some '/' then p else p ++ "/"

theorem opened_of_slash (h : ∃ front, p.toList = front ++ ['/']) : opened p = p := by
  obtain ⟨front, h⟩ := h
  rw [opened, if_pos (.inr (by rw [h, List.getLast?_concat]))]

theorem toList_opened_of_ne {front : List Char} {c : Char} (h : p.toList = front ++ [c])
    (hc : c ≠ '/') : (opened p).toList = front ++ [c, '/'] := by
  have hne : p ≠ "" := by
    rintro rfl
    simp at h
  have hlast : p.toList.getLast? ≠ some '/' := by
    rw [h, List.getLast?_concat]
    simpa using hc
  rw [opened, if_neg (not_or.mpr ⟨hne, hlast⟩), String.toList_append, h]
  simp

/-- A path is empty, or it ends in a slash, or in another character. -/
theorem opened_cases (p : String) :
    p = "" ∨ (∃ front, p.toList = front ++ ['/']) ∨
      ∃ front c, p.toList = front ++ [c] ∧ c ≠ '/' := by
  rcases List.eq_nil_or_concat' p.toList with hnil | ⟨front, c, hcat⟩
  · exact .inl (by simpa using hnil)
  · by_cases hc : c = '/'
    · exact .inr (.inl ⟨front, hc ▸ hcat⟩)
    · exact .inr (.inr ⟨front, c, hcat, hc⟩)

theorem opened_append (p : String) {q : String} (hq : q ≠ "") :
    opened (p ++ q) = p ++ opened q := by
  have hlist : q.toList ≠ [] := by simpa using hq
  have hlast : (p ++ q).toList.getLast? = q.toList.getLast? := by
    rw [String.toList_append, List.getLast?_append_of_ne_nil _ hlist]
  have hne : p ++ q ≠ "" := by
    rw [Ne, ← String.toList_inj, String.toList_append]
    simp [hq]
  simp only [opened, hlast, hne, hq, false_or]
  split
  · rfl
  · rw [String.append_assoc]

theorem opened_opened (p : String) : opened (opened p) = opened p := by
  rcases opened_cases p with rfl | ⟨front, h⟩ | ⟨front, c, h, hc⟩
  · rfl
  · rw [opened_of_slash ⟨front, h⟩, opened_of_slash ⟨front, h⟩]
  · exact opened_of_slash ⟨front ++ [c], by rw [toList_opened_of_ne h hc]; simp⟩

theorem join_eq_opened (p : String) (hn : n.toList.head? ≠ some '/') :
    join p n = opened p ++ n := by
  rw [join, if_neg hn, opened]
  split <;> rfl

theorem head?_opened_append (hp : p ≠ "") (rest : String) :
    (opened p ++ rest).toList.head? = p.toList.head? := by
  have hlist : p.toList ≠ [] := by simpa using hp
  obtain ⟨c, cs, hc⟩ := List.exists_cons_of_ne_nil hlist
  rw [opened]
  split <;> simp [hc]

theorem join_throughLast_name (p : String) :
    join (String.ofList (Text.throughLast '/' p.toList)) (name p) = p := by
  have hname : (name p).toList.head? ≠ some '/' :=
    fun hhead => slash_not_mem_name p (List.mem_of_head? hhead)
  have hopened : opened (String.ofList (Text.throughLast '/' p.toList)) =
      String.ofList (Text.throughLast '/' p.toList) := by
    by_cases hmem : '/' ∈ p.toList
    · obtain ⟨front, hfront⟩ := Text.exists_throughLast hmem
      exact opened_of_slash ⟨front, String.toList_ofList.trans hfront⟩
    · have hparts := Text.throughLast_append_afterLast '/' p.toList
      rw [Text.afterLast_of_not_mem hmem, List.append_left_eq_self] at hparts
      rw [hparts]
      rfl
  rw [join_eq_opened _ hname, hopened]
  apply String.toList_inj.mp
  rw [String.toList_append, String.toList_ofList, toList_name, Text.throughLast_append_afterLast]

/-! ### Names joined twice -/

/-- A name is joined to a path before or after the path is read from a directory. -/
theorem join_join (directory p : String) (hn : n.toList.head? ≠ some '/') :
    join directory (join p n) = join (join directory p) n := by
  rw [join_eq_opened p hn, join_eq_opened _ hn]
  by_cases hp : p = ""
  · subst hp
    have hempty : join directory "" = opened directory :=
      (join_eq_opened directory (by simp)).trans (String.append_empty ..)
    rw [hempty, opened_opened]
    exact join_eq_opened directory hn
  · have hhead := head?_opened_append hp n
    by_cases hslash : p.toList.head? = some '/'
    · rw [join, if_pos (hhead.trans hslash), join, if_pos hslash]
    · rw [join_eq_opened directory (hhead ▸ hslash), join_eq_opened directory hslash,
        opened_append _ hp, String.append_assoc]

theorem parts_join (p : String) (h : IsPart n) : parts (join p n) = parts p ++ [n] := by
  have hne : n.toList ≠ [] := by simpa using h.1
  have hafter : ∀ front, parts (String.ofList (front ++ '/' :: n.toList)) =
      parts (String.ofList front) ++ [n] := by
    intro front
    rw [parts_append_slash front h.2, if_neg hne, String.ofList_toList]
  rw [join_eq_opened p h.head_ne]
  rcases opened_cases p with rfl | ⟨front, hp⟩ | ⟨front, c, hp, hc⟩
  · simp [opened, parts, Text.splitAt_of_not_mem h.2, Text.splitAt, hne]
  · have hjoin : opened p ++ n = String.ofList (front ++ '/' :: n.toList) := by
      apply String.toList_inj.mp
      rw [opened_of_slash ⟨front, hp⟩, String.toList_append, hp, String.toList_ofList]
      simp
    have hfront : parts p = parts (String.ofList front) := by
      rw [← String.ofList_toList (s := p), hp, parts_append_slash front List.not_mem_nil]
      simp
    rw [hjoin, hafter, hfront]
  · have hjoin : opened p ++ n = String.ofList (p.toList ++ '/' :: n.toList) := by
      apply String.toList_inj.mp
      rw [String.toList_append, toList_opened_of_ne hp hc, hp, String.toList_ofList]
      simp
    rw [hjoin, hafter, String.ofList_toList]

/-- Slashes at the start of a text are before everything that does not start with a slash. -/
theorem replicate_slash_prefix {k : Nat} {front rest : List Char}
    (h : rest.head? ≠ some '/') :
    List.replicate k '/' <+: front ++ rest ↔ List.replicate k '/' <+: front := by
  induction front generalizing k with
  | nil =>
      cases k with
      | zero => simp
      | succ k =>
          cases rest with
          | nil => simp
          | cons c rest =>
              have hc : '/' ≠ c := by
                rintro rfl
                exact h rfl
              simp [List.replicate_succ, hc]
  | cons c front ih =>
      cases k with
      | zero => simp
      | succ k => simp [List.replicate_succ, ih]

theorem isDoubled_congr {p q : String} (front rest : List Char) {rest' : List Char}
    (hp : p.toList = front ++ rest) (hrest : rest.head? ≠ some '/')
    (hq : q.toList = front ++ rest') (hrest' : rest'.head? ≠ some '/') :
    isDoubled p = isDoubled q := by
  have hsame : ∀ k, List.replicate k '/' <+: p.toList ↔ List.replicate k '/' <+: q.toList := by
    intro k
    rw [hp, hq, replicate_slash_prefix hrest, replicate_slash_prefix hrest']
  rw [Bool.eq_iff_iff, isDoubled_iff, isDoubled_iff]
  exact and_congr (hsame 2) (not_congr (hsame 3))

/-- A name that is joined to a path adds no slash at the start. -/
theorem isDoubled_join (p : String) (h : IsPart n) : isDoubled (join p n) = isDoubled p := by
  rw [join_eq_opened p h.head_ne]
  rcases opened_cases p with rfl | ⟨front, hp⟩ | ⟨front, c, hp, hc⟩
  · exact isDoubled_congr [] n.toList (by simp [opened]) h.head_ne rfl (by simp)
  · refine isDoubled_congr p.toList n.toList ?_ h.head_ne (List.append_nil _).symm (by simp)
    rw [String.toList_append, opened_of_slash ⟨front, hp⟩]
  · refine isDoubled_congr front (c :: '/' :: n.toList) ?_ (by simpa) hp (by simpa)
    rw [String.toList_append, toList_opened_of_ne hp hc]
    simp

/-! ### The home directory -/

/-- A path that starts with a tilde which stands for the home directory. -/
def AtHome (p : String) : Prop :=
  ∃ rest : String, p = "~" ++ rest ∧ (rest = "" ∨ rest.toList.head? = some '/')

/-- A path has no other start when something is put behind it, unless it is empty. -/
theorem AtHome.of_append {tail : String} (hp : p ≠ "") (h : AtHome (p ++ tail)) : AtHome p := by
  obtain ⟨rest, heq, hrest⟩ := h
  have hlist : p.toList ≠ [] := by simpa using hp
  obtain ⟨c, cs, hc⟩ := List.exists_cons_of_ne_nil hlist
  have hsplit := congrArg String.toList heq
  simp only [String.toList_append, hc, List.cons_append, show "~".toList = ['~'] from rfl,
    List.nil_append, List.cons.injEq] at hsplit
  obtain ⟨rfl, hbehind⟩ := hsplit
  refine ⟨String.ofList cs, by apply String.toList_inj.mp; simp [hc], ?_⟩
  cases cs with
  | nil => exact .inl rfl
  | cons d cs =>
      rcases hrest with rfl | hhead
      · simp at hbehind
      · rw [← hbehind] at hhead
        exact .inr (by simpa using hhead)

theorem IsPart.not_atHome (h : IsPart n) (htilde : n ≠ "~") : ¬AtHome n := by
  rintro ⟨rest, rfl, rfl | hhead⟩
  · exact htilde rfl
  · exact h.2 (by simp [List.mem_of_head? hhead])

theorem expandHome_of_not_atHome (home : String) (h : ¬AtHome p) : expandHome home p = p := by
  unfold expandHome
  split
  · rename_i rest hrest
    refine if_neg fun hhead => h ⟨String.ofList rest, ?_, by simpa using hhead⟩
    apply String.toList_inj.mp
    simp [hrest]
  · rfl

/-- What is behind a tilde and a slash is behind the home directory. -/
theorem expandHome_tilde_append (home : String) {rest : String}
    (h : rest.toList.head? = some '/') :
    expandHome home ("~" ++ rest) =
      String.ofList (home.toList.rdropWhile (· = '/')) ++ rest := by
  have hne : rest.toList ≠ [] := by
    intro hnil
    simp [hnil] at h
  have hlist : ("~" ++ rest).toList = '~' :: rest.toList := by simp
  apply String.toList_inj.mp
  unfold expandHome
  rw [hlist]
  simp [h, hne, List.rdropWhile]

theorem opened_expandHome_tilde (home : String) {rest : String}
    (h : rest = "" ∨ rest.toList.head? = some '/') :
    ∃ rest' : String, rest'.toList.head? = some '/' ∧ opened ("~" ++ rest) = "~" ++ rest' ∧
      opened (expandHome home ("~" ++ rest)) =
        String.ofList (home.toList.rdropWhile (· = '/')) ++ rest' := by
  by_cases hrest : rest = ""
  · subst hrest
    refine ⟨"/", rfl, rfl, ?_⟩
    have hhome : expandHome home "~" =
        if home.toList.rdropWhile (· = '/') = [] then "/"
        else String.ofList (home.toList.rdropWhile (· = '/')) := by
      simp [expandHome, List.rdropWhile]
    rw [String.append_empty, hhome]
    rcases List.eq_nil_or_concat' (home.toList.rdropWhile (· = '/')) with hnil | ⟨front, c, hcat⟩
    · rw [if_pos hnil, hnil]
      rfl
    · have hc : c ≠ '/' := by
        have hlast := List.rdropWhile_last_not (· = '/') home.toList (by simp [hcat])
        simpa [hcat] using hlast
      apply String.toList_inj.mp
      rw [if_neg (by simp [hcat]), hcat, toList_opened_of_ne String.toList_ofList hc]
      simp
  · have hhead := h.resolve_left hrest
    refine ⟨opened rest, ?_, opened_append "~" hrest, ?_⟩
    · simpa using (head?_opened_append hrest "").trans hhead
    · rw [expandHome_tilde_append home hhead, opened_append _ hrest]

theorem expandHome_join (home directory : String) (h : IsPart n) (htilde : n ≠ "~") :
    expandHome home (join directory n) = join (expandHome home directory) n := by
  rw [join_eq_opened directory h.head_ne, join_eq_opened _ h.head_ne]
  by_cases hhome : AtHome directory
  · obtain ⟨rest, rfl, hrest⟩ := hhome
    obtain ⟨rest', hhead, hopened, hexpanded⟩ := opened_expandHome_tilde home hrest
    have hbehind : (rest' ++ n).toList.head? = some '/' := by simp [hhead]
    rw [hopened, hexpanded, String.append_assoc, expandHome_tilde_append home hbehind,
      String.append_assoc]
  · rw [expandHome_of_not_atHome home hhome]
    refine expandHome_of_not_atHome home fun hjoin => ?_
    by_cases hempty : directory = ""
    · rw [hempty, opened, if_pos (.inl rfl), String.empty_append] at hjoin
      exact h.not_atHome htilde hjoin
    · rw [opened] at hjoin
      split at hjoin
      · exact hhome (hjoin.of_append hempty)
      · rw [String.append_assoc] at hjoin
        exact hhome (hjoin.of_append hempty)

end Path

/-- What a name leads to in a directory. -/
theorem Workplace.resolve_join (w : Workplace) (directory : String) {n : String}
    (hn : Path.IsName n) (htilde : n ≠ "~") :
    w.resolve (Path.join directory n) =
      Path.like (w.resolve directory) (Path.parts (w.resolve directory) ++ [n]) := by
  have hwhole : Path.join w.directory (Path.expandHome w.home (Path.join directory n)) =
      Path.join (Path.join w.directory (Path.expandHome w.home directory)) n := by
    rw [Path.expandHome_join _ _ hn.1 htilde, Path.join_join _ _ hn.1.head_ne]
  have hnames : ∀ s ∈ Path.collapse
      (Path.parts (Path.join w.directory (Path.expandHome w.home directory))), Path.IsPart s :=
    fun _ hs => (Path.isName_of_mem_collapse hs).1
  rw [w.resolve_eq_like (Path.join directory n), hwhole, Path.parts_join _ hn.1,
    Path.collapse_append_name _ hn, w.resolve_eq_like directory, Path.parts_like _ hnames]
  refine Path.like_congr ?_ _
  rw [Path.isDoubled_join _ hn.1, Path.isDoubled_like _ hnames]

end Soundworks
