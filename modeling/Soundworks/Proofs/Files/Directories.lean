import Soundworks.Proofs.Files.Parent
import Soundworks.Proofs.Files.Tree
/-!
What making directories depends on, and what it leaves alone. Only what stands at the path and
above it counts, nothing else is touched, and doing it once more changes nothing. What an absolute
path leads to depends on the same places.
-/

namespace Soundworks

namespace FileTree

variable {t t' : FileTree} {r : Rights}

/-! ### What an absolute path leads to -/

/-- Names are followed as long as each one is looked for in a directory. -/
theorem walk_eq_some_iff (here : List String) {rest : List String}
    (hnames : ∀ s ∈ rest, Path.IsName s) {path : List String} :
    t.walk here rest = some path ↔ path = here ++ rest ∧
      ∀ front back, rest = front ++ back → back ≠ [] →
        t.lookup (here ++ front) = some .directory := by
  induction rest generalizing here with
  | nil =>
      simp only [walk, Option.some.injEq, List.append_nil]
      constructor
      · rintro rfl
        refine ⟨rfl, fun front back h hback => ?_⟩
        exact absurd (List.append_eq_nil_iff.mp h.symm).2 hback
      · exact fun h => h.1.symm
  | cons s rest ih =>
      obtain ⟨-, hdot, hdots⟩ := hnames s List.mem_cons_self
      have ih := ih (here ++ [s]) fun s hs => hnames s (List.mem_cons_of_mem _ hs)
      rw [List.append_assoc, List.singleton_append] at ih
      by_cases hhere : t.lookup here = some .directory
      · rw [walk, if_neg (not_not_intro hhere), if_neg hdot, if_neg hdots, ih]
        refine and_congr (by simp) ⟨fun h front back heq hback => ?_, fun h front back heq => ?_⟩
        · cases front with
          | nil => simpa using hhere
          | cons s' front =>
              obtain ⟨rfl, hrest⟩ := List.cons_eq_cons.mp heq
              simpa using h front back hrest hback
        · have hback := h (s :: front) back (by rw [heq, List.cons_append])
          simpa using hback
      · rw [walk, if_pos hhere]
        constructor
        · intro h
          cases h
        · exact fun h => absurd (by simpa using h.2 [] (s :: rest) rfl (by simp)) hhere

/-- An absolute path leads to something if something stands there and all above are
directories. -/
theorem present_iff {path : String} (hp : Path.IsAbsolute path) (directory : String) :
    t.present directory path = true ↔ (∃ e, t.lookup (Path.parts path) = some e) ∧
      ∀ front back, Path.parts path = front ++ back → back ≠ [] →
        t.lookup front = some .directory := by
  have hwalk : ∀ q, t.walk [] (Path.parts path) = some q ↔ q = Path.parts path ∧
      ∀ front back, Path.parts path = front ++ back → back ≠ [] →
        t.lookup front = some .directory := by
    intro q
    simpa using walk_eq_some_iff (t := t) [] hp.names
  have hne : path ≠ "" := by
    rintro rfl
    cases hp.head
  constructor
  · intro h
    unfold present resolve at h
    rw [hp.join_eq] at h
    cases hw : t.walk [] (Path.parts path) with
    | none => simp [hw] at h
    | some q =>
        obtain ⟨rfl, habove⟩ := (hwalk q).mp hw
        refine ⟨?_, habove⟩
        cases hl : t.lookup (Path.parts path) with
        | none => simp [hw, hl] at h
        | some e => exact ⟨e, rfl⟩
  · rintro ⟨⟨e, he⟩, habove⟩
    have hw := (hwalk _).mpr ⟨rfl, habove⟩
    unfold present resolve
    rw [hp.join_eq, hw]
    cases e with
    | directory => simp [he, hne]
    | file text mode =>
        have hparts : Path.parts path ≠ [] := by
          intro hnil
          simp [hnil] at he
        simp [he, hp.last hparts]

theorem isDirectory_parent_of_present {path : String} (hp : Path.IsAbsolute path)
    {directory : String} (h : t.present directory path = true) :
    t.isDirectory (Path.parent path) = true := by
  have habove := ((present_iff hp directory).mp h).2
  have hdir : t.lookup (Path.parts path).dropLast = some .directory := by
    rcases List.eq_nil_or_concat' (Path.parts path) with hnil | ⟨front, s, hparts⟩
    · rw [hnil]
      rfl
    · rw [hparts, List.dropLast_concat]
      exact habove front [s] hparts (by simp)
  simpa [isDirectory, at?, hp.parts_parent] using hdir

/-! ### One directory after the other -/

theorem isDirectory_iff {path : String} :
    t.isDirectory path = true ↔ t.lookup (Path.parts path) = some .directory :=
  decide_eq_true_iff

theorem makeDirectory_eq_ok {path : List String} (h : t.makeDirectory r path = .ok t') :
    path ≠ [] ∧ t' = t.put path .directory := by
  unfold makeDirectory at h
  dsimp only at h
  split at h
  · cases h
  · cases h
  · rename_i hnone _
    split at h
    · cases h
      refine ⟨?_, rfl⟩
      rintro rfl
      simp at hnone
    · cases h

/-- The first missing part of a path: it is there and not the last one, or it cannot be made, or
it is made. -/
theorem makeMissing_cons (t : FileTree) (r : Rights) (above : List String) (part : String)
    (rest : List String) :
    ((rest ≠ [] ∧ (t.lookup (above ++ [part])).isSome = true) ∧
      t.makeMissing r above (part :: rest) = t.makeMissing r (above ++ [part]) rest) ∨
    ¬(rest ≠ [] ∧ (t.lookup (above ++ [part])).isSome = true) ∧
      ((∃ e, t.makeDirectory r (above ++ [part]) = .error e ∧
        t.makeMissing r above (part :: rest) = (some e, t)) ∨
      t.makeDirectory r (above ++ [part]) = .ok (t.put (above ++ [part]) .directory) ∧
        t.makeMissing r above (part :: rest) =
          (t.put (above ++ [part]) .directory).makeMissing r (above ++ [part]) rest) := by
  by_cases hskip : rest ≠ [] ∧ (t.lookup (above ++ [part])).isSome = true
  · exact .inl ⟨hskip, by rw [makeMissing, if_pos hskip]⟩
  · refine .inr ⟨hskip, ?_⟩
    rw [makeMissing, if_neg hskip]
    cases hmake : t.makeDirectory r (above ++ [part]) with
    | error e => exact .inl ⟨e, rfl, rfl⟩
    | ok t₁ =>
        obtain ⟨-, rfl⟩ := makeDirectory_eq_ok hmake
        exact .inr ⟨rfl, rfl⟩

/-! ### What making directories depends on -/

/-- Two trees agree at a path and everywhere above it. -/
def AgreeDown (t t' : FileTree) (path : List String) : Prop :=
  ∀ front, front <+: path → t.lookup front = t'.lookup front

/-- Agreement is kept when the same is put in both trees. -/
theorem lookup_put_congr {path : List String} (hp : path ≠ []) (e : Entry) {q : List String}
    (h : t.lookup q = t'.lookup q) : (t.put path e).lookup q = (t'.put path e).lookup q := by
  rw [lookup_put t hp, lookup_put t' hp, h]

theorem makeDirectory_congr {above : List String} {part : String}
    (habove : t.lookup above = t'.lookup above)
    (h : t.lookup (above ++ [part]) = t'.lookup (above ++ [part])) :
    (∃ e, t.makeDirectory r (above ++ [part]) = .error e ∧
      t'.makeDirectory r (above ++ [part]) = .error e) ∨
    t.makeDirectory r (above ++ [part]) = .ok (t.put (above ++ [part]) .directory) ∧
      t'.makeDirectory r (above ++ [part]) = .ok (t'.put (above ++ [part]) .directory) := by
  have hentry : t.entryError? (Path.ofParts (above ++ [part])) (above ++ [part]) =
      t'.entryError? (Path.ofParts (above ++ [part])) (above ++ [part]) :=
    entryError?_congr _ (by rwa [List.dropLast_concat])
  simp only [makeDirectory, h, hentry]
  split
  · exact .inl ⟨_, rfl, rfl⟩
  · exact .inl ⟨_, rfl, rfl⟩
  · split
    · exact .inr ⟨rfl, rfl⟩
    · exact .inl ⟨_, rfl, rfl⟩

/-- In trees that agree at a path and above it, making its missing directories goes the same way,
and the trees agree afterwards wherever they did before. -/
theorem makeMissing_congr {above rest : List String}
    (h : ∀ front, front <+: rest → t.lookup (above ++ front) = t'.lookup (above ++ front)) :
    (t.makeMissing r above rest).1 = (t'.makeMissing r above rest).1 ∧
      ∀ q, t.lookup q = t'.lookup q →
        (t.makeMissing r above rest).2.lookup q = (t'.makeMissing r above rest).2.lookup q := by
  induction rest generalizing t t' above with
  | nil => exact ⟨rfl, fun q hq => hq⟩
  | cons part rest ih =>
      have habove : t.lookup above = t'.lookup above := by
        simpa using h [] List.nil_prefix
      have hpart : t.lookup (above ++ [part]) = t'.lookup (above ++ [part]) :=
        h [part] (by simp)
      have hbelow : ∀ front, front <+: rest →
          t.lookup (above ++ [part] ++ front) = t'.lookup (above ++ [part] ++ front) := by
        intro front hfront
        simpa using h (part :: front) (by simpa using hfront)
      simp only [makeMissing, hpart]
      split
      · exact ih hbelow
      · rcases makeDirectory_congr habove hpart with ⟨e, he, he'⟩ | ⟨hm, hm'⟩
        · rw [he, he']
          exact ⟨rfl, fun q hq => hq⟩
        · rw [hm, hm']
          have hput : ∀ q, t.lookup q = t'.lookup q →
              (t.put (above ++ [part]) .directory).lookup q =
                (t'.put (above ++ [part]) .directory).lookup q :=
            fun q hq => lookup_put_congr (by simp) _ hq
          obtain ⟨herror, hlookup⟩ := ih fun front hfront => hput _ (hbelow front hfront)
          exact ⟨herror, fun q hq => hlookup q (hput q hq)⟩

theorem makeDirectories_congr {path : String} (h : t.AgreeDown t' (Path.parts path)) :
    (t.makeDirectories r path).1 = (t'.makeDirectories r path).1 ∧
      ∀ q, t.lookup q = t'.lookup q →
        (t.makeDirectories r path).2.lookup q = (t'.makeDirectories r path).2.lookup q := by
  have hdir : t.isDirectory path = true ↔ t'.isDirectory path = true := by
    rw [isDirectory_iff, isDirectory_iff, h _ List.prefix_rfl]
  unfold makeDirectories
  by_cases ht : t.isDirectory path = true
  · rw [if_pos ht, if_pos (hdir.mp ht)]
    exact ⟨rfl, fun q hq => hq⟩
  · rw [if_neg ht, if_neg fun ht' => ht (hdir.mpr ht')]
    exact makeMissing_congr fun front hfront => by simpa using h front hfront

theorem present_congr {path : String} (hp : Path.IsAbsolute path) (directory : String)
    (h : t.AgreeDown t' (Path.parts path)) :
    t.present directory path = t'.present directory path := by
  rw [Bool.eq_iff_iff, present_iff hp, present_iff hp, h _ List.prefix_rfl]
  refine and_congr_right fun _ => forall₂_congr fun front back => forall_congr' fun heq => ?_
  rw [h front (heq ▸ List.prefix_append front back)]

/-! ### What making directories leaves alone -/

/-- Nothing is touched but the path and what is above it. -/
theorem lookup_makeMissing (t : FileTree) (r : Rights) (above rest : List String) {q : List String}
    (hq : ¬q <+: above ++ rest) : (t.makeMissing r above rest).2.lookup q = t.lookup q := by
  induction rest generalizing t above with
  | nil => rfl
  | cons part rest ih =>
      have hq' : ¬q <+: above ++ [part] ++ rest := by simpa using hq
      rcases t.makeMissing_cons r above part rest with ⟨-, heq⟩ | ⟨-, ⟨e, -, heq⟩ | ⟨-, heq⟩⟩
      · rw [heq, ih t _ hq']
      · rw [heq]
      · have hne : q ≠ above ++ [part] := by
          rintro rfl
          exact hq' (List.prefix_append _ _)
        rw [heq, ih _ _ hq', lookup_put t (by simp), if_neg hne]

theorem lookup_makeDirectories (t : FileTree) (r : Rights) (path : String) {q : List String}
    (hq : ¬q <+: Path.parts path) : (t.makeDirectories r path).2.lookup q = t.lookup q := by
  unfold makeDirectories
  split
  · rfl
  · exact lookup_makeMissing t r [] _ (by simpa using hq)

/-! ### Making directories once more -/

/-- If one of the directories cannot be made, nothing is done about the last one. -/
theorem lookup_makeMissing_of_error {above rest : List String} {e : FileError}
    (h : (t.makeMissing r above rest).1 = some e) :
    (t.makeMissing r above rest).2.lookup (above ++ rest) = t.lookup (above ++ rest) := by
  induction rest generalizing t above with
  | nil => rfl
  | cons part rest ih =>
      have hsplit : above ++ part :: rest = above ++ [part] ++ rest := by simp
      rcases t.makeMissing_cons r above part rest with ⟨-, heq⟩ | ⟨-, ⟨e', -, heq⟩ | ⟨-, heq⟩⟩
      · rw [heq] at h ⊢
        rw [hsplit, ih h]
      · rw [heq]
      · rw [heq] at h ⊢
        have hrest : rest ≠ [] := by
          rintro rfl
          cases h
        rw [hsplit, ih h, lookup_put t (by simp), if_neg]
        simpa using hrest

/-- If they all can be made, the last one is a directory. -/
theorem lookup_makeMissing_of_none {above rest : List String} (hrest : rest ≠ [])
    (h : (t.makeMissing r above rest).1 = none) :
    (t.makeMissing r above rest).2.lookup (above ++ rest) = some .directory := by
  induction rest generalizing t above with
  | nil => exact absurd rfl hrest
  | cons part rest ih =>
      have hsplit : above ++ part :: rest = above ++ [part] ++ rest := by simp
      rcases t.makeMissing_cons r above part rest with ⟨hskip, heq⟩ | ⟨-, ⟨e, -, heq⟩ | ⟨-, heq⟩⟩
      · rw [heq] at h ⊢
        rw [hsplit, ih hskip.1 h]
      · rw [heq] at h
        cases h
      · rw [heq] at h ⊢
        by_cases hr : rest = []
        · subst hr
          simp [makeMissing, lookup_put]
        · rw [hsplit, ih hr h]

/-- A directory that cannot be made cannot be made the second time either. -/
theorem makeMissing_again {above rest : List String} {e : FileError}
    (h : (t.makeMissing r above rest).1 = some e) :
    (t.makeMissing r above rest).2.makeMissing r above rest =
      (some e, (t.makeMissing r above rest).2) := by
  induction rest generalizing t above with
  | nil => cases h
  | cons part rest ih =>
      -- what was there, or was made, is passed over the second time
      have hpass : ∀ t₁ : FileTree, rest ≠ [] → (t₁.lookup (above ++ [part])).isSome = true →
          (t₁.makeMissing r (above ++ [part]) rest).2.makeMissing r above (part :: rest) =
            (t₁.makeMissing r (above ++ [part]) rest).2.makeMissing r (above ++ [part]) rest := by
        intro t₁ hrest hsome
        obtain ⟨entry, hentry⟩ := Option.isSome_iff_exists.mp hsome
        have hkept := (t₁.grows_makeMissing r (above ++ [part]) rest).kept _ _ hentry
        rw [makeMissing, if_pos ⟨hrest, by simp [hkept]⟩]
      rcases t.makeMissing_cons r above part rest with
        ⟨hskip, heq⟩ | ⟨hskip, ⟨e', hmake, heq⟩ | ⟨-, heq⟩⟩
      · rw [heq] at h ⊢
        rw [hpass t hskip.1 hskip.2, ih h]
      · obtain rfl : e' = e := by simpa [heq] using h
        rw [heq]
        dsimp only
        rw [heq]
      · rw [heq] at h ⊢
        have hrest : rest ≠ [] := by
          rintro rfl
          cases h
        rw [hpass _ hrest (by simp [lookup_put]), ih h]

/-- Making directories once more ends the same way and changes nothing. -/
theorem makeDirectories_again (t : FileTree) (r : Rights) (path : String) :
    (t.makeDirectories r path).2.makeDirectories r path =
      ((t.makeDirectories r path).1, (t.makeDirectories r path).2) := by
  by_cases hdir : t.isDirectory path = true
  · simp [makeDirectories, hdir]
  · have hmade : t.makeDirectories r path = t.makeMissing r [] (Path.parts path) := if_neg hdir
    have hparts : Path.parts path ≠ [] := by
      intro hnil
      exact hdir (isDirectory_iff.mpr (by rw [hnil]; rfl))
    rw [hmade]
    cases herror : (t.makeMissing r [] (Path.parts path)).1 with
    | none =>
        have hlast := lookup_makeMissing_of_none hparts herror
        exact if_pos (isDirectory_iff.mpr hlast)
    | some e =>
        have hlast : (t.makeMissing r [] (Path.parts path)).2.lookup (Path.parts path) =
            t.lookup (Path.parts path) := lookup_makeMissing_of_error herror
        have hdir' : ¬(t.makeMissing r [] (Path.parts path)).2.isDirectory path = true := by
          rw [isDirectory_iff] at hdir ⊢
          rw [hlast]
          exact hdir
        exact (if_neg hdir').trans (makeMissing_again herror)

end FileTree

end Soundworks
