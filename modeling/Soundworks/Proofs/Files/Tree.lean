import Mathlib.Data.List.Induction
import Soundworks.Files.Tree
import Soundworks.Proofs.Files.Path
/-!
What stands in a file tree after each operation. In a grounded tree everything stands in a
directory. Making directories only adds to a tree, and writing a file replaces at most a file. A
file at an absolute path of a grounded tree is what the steps of the path lead to.
-/

namespace Soundworks

namespace FileTree

variable {t t' t'' : FileTree}

@[simp] theorem lookup_nil (t : FileTree) : t.lookup [] = some .directory := rfl

theorem lookup_of_ne_nil (t : FileTree) {path : List String} (h : path ≠ []) :
    t.lookup path = (t.entries.find? fun e => e.1 = path).map (·.2) := if_neg h

theorem find?_replace (entries : List (List String × Entry)) (path q : List String) (e : Entry) :
    ((entries.map fun f => if f.1 = path then (path, e) else f).find? fun f => f.1 = q).map (·.2) =
      if q = path ∧ (entries.any fun f => f.1 = path) = true then some e
      else (entries.find? fun f => f.1 = q).map (·.2) := by
  induction entries with
  | nil => simp
  | cons f entries ih =>
      by_cases hf : f.1 = path
      · by_cases hq : q = path
        · simp [hf, hq]
        · have hq' : ¬path = q := fun h => hq h.symm
          simp only [List.map_cons, hf, if_true, List.find?_cons, hq', decide_false, ih, hq,
            false_and, if_false]
      · by_cases hq : f.1 = q
        · have hq' : ¬q = path := fun h => hf (hq.trans h)
          simp [hq, hq']
        · simp only [List.map_cons, hf, if_false, List.find?_cons, hq, decide_false, ih,
            List.any_cons, Bool.false_or]

/-- Putting an entry at a path changes what stands there and nothing else. -/
theorem lookup_put (t : FileTree) {path : List String} (h : path ≠ []) (e : Entry)
    (q : List String) :
    (t.put path e).lookup q = if q = path then some e else t.lookup q := by
  by_cases hq : q = []
  · subst q
    simp [Ne.symm h]
  · rw [lookup_of_ne_nil _ hq, lookup_of_ne_nil _ hq]
    by_cases hany : (t.entries.any fun f => f.1 = path) = true
    · rw [put, if_pos hany, find?_replace]
      simp [hany]
    · rw [put, if_neg hany]
      have hnone : t.entries.find? (fun f => f.1 = path) = none := by
        rw [List.find?_eq_none]
        intro f hf heq
        exact hany (List.any_eq_true.mpr ⟨f, hf, heq⟩)
      by_cases hqp : q = path
      · subst q
        simp [List.find?_append, hnone]
      · have hpq : ¬path = q := fun h => hqp h.symm
        simp [List.find?_append, hqp, hpq]

theorem isFile_iff {path : String} :
    t.isFile path = true ↔ ∃ text mode, t.lookup (Path.parts path) = some (.file text mode) := by
  unfold isFile at?
  split
  · rename_i text mode h
    simp [h]
  · rename_i h
    simpa using h

/-! ### Grounded trees -/

/-- Everything stands in a directory. -/
def Grounded (t : FileTree) : Prop :=
  ∀ path e, t.lookup path = some e → t.lookup path.dropLast = some .directory

theorem mem_entries_of_lookup {path : List String} {e : Entry} (hp : path ≠ [])
    (h : t.lookup path = some e) : (path, e) ∈ t.entries := by
  rw [lookup_of_ne_nil _ hp, Option.map_eq_some_iff] at h
  obtain ⟨⟨q, e'⟩, hfind, rfl⟩ := h
  obtain rfl : q = path := by simpa using List.find?_some hfind
  exact List.mem_of_find?_eq_some hfind

/-- It is enough to look at what is listed. -/
theorem grounded_of_entries (h : ∀ f ∈ t.entries, t.lookup f.1.dropLast = some .directory) :
    t.Grounded := by
  intro path e he
  by_cases hp : path = []
  · subst path
    rfl
  · exact h _ (mem_entries_of_lookup hp he)

theorem Grounded.put (h : t.Grounded) {path : List String} (hp : path ≠ []) (e : Entry)
    (hparent : t.lookup path.dropLast = some .directory)
    (hfree : t.lookup path ≠ some .directory) : (t.put path e).Grounded := by
  intro q e' hq
  have hdown : path.dropLast ≠ path := by
    intro heq
    have hlen := congrArg List.length heq
    rw [List.length_dropLast] at hlen
    have hpos := List.length_pos_iff.mpr hp
    omega
  rw [lookup_put t hp] at hq ⊢
  by_cases hqp : q = path
  · subst q
    rw [if_neg hdown]
    exact hparent
  · rw [if_neg hqp] at hq
    have hdir := h q e' hq
    by_cases hqd : q.dropLast = path
    -- what stood there was no directory, so nothing is below it
    · rw [hqd] at hdir
      exact absurd hdir hfree
    · rw [if_neg hqd]
      exact hdir

/-- What is above something in a grounded tree is a directory. -/
theorem Grounded.lookup_of_append (h : t.Grounded) {here rest : List String} {e : Entry}
    (he : t.lookup (here ++ rest) = some e) (hrest : rest ≠ []) :
    t.lookup here = some .directory := by
  induction rest using List.reverseRecOn generalizing e with
  | nil => exact absurd rfl hrest
  | append_singleton rest s ih =>
      have hdir := h _ e he
      rw [← List.append_assoc, List.dropLast_concat] at hdir
      by_cases hr : rest = []
      · simpa [hr] using hdir
      · exact ih hdir hr

/-- The names of a path that leads down to something are followed to their end. -/
theorem Grounded.walk_eq (h : t.Grounded) {here rest : List String} {e : Entry}
    (hnames : ∀ s ∈ rest, Path.IsName s) (he : t.lookup (here ++ rest) = some e) :
    t.walk here rest = some (here ++ rest) := by
  induction rest generalizing here with
  | nil => simp [walk]
  | cons s rest ih =>
      have hhere : t.lookup here = some .directory := h.lookup_of_append he (by simp)
      obtain ⟨-, hdot, hdots⟩ := hnames s List.mem_cons_self
      have hrest : t.walk (here ++ [s]) rest = some (here ++ [s] ++ rest) :=
        ih (fun s hs => hnames s (List.mem_cons_of_mem _ hs)) (by simpa using he)
      simp [walk, hhere, hdot, hdots, hrest]

theorem Grounded.present_of_isFile (h : t.Grounded) {path : String} (hp : Path.IsAbsolute path)
    (hf : t.isFile path = true) (directory : String) : t.present directory path = true := by
  obtain ⟨text, mode, hlook⟩ := isFile_iff.mp hf
  have hwalk : t.walk [] (Path.parts path) = some ([] ++ Path.parts path) :=
    h.walk_eq hp.names hlook
  have hne : Path.parts path ≠ [] := by
    intro hnil
    simp [hnil] at hlook
  simp [present, resolve, hp.join_eq, hwalk, hlook, hp.last hne]

/-! ### Making directories -/

/-- A tree to which something was added: what was there is there, and it is grounded if the tree
was. -/
structure Grows (t t' : FileTree) : Prop where
  kept : ∀ path e, t.lookup path = some e → t'.lookup path = some e
  grounded : t.Grounded → t'.Grounded

theorem Grows.refl (t : FileTree) : t.Grows t := ⟨fun _ _ h => h, id⟩

theorem Grows.trans (h : t.Grows t') (h' : t'.Grows t'') : t.Grows t'' :=
  ⟨fun path e he => h'.kept path e (h.kept path e he), h'.grounded ∘ h.grounded⟩

theorem Grows.isFile (h : t.Grows t') {path : String} (hf : t.isFile path = true) :
    t'.isFile path = true := by
  obtain ⟨text, mode, hlook⟩ := isFile_iff.mp hf
  exact isFile_iff.mpr ⟨text, mode, h.kept _ _ hlook⟩

theorem lookup_of_entryError? {text : String} {path : List String}
    (h : t.entryError? text path = none) : t.lookup path.dropLast = some .directory := by
  unfold entryError? at h
  dsimp only at h
  split at h
  · simp at h
  · split at h
    · simp at h
    · simp at h
    · assumption

theorem entryError?_congr {path : List String} (text : String)
    (h : t.lookup path.dropLast = t'.lookup path.dropLast) :
    t.entryError? text path = t'.entryError? text path := by
  simp only [entryError?, h]

theorem grows_makeDirectory {r : Rights} {path : List String}
    (h : t.makeDirectory r path = .ok t') : t.Grows t' := by
  unfold makeDirectory at h
  dsimp only at h
  split at h
  · cases h
  · cases h
  · rename_i hnone herror
    split at h
    · cases h
      have hp : path ≠ [] := by
        intro hnil
        simp [hnil] at hnone
      refine ⟨fun q e he => ?_, fun hg => ?_⟩
      · rw [lookup_put t hp, if_neg]
        · exact he
        · intro hq
          simp [hq, hnone] at he
      · exact hg.put hp _ (lookup_of_entryError? herror) (by simp [hnone])
    · cases h

theorem grows_makeMissing (t : FileTree) (r : Rights) (above rest : List String) :
    t.Grows (t.makeMissing r above rest).2 := by
  induction rest generalizing t above with
  | nil => exact Grows.refl t
  | cons part rest ih =>
      unfold makeMissing
      dsimp only
      split
      · exact ih t (above ++ [part])
      · split
        · rename_i t' hmake
          exact (grows_makeDirectory hmake).trans (ih t' (above ++ [part]))
        · exact Grows.refl t

theorem grows_makeDirectories (t : FileTree) (r : Rights) (path : String) :
    t.Grows (t.makeDirectories r path).2 := by
  unfold makeDirectories
  split
  · exact Grows.refl t
  · exact grows_makeMissing t r [] (Path.parts path)

/-! ### Writing files -/

/-- A file is written where no directory stands, in a directory. -/
theorem write_eq_ok {path text : String} (h : t.write path text = .ok t') :
    t.lookup (Path.parts path) ≠ some .directory ∧
      (t.Grounded → t.lookup (Path.parts path).dropLast = some .directory) ∧
      ∃ mode, t' = t.put (Path.parts path) (.file text mode) := by
  unfold write at h
  dsimp only at h
  split at h
  · cases h
  · rename_i old mode hlook
    cases h
    exact ⟨by simp [hlook], fun hg => hg _ _ hlook, mode, rfl⟩
  · cases h
  · rename_i hlook herror
    cases h
    exact ⟨by simp [hlook], fun _ => lookup_of_entryError? herror, _, rfl⟩

theorem parts_ne_nil_of_lookup {path : String}
    (h : t.lookup (Path.parts path) ≠ some .directory) : Path.parts path ≠ [] := by
  intro hnil
  simp [hnil] at h

theorem isFile_of_write {path text : String} (h : t.write path text = .ok t') :
    t'.isFile path = true := by
  obtain ⟨hfree, -, mode, rfl⟩ := write_eq_ok h
  refine isFile_iff.mpr ⟨text, mode, ?_⟩
  rw [lookup_put t (parts_ne_nil_of_lookup hfree), if_pos rfl]

theorem isFile_write {path text other : String} (h : t.write path text = .ok t')
    (hf : t.isFile other = true) : t'.isFile other = true := by
  obtain ⟨hfree, -, mode, rfl⟩ := write_eq_ok h
  obtain ⟨old, oldMode, hlook⟩ := isFile_iff.mp hf
  rw [isFile_iff, lookup_put t (parts_ne_nil_of_lookup hfree)]
  by_cases hq : Path.parts other = Path.parts path
  · simp [hq]
  · simp [hq, hlook]

/-- Writing touches nothing but the file. -/
theorem lookup_of_write {path text : String} (h : t.write path text = .ok t') {q : List String}
    (hq : q ≠ Path.parts path) : t'.lookup q = t.lookup q := by
  obtain ⟨hfree, -, mode, rfl⟩ := write_eq_ok h
  rw [lookup_put t (parts_ne_nil_of_lookup hfree), if_neg hq]

/-- Whether a file can be written depends on what stands there and on its directory. -/
theorem write_congr {path : String} (text : String) (h : t.at? path = t'.at? path)
    (hdirectory : t.lookup (Path.parts path).dropLast = t'.lookup (Path.parts path).dropLast) :
    (∃ e, t.write path text = .error e ∧ t'.write path text = .error e) ∨
      ∃ t₁ t₂, t.write path text = .ok t₁ ∧ t'.write path text = .ok t₂ := by
  have hlook : t.lookup (Path.parts path) = t'.lookup (Path.parts path) := h
  simp only [write, hlook, entryError?_congr path hdirectory]
  split
  · exact .inl ⟨_, rfl, rfl⟩
  · exact .inr ⟨_, _, rfl, rfl⟩
  · exact .inl ⟨_, rfl, rfl⟩
  · exact .inr ⟨_, _, rfl, rfl⟩

theorem Grounded.write (hg : t.Grounded) {path text : String}
    (h : t.write path text = .ok t') : t'.Grounded := by
  obtain ⟨hfree, hparent, mode, rfl⟩ := write_eq_ok h
  exact hg.put (parts_ne_nil_of_lookup hfree) _ (hparent hg) hfree

end FileTree

end Soundworks
