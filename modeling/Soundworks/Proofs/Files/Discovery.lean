import Soundworks.Media.Discovery
import Soundworks.Proofs.Files.Parent
import Soundworks.Proofs.Files.Tree
/-!
Files that are found. They are found in order and only once. In a tree whose entries have proper
names, the path of a file that was found leads back to the file.
-/

namespace Soundworks

namespace Path

theorem foldl_descend_of_names {l : List String} (h : ∀ s ∈ l, IsName s) (stack : List String) :
    l.foldl descend stack = l.reverse ++ stack := by
  induction l generalizing stack with
  | nil => rfl
  | cons s l ih =>
      obtain ⟨-, hdot, hdots⟩ := h s List.mem_cons_self
      rw [List.foldl_cons, ih fun s hs => h s (List.mem_cons_of_mem _ hs)]
      simp [descend, hdot, hdots]

/-- Names have no steps to be taken out. -/
theorem collapse_of_names {l : List String} (h : ∀ s ∈ l, IsName s) : collapse l = l := by
  rw [collapse, foldl_descend_of_names h, List.append_nil, List.reverse_reverse]

theorem expandHome_of_head {home p : String} (h : p.toList.head? = some '/') :
    expandHome home p = p := by
  unfold expandHome
  split
  · rename_i hp
    rw [hp] at h
    cases h
  · rfl

end Path

/-- A path that starts at the root and has only names leads to the place of these names. -/
theorem Workplace.parts_resolve (w : Workplace) {p : String} (hhead : p.toList.head? = some '/')
    (hnames : ∀ s ∈ Path.parts p, Path.IsName s) :
    Path.parts (w.resolve p) = Path.parts p := by
  have hwhole : Path.join w.directory p = p := by simp [Path.join, hhead]
  rw [Workplace.resolve, Path.expandHome_of_head hhead, Path.parts_absolute, hwhole,
    Path.collapse_of_names hnames]

/-! ### Increasing lists -/

theorem mem_insertIncreasing {x s : String} {l : List String} :
    x ∈ insertIncreasing s l ↔ x = s ∨ x ∈ l := by
  induction l with
  | nil => simp [insertIncreasing]
  | cons t ts ih =>
      unfold insertIncreasing
      split
      · exact List.mem_cons
      · split
        · rename_i hst
          subst hst
          simp
        · rw [List.mem_cons, ih, List.mem_cons]
          exact or_left_comm

theorem mem_foldl_insertIncreasing {x : String} {found files : List String} :
    x ∈ found.foldl (fun files path => insertIncreasing path files) files ↔
      x ∈ found ∨ x ∈ files := by
  induction found generalizing files with
  | nil => simp
  | cons s found ih =>
      rw [List.foldl_cons, ih, mem_insertIncreasing, List.mem_cons, or_left_comm, or_assoc]

theorem pairwise_insertIncreasing (s : String) {l : List String} (h : l.Pairwise (· < ·)) :
    (insertIncreasing s l).Pairwise (· < ·) := by
  induction l with
  | nil => exact List.pairwise_singleton _ _
  | cons t ts ih =>
      obtain ⟨hhead, htail⟩ := List.pairwise_cons.mp h
      unfold insertIncreasing
      split
      · rename_i hst
        refine List.pairwise_cons.mpr ⟨fun x hx => ?_, h⟩
        rcases List.mem_cons.mp hx with rfl | hx
        · exact hst
        · exact String.lt_trans hst (hhead x hx)
      · rename_i hst
        split
        · exact h
        · rename_i hne
          refine List.pairwise_cons.mpr ⟨fun x hx => ?_, ih htail⟩
          rcases mem_insertIncreasing.mp hx with rfl | hx
          · exact Std.lt_of_le_of_ne (String.not_lt.mp hst) (Ne.symm hne)
          · exact hhead x hx

theorem pairwise_foldl_insertIncreasing (found : List String) {files : List String}
    (h : files.Pairwise (· < ·)) :
    (found.foldl (fun files path => insertIncreasing path files) files).Pairwise (· < ·) := by
  induction found generalizing files with
  | nil => exact h
  | cons s found ih => exact ih (pairwise_insertIncreasing s h)

def givenPattern (pattern : Option String) : String := (pattern.filter (· ≠ "")).getD defaultPattern

namespace FileTree

variable {t : FileTree}

/-- Every entry has a proper name, and so has everything above it. -/
def Named (t : FileTree) : Prop := ∀ path e, t.lookup path = some e → ∀ s ∈ path, Path.IsName s

theorem named_of_entries (h : ∀ f ∈ t.entries, ∀ s ∈ f.1, Path.IsName s) : t.Named :=
  fun _ _ he s hs => h _ (mem_entries_of_lookup (List.ne_nil_of_mem hs) he) s hs

/-- A path is accepted as an input if its absolute form is that of a file that can be read and has
a supported extension; the input is this absolute form. -/
theorem input_eq_ok {w : Workplace} {path x : String} :
    t.input w path = .ok x ↔
      x = w.resolve path ∧ (∃ text mode, t.lookup (Path.parts x) = some (.file text mode)) ∧
        w.rights.mayRead (Path.parts x) = true ∧ isSupported x = true := by
  unfold input at?
  dsimp only
  constructor
  · intro h
    split at h
    · cases h
    · cases h
    · rename_i text mode hfile
      split at h
      · cases h
      · rename_i hread
        split at h
        · rename_i hsupported
          cases h
          exact ⟨rfl, ⟨text, mode, hfile⟩, by simpa using hread, hsupported⟩
        · cases h
  · rintro ⟨rfl, ⟨text, mode, hfile⟩, hread, hsupported⟩
    simp [hfile, hread, hsupported]

/-- A path leads to a file that can be read and has a supported extension. -/
structure Accepts (t : FileTree) (w : Workplace) (path : String) : Prop where
  file : t.isFile (w.resolve path) = true
  readable : w.rights.mayRead (Path.parts (w.resolve path)) = true
  supported : isSupported (w.resolve path) = true

theorem exists_input_iff {w : Workplace} {path : String} :
    (∃ x, t.input w path = .ok x) ↔ t.Accepts w path := by
  simp only [input_eq_ok]
  constructor
  · rintro ⟨_, rfl, hfile, hread, hsupported⟩
    exact ⟨isFile_iff.mpr hfile, hread, hsupported⟩
  · intro h
    exact ⟨_, rfl, isFile_iff.mp h.file, h.readable, h.supported⟩

theorem exists_file_of_filesMatching {directory x : String} {pattern : List Char}
    (h : x ∈ t.filesMatching directory pattern) :
    ∃ path text mode, t.lookup path = some (.file text mode) ∧
      (x = Path.ofParts path ∨ x = "/" ++ Path.ofParts path) := by
  unfold filesMatching at h
  dsimp only at h
  obtain ⟨path, hpath, rfl⟩ := List.mem_map.mp h
  obtain ⟨-, hfile⟩ := List.mem_filter.mp hpath
  split at hfile
  · rename_i text mode hlook
    exact ⟨path, text, mode, hlook, (ite_eq_or_eq _ _ _).symm⟩
  · cases hfile

section

variable {w : Workplace} {directory : String} {pattern : Option String} {files : List String}

/-- What was found is in order, and nothing is found twice. -/
theorem increasing_of_discover (h : t.discover w directory pattern = .ok files) :
    files.Pairwise (· < ·) := by
  unfold discover at h
  dsimp only at h
  split at h
  · cases h
    split
    · exact (pairwise_foldl_insertIncreasing _ List.Pairwise.nil).filter _
    · exact pairwise_foldl_insertIncreasing _ List.Pairwise.nil
  · cases h

theorem exists_discover_of_isDirectory (hroot : t.isDirectory (w.resolve directory) = true)
    (pattern : Option String) : ∃ files, t.discover w directory pattern = .ok files := by
  unfold discover
  dsimp only
  rw [if_pos hroot]
  exact ⟨_, rfl⟩

theorem mem_discover (h : t.discover w directory pattern = .ok files) {x : String} :
    x ∈ files ↔ (∃ alternative ∈ Braces.expand (givenPattern pattern).toList,
        x ∈ t.filesMatching (w.resolve directory) alternative) ∧
      (pattern = none → isSupported x = true) := by
  unfold discover at h
  dsimp only at h
  split at h
  · cases h
    cases pattern <;> simp [mem_foldl_insertIncreasing, givenPattern]
  · cases h

theorem exists_file_of_discover (h : t.discover w directory pattern = .ok files) {x : String}
    (hx : x ∈ files) :
    ∃ path text mode, t.lookup path = some (.file text mode) ∧
      (x = Path.ofParts path ∨ x = "/" ++ Path.ofParts path) := by
  obtain ⟨⟨alternative, -, hmem⟩, -⟩ := (mem_discover h).mp hx
  exact exists_file_of_filesMatching hmem

/-- A file that was found stands at the parts of its path, and the path is made from them. -/
theorem Named.of_discover (hn : t.Named) (h : t.discover w directory pattern = .ok files)
    {x : String} (hx : x ∈ files) :
    (∃ text mode, t.lookup (Path.parts x) = some (.file text mode)) ∧
      (∀ s ∈ Path.parts x, Path.IsName s) ∧
      (x = Path.ofParts (Path.parts x) ∨ x = "/" ++ Path.ofParts (Path.parts x)) := by
  obtain ⟨path, text, mode, hlook, hpath⟩ := exists_file_of_discover h hx
  have hnames := hn path _ hlook
  obtain rfl := Path.parts_of_eq_ofParts (fun s hs => (hnames s hs).1) hpath
  exact ⟨⟨text, mode, hlook⟩, hnames, hpath⟩

/-- The absolute path of a file that was found is the path of a file. -/
theorem Named.isFile_of_discover (hn : t.Named) (h : t.discover w directory pattern = .ok files)
    {x : String} (hx : x ∈ files) : t.isFile (w.resolve x) = true := by
  obtain ⟨⟨text, mode, hlook⟩, hnames, hpath⟩ := hn.of_discover h hx
  refine isFile_iff.mpr ⟨text, mode, ?_⟩
  rwa [w.parts_resolve (Path.isAbsolute_of_eq_ofParts hnames hpath).head hnames]

theorem Named.parts_of_discover (hn : t.Named) (h : t.discover w directory pattern = .ok files)
    {x : String} (hx : x ∈ files) :
    Path.parts x = Path.parts (Path.parent x) ++ [Path.name x] := by
  obtain ⟨⟨text, mode, hlook⟩, hnames, hpath⟩ := hn.of_discover h hx
  refine (Path.isAbsolute_of_eq_ofParts hnames hpath).parts_eq fun hroot => ?_
  rw [hroot, lookup_nil] at hlook
  cases hlook

theorem Named.isName_of_discover (hn : t.Named)
    (h : t.discover w directory pattern = .ok files) {x : String} (hx : x ∈ files) :
    Path.IsName (Path.name x) := by
  refine (hn.of_discover h hx).2.1 _ ?_
  rw [hn.parts_of_discover h hx]
  exact List.mem_append_right _ (List.mem_singleton_self _)

theorem Named.eq_of_discover (hn : t.Named) (h : t.discover w directory pattern = .ok files)
    {x y : String} (hx : x ∈ files) (hy : y ∈ files) (hparent : Path.parent x = Path.parent y)
    (hname : Path.name x = Path.name y) : x = y := by
  obtain ⟨-, hnames, hpath⟩ := hn.of_discover h hx
  obtain ⟨-, -, hpath'⟩ := hn.of_discover h hy
  rw [hn.parts_of_discover h hy, ← hparent, ← hname, ← hn.parts_of_discover h hx] at hpath'
  exact Path.eq_of_parent_eq (fun s hs => (hnames s hs).1) hpath hpath' hparent

end

end FileTree

end Soundworks
