import Soundworks.Proofs.Files.Naming
import Soundworks.Proofs.Files.Normal
/-!
What is found without a pattern. The pattern of all supported files stands for one pattern for each
extension, and that one is matched letter by letter. So a file of the directory is found if it is
not hidden and has its extension in small letters, whether it can be read or not; an input that has
its extension in capitals is not found.
-/

namespace Soundworks

/-! ### Patterns of one extension -/

namespace Wildcard

theorem mem_ends {cs rest : List Char} : rest ∈ ends cs ↔ rest <:+ cs := by
  induction cs with
  | nil => simp [ends]
  | cons c cs ih => rw [ends, List.mem_cons, ih, List.suffix_cons_iff]

theorem matchesAll_chars (cs ds : List Char) : matchesAll (cs.map .char) ds = true ↔ ds = cs := by
  induction cs generalizing ds with
  | nil => simp [matchesAll]
  | cons c cs ih => cases ds <;> simp [matchesAll, matchesChar, ih]

theorem matchesAll_star_chars (cs ds : List Char) :
    matchesAll (.star :: cs.map .char) ds = true ↔ cs <:+ ds := by
  simp only [matchesAll, List.any_eq_true, mem_ends, matchesAll_chars]
  exact ⟨fun ⟨_, h, heq⟩ => heq ▸ h, fun h => ⟨cs, h, rfl⟩⟩

end Wildcard

namespace Path

/-- The names with an extension are those that end in it, unless its dot is their first
character. -/
theorem extension_eq_iff {p : String} (hhead : (name p).toList.head? ≠ some '.') {ext : List Char}
    (hext : '.' ∉ ext) :
    extension p = String.ofList ('.' :: ext) ↔ '.' :: ext <:+ (name p).toList := by
  rw [extension, ← toList_name, String.ofList_inj]
  rcases splitName_cases (name p).toList with ⟨heq, hdot⟩ | ⟨stem, ext', heq, hcs, hext', -⟩
  · have hkeep : (name p).toList.dropWhile (· = '.') = (name p).toList := by
      cases h : (name p).toList with
      | nil => rfl
      | cons c cs => exact List.dropWhile_cons_of_neg (by simpa [h] using hhead)
    rw [hkeep] at hdot
    rw [heq]
    exact iff_of_false (List.cons_ne_nil _ _).symm fun h => hdot (h.mem List.mem_cons_self)
  · rw [heq, hcs]
    constructor
    · intro h
      rw [← h]
      exact List.suffix_append _ _
    · rintro ⟨front, hfront⟩
      rw [(Text.append_cons_inj hext hext' hfront).2]

end Path

/-! ### The files of a directory -/

theorem expand_defaultPattern :
    Braces.expand defaultPattern.toList = supportedExtensions.map fun e => '*' :: e.toList :=
  rfl

theorem parts_of_supported : ∀ e ∈ supportedExtensions,
    (Path.parts (String.ofList ('*' :: e.toList))).map (GlobPart.ofText false) =
      [.pattern false (.star :: e.toList.map .char)] := by
  decide +kernel

/-- No pattern of one extension is recursive or ends in a slash. -/
theorem flat_of_supported : ∀ e ∈ supportedExtensions,
    ((('*' :: e.toList).zip e.toList).any fun (a, b) => a = '*' && b = '*') = false ∧
      ('*' :: e.toList).getLast? ≠ some '/' := by
  decide

theorem exists_of_supported {e : String} (he : e ∈ supportedExtensions) :
    ∃ ext, e = String.ofList ('.' :: ext) ∧ '.' ∉ ext := by
  have hall : ∀ e ∈ supportedExtensions,
      e = String.ofList ('.' :: e.toList.tail) ∧ '.' ∉ e.toList.tail := by decide
  exact ⟨_, hall e he⟩

theorem extension_eq_iff_of_supported {p e : String} (he : e ∈ supportedExtensions)
    (hhidden : GlobPart.isHidden (Path.name p) = false) :
    Path.extension p = e ↔ e.toList <:+ (Path.name p).toList := by
  obtain ⟨ext, rfl, hext⟩ := exists_of_supported he
  rw [String.toList_ofList]
  exact Path.extension_eq_iff (of_decide_eq_false hhidden) hext

theorem isSupported_of_extension {p : String} (h : Path.extension p ∈ supportedExtensions) :
    isSupported p = true := by
  have hlower : ∀ e ∈ supportedExtensions, Text.lower e ∈ supportedExtensions := by decide +kernel
  exact decide_eq_true (hlower _ h)

namespace FileTree

variable {t : FileTree}

theorem mem_children_of_lookup {path : List String} {name : String} {e : Entry}
    (h : t.lookup (path ++ [name]) = some e) : name ∈ t.children path :=
  List.mem_filterMap.mpr ⟨_, mem_entries_of_lookup (by simp) h, by simp⟩

/-- The files of a directory whose names end in a supported extension and are not hidden. -/
theorem mem_filesMatching {root x : String} (hroot : t.lookup (Path.parts root) = some .directory)
    {e : String} (he : e ∈ supportedExtensions) :
    x ∈ t.filesMatching root ('*' :: e.toList) ↔
      ∃ name, x = Path.like root (Path.parts root ++ [name]) ∧
        (∃ text mode, t.lookup (Path.parts root ++ [name]) = some (.file text mode)) ∧
        GlobPart.isHidden name = false ∧ e.toList <:+ name.toList := by
  obtain ⟨hflat, hlast⟩ := flat_of_supported e he
  have hadmits : ∀ name, GlobPart.admits false (.star :: e.toList.map .char) name = true ↔
      GlobPart.isHidden name = false ∧ e.toList <:+ name.toList := fun name => by
    rw [GlobPart.admits, Bool.false_or, Bool.and_eq_true, Bool.not_eq_true',
      Wildcard.matchesAll_star_chars]
  unfold filesMatching
  dsimp only
  rw [List.tail_cons, hflat, if_neg hlast, parts_of_supported e he, if_neg (by simp)]
  simp only [glob, stepTo, if_pos hroot, List.flatMap_singleton']
  constructor
  · intro hx
    obtain ⟨path, hpath, rfl⟩ := List.mem_map.mp hx
    obtain ⟨hpath, hfile⟩ := List.mem_filter.mp hpath
    obtain ⟨name, hname, rfl⟩ := List.mem_map.mp hpath
    refine ⟨name, rfl, ?_, (hadmits name).mp (List.mem_filter.mp hname).2⟩
    split at hfile
    · rename_i text mode heq
      exact ⟨text, mode, heq⟩
    · cases hfile
  · rintro ⟨name, rfl, ⟨text, mode, hfile⟩, hname⟩
    refine List.mem_map_of_mem (List.mem_filter.mpr ⟨List.mem_map_of_mem ?_, by rw [hfile]⟩)
    exact List.mem_filter.mpr ⟨mem_children_of_lookup hfile, (hadmits name).mpr hname⟩

/-- What a pattern of one extension leads to. -/
theorem Named.mem_filesMatching_iff (hn : t.Named) (w : Workplace) {root x : String}
    (hnormal : Path.IsNormal root) (hroot : t.lookup (Path.parts root) = some .directory)
    {e : String} (he : e ∈ supportedExtensions) :
    x ∈ t.filesMatching root ('*' :: e.toList) ↔
      w.resolve x = x ∧ t.isFile x = true ∧ Path.parent x = root ∧
        GlobPart.isHidden (Path.name x) = false ∧ Path.extension x = e := by
  rw [mem_filesMatching hroot he, isFile_iff]
  constructor
  · rintro ⟨name, rfl, ⟨text, mode, hfile⟩, hhidden, hsuffix⟩
    have hnames := hn _ _ hfile
    have hname := Path.name_like root hnames
    have hparts := Path.parts_like root fun s hs => (hnames s hs).1
    have hparent := Path.parent_like root
      (fun s hs => (hnames s (List.mem_append_left _ hs)).1) (hnames name (by simp)).1.2
    rw [← hnormal.eq] at hparent
    rw [← hname] at hhidden hsuffix
    refine ⟨w.resolve_of_isNormal (Path.isNormal_like _ hnames), ⟨text, mode, ?_⟩, hparent, hhidden,
      (extension_eq_iff_of_supported he hhidden).mpr hsuffix⟩
    rw [hparts, hfile]
  · rintro ⟨hresolve, ⟨text, mode, hfile⟩, rfl, hhidden, hext⟩
    have hnormal : Path.IsNormal x := by
      rw [← hresolve]
      exact w.isNormal_resolve x
    have hparts : Path.parts x ≠ [] := by
      intro hnil
      rw [hnil, lookup_nil] at hfile
      cases hfile
    refine ⟨Path.name x, hnormal.eq_like hparts, ⟨text, mode, ?_⟩, hhidden,
      (extension_eq_iff_of_supported he hhidden).mp hext⟩
    rw [← hnormal.isAbsolute.parts_eq hparts]
    exact hfile

theorem exists_discover {w : Workplace} {directory : String}
    (hroot : t.isDirectory (w.resolve directory) = true) :
    ∃ files, t.discover w directory none = .ok files ∧ ∀ x, x ∈ files ↔
      (∃ e ∈ supportedExtensions, x ∈ t.filesMatching (w.resolve directory) ('*' :: e.toList)) ∧
        isSupported x = true := by
  obtain ⟨files, hfiles⟩ := exists_discover_of_isDirectory hroot none
  have hgiven : givenPattern none = defaultPattern := rfl
  refine ⟨files, hfiles, fun x => ?_⟩
  rw [mem_discover hfiles, hgiven, expand_defaultPattern]
  simp only [List.mem_map, exists_exists_and_eq_and, forall_const]

/-- An absolute path of a file with a supported extension is accepted if the file can be read. -/
theorem input_of_isFile {w : Workplace} {x : String} (hresolve : w.resolve x = x)
    (hfile : t.isFile x = true) (hsupported : isSupported x = true) :
    t.input w x = if w.rights.mayRead (Path.parts x) then .ok x else .error (.unreadable x) := by
  obtain ⟨text, mode, hfile⟩ := isFile_iff.mp hfile
  unfold input at?
  dsimp only
  rw [hresolve, hfile]
  cases w.rights.mayRead (Path.parts x) <;> simp [hsupported]

/-- Without a pattern exactly those files of a directory are found that are not hidden and have a
supported extension as it is written; they are found in order, each once. Those of them that can be
read are accepted as inputs, and the other ones are refused. -/
theorem discover_default (hn : t.Named) {w : Workplace} {directory : String}
    (hroot : t.isDirectory (w.resolve directory) = true) :
    ∃ files, t.discover w directory none = .ok files ∧ files.Pairwise (· < ·) ∧
      (∀ x, x ∈ files ↔ w.resolve x = x ∧ t.isFile x = true ∧
        Path.parent x = w.resolve directory ∧ GlobPart.isHidden (Path.name x) = false ∧
        Path.extension x ∈ supportedExtensions) ∧
      ∀ x ∈ files, t.input w x =
        if w.rights.mayRead (Path.parts x) then .ok x else .error (.unreadable x) := by
  have hdirectory : t.lookup (Path.parts (w.resolve directory)) = some .directory :=
    of_decide_eq_true hroot
  obtain ⟨files, hfiles, hmem⟩ := exists_discover hroot
  have hnormal := w.isNormal_resolve directory
  have hfound : ∀ x, x ∈ files ↔ w.resolve x = x ∧ t.isFile x = true ∧
      Path.parent x = w.resolve directory ∧ GlobPart.isHidden (Path.name x) = false ∧
      Path.extension x ∈ supportedExtensions := by
    intro x
    rw [hmem]
    have hiff := fun e (he : e ∈ supportedExtensions) =>
      hn.mem_filesMatching_iff w (x := x) hnormal hdirectory he
    constructor
    · rintro ⟨⟨e, he, hx⟩, -⟩
      obtain ⟨hresolve, hfile, hparent, hhidden, rfl⟩ := (hiff e he).mp hx
      exact ⟨hresolve, hfile, hparent, hhidden, he⟩
    · rintro ⟨hresolve, hfile, hparent, hhidden, he⟩
      have hx := (hiff _ he).mpr ⟨hresolve, hfile, hparent, hhidden, rfl⟩
      exact ⟨⟨_, he, hx⟩, isSupported_of_extension he⟩
  refine ⟨files, hfiles, increasing_of_discover hfiles, hfound, fun x hx => ?_⟩
  obtain ⟨hresolve, hfile, -, -, he⟩ := (hfound x).mp hx
  exact input_of_isFile hresolve hfile (isSupported_of_extension he)

/-- Sounds with extensions in small letters and in capitals, a hidden one, and a directory and a
text that are no sounds. -/
def mixedSounds : FileTree where
  entries :=
    [(["in"], .directory), (["in", "a.wav"], .file "" 0o644), (["in", "b.WAV"], .file "" 0o644),
      (["in", ".c.wav"], .file "" 0o644), (["in", "d.wav"], .directory),
      (["in", "e.txt"], .file "" 0o644), (["in", "f.wav"], .file "" 0)]

theorem mixedSounds_named : mixedSounds.Named := named_of_entries (by decide)

/-- The root as a workplace, where one of the sounds cannot be read. -/
def mixedPlace : Workplace := ⟨"/", "/", { unreadable := [["in", "f.wav"]] }⟩

/-- Of the inputs only the one in small letters is found, and with it one that cannot be read. -/
theorem discover_default_of_mixedSounds :
    mixedSounds.isDirectory (mixedPlace.resolve "in") = true ∧
      mixedSounds.input mixedPlace "/in/b.WAV" = .ok "/in/b.WAV" ∧
      ∃ files, mixedSounds.discover mixedPlace "in" none = .ok files ∧
        "/in/a.wav" ∈ files ∧ "/in/b.WAV" ∉ files ∧ "/in/f.wav" ∈ files ∧
        mixedSounds.input mixedPlace "/in/f.wav" = .error (.unreadable "/in/f.wav") := by
  have hroot : mixedSounds.isDirectory (mixedPlace.resolve "in") = true := by decide +kernel
  obtain ⟨files, hfiles, -, hmem, hinput⟩ := discover_default mixedSounds_named hroot
  have hclosed : "/in/f.wav" ∈ files := (hmem _).mpr (by decide +kernel)
  refine ⟨hroot, by decide +kernel, files, hfiles, (hmem _).mpr (by decide +kernel), fun h => ?_,
    hclosed, (hinput _ hclosed).trans (if_neg (by decide +kernel))⟩
  exact absurd ((hmem _).mp h) (by decide +kernel)

/-- An input of a directory that is not hidden need not be found: its extension may be written in
capitals. -/
theorem not_discover_all :
    ¬∀ (t : FileTree) (w : Workplace) (directory : String) (files : List String), t.Named →
      t.isDirectory (w.resolve directory) = true → t.discover w directory none = .ok files →
      ∀ x, x ∈ files ↔ t.input w x = .ok x ∧ Path.parent x = w.resolve directory ∧
        GlobPart.isHidden (Path.name x) = false := by
  intro h
  have hfound := (h mixedSounds mixedPlace "in" ["/in/a.wav", "/in/f.wav"] mixedSounds_named
    (by decide +kernel) (by decide +kernel) "/in/b.WAV").mpr (by decide +kernel)
  exact absurd hfound (by decide)

end FileTree

end Soundworks
