import Mathlib.Data.List.Sort
import Mathlib.Data.String.Basic
import Soundworks.Proofs.Files.Escape
/-!
Discovery does not depend on the name of the directory. The files that are found are those that the
alternatives of the pattern lead to behind the escaped path of the directory, in order; and in a
directory with the same contents the same files are found, below its own path.
-/

namespace Soundworks

/-- No alternative of a pattern starts at the root or steps to a parent. -/
def IsRelative (pattern : String) : Prop :=
  ∀ alternative ∈ Braces.expand pattern.toList,
    alternative.head? ≠ some '/' ∧ ".." ∉ Path.parts (String.ofList alternative)

instance (pattern : String) : Decidable (IsRelative pattern) :=
  inferInstanceAs (Decidable (∀ _ ∈ _, _))

theorem exists_map_of_forall {α β : Type} {f : α → β} {p : α → Prop} {l : List β}
    (h : ∀ y ∈ l, ∃ x, p x ∧ y = f x) : ∃ xs : List α, (∀ x ∈ xs, p x) ∧ l = xs.map f := by
  induction l with
  | nil => exact ⟨[], by simp, rfl⟩
  | cons y l ih =>
      rw [List.forall_mem_cons] at h
      obtain ⟨x, hx, rfl⟩ := h.1
      obtain ⟨xs, hxs, rfl⟩ := ih h.2
      exact ⟨x :: xs, List.forall_mem_cons.mpr ⟨hx, hxs⟩, rfl⟩

theorem GlobPart.eq_of_ofText {recursive : Bool} {text part : String}
    (h : ofText recursive text = .name part) : text = part := by
  unfold ofText at h
  split at h
  · cases h
  · split at h
    · cases h
    · exact GlobPart.name.inj h

/-- Whether a path is that of a sound file depends on its name. -/
theorem isSupported_congr {p q : String} (h : Path.name p = Path.name q) :
    isSupported p = isSupported q := by
  rw [isSupported, isSupported, Path.extension_eq_of_name_eq h]

namespace FileTree

variable {t t' : FileTree}

/-! ### What a pattern leads to below directories with the same contents -/

/-- What a relative pattern leads to below a directory, it leads to below another one with the
same contents. -/
theorem SameBelow.mem_filesMatching {root root' : String}
    (h : SameBelow t (Path.parts root) t' (Path.parts root')) (hn : t.Named) (hg : t.Grounded)
    (hg' : t'.Grounded) (hroot : Path.IsNormal root) (hroot' : Path.IsNormal root')
    (hdirectory : t.lookup (Path.parts root) = some .directory) {pattern : List Char}
    (hhead : pattern.head? ≠ some '/') (hdots : ".." ∉ Path.parts (String.ofList pattern))
    {x : String} (hx : x ∈ t.filesMatching root pattern) :
    ∃ names, names ≠ [] ∧ (∀ s ∈ names, Path.IsName s) ∧
      x = Path.join root (Path.relative names) ∧
      Path.join root' (Path.relative names) ∈ t'.filesMatching root' pattern := by
  obtain ⟨path, hpath, rfl⟩ := (mem_filesMatching_of_relative hhead).mp hx
  obtain ⟨hlast, hglob, hfile⟩ := mem_globFrom.mp hpath
  have hparts : GlobPart.name ".." ∉ (Path.parts (String.ofList pattern)).map
      (GlobPart.ofText (isRecursive pattern)) := by
    intro hmem
    obtain ⟨text, htext, heq⟩ := List.mem_map.mp hmem
    exact hdots (GlobPart.eq_of_ofText heq ▸ htext)
  rw [← List.append_nil (Path.parts root)] at hglob
  obtain ⟨names, rfl, hglob'⟩ := h.glob hg hg' hparts hglob
  obtain ⟨text, mode, hlook⟩ := hasFile_iff.mp hfile
  have hnames : ∀ s ∈ names, Path.IsName s := fun s hs =>
    hn _ _ hlook s (List.mem_append_right _ hs)
  have hne : names ≠ [] := by
    rintro rfl
    simp [hdirectory] at hlook
  refine ⟨names, hne, hnames, (hroot.join_relative (fun s hs => (hnames s hs).1) hne).symm, ?_⟩
  rw [hroot'.join_relative (fun s hs => (hnames s hs).1) hne, mem_filesMatching_of_relative hhead]
  refine ⟨_, mem_globFrom.mpr ⟨hlast, by simpa using hglob', ?_⟩, rfl⟩
  exact hasFile_iff.mpr ⟨text, mode, by rw [← h, hlook]⟩

/-! ### Discovery -/

/-- In a directory with the same contents everything that is found is found too. -/
theorem SameBelow.mem_discover {w w' : Workplace} {directory directory' : String}
    {pattern : Option String}
    (h : SameBelow t (Path.parts (w.resolve directory)) t' (Path.parts (w'.resolve directory')))
    (hn : t.Named) (hg : t.Grounded) (hg' : t'.Grounded)
    (hroot : t.isDirectory (w.resolve directory) = true)
    (hrelative : IsRelative (givenPattern pattern)) {files files' : List String}
    (hfiles : t.discover w directory pattern = .ok files)
    (hfiles' : t'.discover w' directory' pattern = .ok files') {x : String} (hx : x ∈ files) :
    ∃ rel : String, rel.toList.head? ≠ some '/' ∧ x = Path.join (w.resolve directory) rel ∧
      Path.join (w'.resolve directory') rel ∈ files' := by
  obtain ⟨⟨alternative, halternative, hx⟩, hsupported⟩ := (FileTree.mem_discover hfiles).mp hx
  obtain ⟨hhead, hdots⟩ := hrelative alternative halternative
  obtain ⟨names, hne, hnames, rfl, hx'⟩ := h.mem_filesMatching hn hg hg'
    (w.isNormal_resolve directory) (w'.isNormal_resolve directory') (of_decide_eq_true hroot)
    hhead hdots hx
  have hparts : ∀ s ∈ names, Path.IsPart s := fun s hs => (hnames s hs).1
  refine ⟨Path.relative names, Path.head?_relative hparts, rfl, (FileTree.mem_discover hfiles').mpr
    ⟨⟨alternative, halternative, hx'⟩, fun hnone => ?_⟩⟩
  -- the extension belongs to the last name, which is the same below both directories
  obtain ⟨front, n, rfl⟩ := (List.eq_nil_or_concat' names).resolve_left hne
  rw [← hsupported hnone]
  refine isSupported_congr ?_
  rw [(w.isNormal_resolve directory).name_join_relative hnames,
    (w'.isNormal_resolve directory').name_join_relative hnames]

/-- What is found depends on the alternatives of the pattern alone. -/
theorem discover_congr {w : Workplace} {directory : String} {pattern other : Option String}
    (hroot : t.isDirectory (w.resolve directory) = true) (hnone : other = none ↔ pattern = none)
    (hsame : ∀ alternative, alternative ∈ Braces.expand (givenPattern other).toList ↔
      alternative ∈ Braces.expand (givenPattern pattern).toList) {files : List String}
    (hfiles : t.discover w directory pattern = .ok files) :
    t.discover w directory other = .ok files := by
  obtain ⟨files', hfiles'⟩ := exists_discover_of_isDirectory hroot other
  rw [hfiles', (increasing_of_discover hfiles').eq_of_mem_iff (increasing_of_discover hfiles)]
  intro x
  rw [mem_discover hfiles, mem_discover hfiles', hnone]
  simp only [hsame]

/-- Two directories with the same contents have the same files for a relative pattern, in the same
order: what stands in front of all names does not change their order. -/
theorem SameBelow.discover_eq {t' : FileTree} {w w' : Workplace} {directory directory' : String}
    {pattern : Option String}
    (h : SameBelow t (Path.parts (w.resolve directory)) t' (Path.parts (w'.resolve directory')))
    (hn : t.Named) (hn' : t'.Named) (hg : t.Grounded) (hg' : t'.Grounded)
    (hroot : t.isDirectory (w.resolve directory) = true)
    (hroot' : t'.isDirectory (w'.resolve directory') = true)
    (hrelative : IsRelative (givenPattern pattern)) {files : List String}
    (hfiles : t.discover w directory pattern = .ok files) :
    ∃ names : List String, files = names.map (Path.join (w.resolve directory)) ∧
      t'.discover w' directory' pattern =
        .ok (names.map (Path.join (w'.resolve directory'))) := by
  obtain ⟨files', hfiles'⟩ := exists_discover_of_isDirectory hroot' pattern
  obtain ⟨names, hnames, rfl⟩ := exists_map_of_forall (p := fun rel : String =>
    rel.toList.head? ≠ some '/' ∧ Path.join (w'.resolve directory') rel ∈ files')
    (f := Path.join (w.resolve directory)) fun x hx => by
      obtain ⟨rel, hhead, rfl, hx'⟩ := h.mem_discover hn hg hg' hroot hrelative hfiles hfiles' hx
      exact ⟨rel, ⟨hhead, hx'⟩, rfl⟩
  refine ⟨names, rfl, hfiles'.trans (congrArg _ ?_)⟩
  have hincreasing : (names.map (Path.join (w'.resolve directory'))).Pairwise (· < ·) := by
    refine List.pairwise_map.mpr ((List.pairwise_map.mp
      (increasing_of_discover hfiles)).imp_of_mem fun {m n} hm hn hlt => ?_)
    rw [Path.join_lt_join _ (hnames m hm).1 (hnames n hn).1] at hlt
    exact (Path.join_lt_join _ (hnames m hm).1 (hnames n hn).1).mpr hlt
  refine (increasing_of_discover hfiles').eq_of_mem_iff hincreasing fun x => ?_
  rw [List.mem_map]
  constructor
  · intro hx
    obtain ⟨rel, hhead, rfl, hx'⟩ :=
      h.symm.mem_discover hn' hg' hg hroot' hrelative hfiles' hfiles hx
    obtain ⟨n, hmem, heq⟩ := List.mem_map.mp hx'
    rw [Path.join_inj _ (hnames n hmem).1 hhead] at heq
    exact ⟨n, hmem, by rw [heq]⟩
  · rintro ⟨n, hmem, rfl⟩
    exact (hnames n hmem).2

/-- The files that are found in a directory are those that the alternatives of the pattern lead to
behind the escaped path of the directory, each once and in order, whichever pattern has these
alternatives. They are files, given by their absolute paths. In a directory with the same contents
a relative pattern finds the same files below the path of that directory. -/
theorem discover_renamed (hn : t.Named) (hg : t.Grounded) {w : Workplace} {directory : String}
    (hroot : t.isDirectory (w.resolve directory) = true) (pattern : Option String) :
    ∃ files, t.discover w directory pattern = .ok files ∧
      files.Pairwise (· < ·) ∧
      (∀ x ∈ files, Path.IsNormal x ∧ t.isFile x = true) ∧
      (∀ x, x ∈ files ↔
        (∃ alternative ∈ Braces.expand (givenPattern pattern).toList,
          x ∈ t.globFiles (isRecursive alternative)
            (Path.join (Path.escape (w.resolve directory)) (String.ofList alternative))) ∧
        (pattern = none → isSupported x = true)) ∧
      (∀ other : Option String, (other = none ↔ pattern = none) →
        (∀ alternative, alternative ∈ Braces.expand (givenPattern other).toList ↔
          alternative ∈ Braces.expand (givenPattern pattern).toList) →
        t.discover w directory other = .ok files) ∧
      ∀ (t' : FileTree) (w' : Workplace) (directory' : String), t'.Named → t'.Grounded →
        t'.isDirectory (w'.resolve directory') = true →
        SameBelow t (Path.parts (w.resolve directory)) t' (Path.parts (w'.resolve directory')) →
        IsRelative (givenPattern pattern) →
        ∃ names : List String, files = names.map (Path.join (w.resolve directory)) ∧
          t'.discover w' directory' pattern =
            .ok (names.map (Path.join (w'.resolve directory'))) := by
  have hdirectory : t.lookup (Path.parts (w.resolve directory)) = some .directory :=
    of_decide_eq_true hroot
  obtain ⟨files, hfiles⟩ := exists_discover_of_isDirectory hroot pattern
  refine ⟨files, hfiles, increasing_of_discover hfiles, fun x hx => ?_, fun x => ?_,
    fun other hnone hsame => discover_congr hroot hnone hsame hfiles,
    fun t' w' directory' hn' hg' hroot' hbelow hrelative =>
      hbelow.discover_eq hn hn' hg hg' hroot hroot' hrelative hfiles⟩
  · obtain ⟨hfile, hnames, hpath⟩ := hn.of_discover hfiles hx
    exact ⟨Path.isNormal_of_cases hnames hpath, isFile_iff.mpr hfile⟩
  · rw [mem_discover hfiles]
    simp only [hg.mem_filesMatching (w.isNormal_resolve directory) hdirectory]

/-- Two directories with one sound each, of which one has a name with stars, brackets and braces,
and a directory that this name leads to as a pattern. -/
def specialNames : FileTree where
  entries :=
    [(["s*[1]\x7ba,b\x7d"], .directory), (["s*[1]\x7ba,b\x7d", "x.wav"], .file "" 0o644),
      (["plain"], .directory), (["plain", "x.wav"], .file "" 0o644),
      (["sz1a"], .directory), (["sz1a", "y.wav"], .file "" 0o644)]

theorem specialNames_named : specialNames.Named := named_of_entries (by decide)

theorem specialNames_grounded : specialNames.Grounded := grounded_of_entries (by decide)

theorem specialNames_sameBelow :
    SameBelow specialNames ["s*[1]\x7ba,b\x7d"] specialNames ["plain"] := by
  intro rel
  by_cases hnil : rel = []
  · subst hnil
    decide
  · by_cases hsound : rel = ["x.wav"]
    · subst hsound
      decide
    · rw [lookup_of_ne_nil _ (by simp), lookup_of_ne_nil _ (by simp)]
      simp [specialNames, Ne.symm hnil, Ne.symm hsound]

/-- The sound is found once in both directories, whatever the order and the number of the
alternatives that lead to it. -/
theorem discover_renamed_of_specialNames :
    specialNames.discover ⟨"/", "/", {}⟩ "s*[1]\x7ba,b\x7d" (some "\x7bx.*,*.wav,x.*\x7d") =
        .ok ["/s*[1]\x7ba,b\x7d/x.wav"] ∧
      IsRelative "\x7b*.wav,x.*\x7d" ∧
      ∃ names : List String, names.length = 1 ∧
        specialNames.discover ⟨"/", "/", {}⟩ "s*[1]\x7ba,b\x7d" (some "\x7b*.wav,x.*\x7d") =
          .ok (names.map (Path.join "/s*[1]\x7ba,b\x7d")) ∧
        specialNames.discover ⟨"/", "/", {}⟩ "plain" (some "\x7b*.wav,x.*\x7d") =
          .ok (names.map (Path.join "/plain")) := by
  have hspecial : Workplace.resolve ⟨"/", "/", {}⟩ "s*[1]\x7ba,b\x7d" = "/s*[1]\x7ba,b\x7d" := by
    decide +kernel
  have hplain : Workplace.resolve ⟨"/", "/", {}⟩ "plain" = "/plain" := by decide +kernel
  have hroot : specialNames.isDirectory "/s*[1]\x7ba,b\x7d" = true := by decide +kernel
  have hrelative : IsRelative "\x7b*.wav,x.*\x7d" := by decide +kernel
  have hfound : specialNames.discover ⟨"/", "/", {}⟩ "s*[1]\x7ba,b\x7d"
      (some "\x7b*.wav,x.*\x7d") = .ok ["/s*[1]\x7ba,b\x7d/x.wav"] := by decide +kernel
  obtain ⟨files, hfiles, -, -, -, hother, hrenamed⟩ := discover_renamed specialNames_named
    specialNames_grounded (w := ⟨"/", "/", {}⟩) (by rwa [hspecial]) (some "\x7b*.wav,x.*\x7d")
  obtain rfl : files = ["/s*[1]\x7ba,b\x7d/x.wav"] := Except.ok.inj (hfiles.symm.trans hfound)
  have hsame : ∀ alternative, alternative ∈ Braces.expand "\x7bx.*,*.wav,x.*\x7d".toList ↔
      alternative ∈ Braces.expand "\x7b*.wav,x.*\x7d".toList := by
    have hexpand : Braces.expand "\x7b*.wav,x.*\x7d".toList = ["*.wav".toList, "x.*".toList] := by
      decide +kernel
    have hexpand' : Braces.expand "\x7bx.*,*.wav,x.*\x7d".toList =
        ["x.*".toList, "*.wav".toList, "x.*".toList] := by decide +kernel
    intro alternative
    rw [hexpand, hexpand']
    simp only [List.mem_cons, List.not_mem_nil, or_false]
    tauto
  have hagain := hother (some "\x7bx.*,*.wav,x.*\x7d") (by simp) hsame
  obtain ⟨names, hnames, hfound'⟩ := hrenamed specialNames ⟨"/", "/", {}⟩ "plain"
    specialNames_named specialNames_grounded (by rw [hplain]; decide +kernel)
    (by rw [hspecial, hplain]; exact specialNames_sameBelow) hrelative
  rw [hspecial] at hnames
  rw [hplain] at hfound'
  refine ⟨hagain, hrelative, names, ?_, hnames ▸ hfiles, hfound'⟩
  have hlen := congrArg List.length hnames
  simpa using hlen.symm

end FileTree

end Soundworks
