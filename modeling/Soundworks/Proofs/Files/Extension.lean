import Soundworks.Proofs.Files.Naming
/-!
The extensions of outputs. A name is cut where it was glued together if its extension has no other
dot than the first one and its stem is not made of dots. So an output has the extension of its
input, or the one that it is given.
-/

namespace Soundworks

namespace Path

theorem splitName_append_dot {stem ext : List Char} (hstem : ∃ c ∈ stem, c ≠ '.')
    (hext : '.' ∉ ext) : splitName (stem ++ '.' :: ext) = (stem, '.' :: ext) := by
  rcases splitName_cases (stem ++ '.' :: ext) with ⟨-, hdot⟩ | ⟨stem', ext', heq, hcs, hext', -⟩
  · rw [List.dropWhile_append, if_neg (by simpa using hstem)] at hdot
    exact absurd (List.mem_append_right _ List.mem_cons_self) hdot
  · obtain ⟨rfl, rfl⟩ := Text.append_cons_inj hext hext' hcs
    exact heq

/-- A path with an extension has a stem that is not made of dots. -/
theorem exists_of_extension_ne {p : String} (h : extension p ≠ "") :
    (∃ c ∈ (stem p).toList, c ≠ '.') ∧
      ∃ ext, extension p = String.ofList ('.' :: ext) ∧ '.' ∉ ext := by
  unfold extension stem at *
  obtain ⟨heq, -⟩ | ⟨front, ext, heq, -, hext, hc⟩ := splitName_cases (Text.afterLast '/' p.toList)
  · rw [heq] at h
    exact absurd rfl h
  · rw [heq, String.toList_ofList]
    exact ⟨hc, ext, rfl, hext⟩

theorem name_join {n : String} (directory : String) (hn : IsName n) :
    name (join directory n) = n := by
  rcases eq_or_ne directory "" with rfl | hne
  · rw [join, if_neg hn.head_ne, if_pos (.inl rfl), String.empty_append, name,
      Text.afterLast_of_not_mem hn.1.2, String.ofList_toList]
  · obtain ⟨front, hjoin⟩ := exists_join_eq hne
    rw [hjoin n hn, name, String.toList_ofList, Text.afterLast_append_cons front hn.1.2,
      String.ofList_toList]

end Path

section

variable {p suffix : String} {extension : Option String}

theorem slash_not_mem_derivedName (hsuffix : '/' ∉ suffix.toList) :
    '/' ∉ (derivedName p suffix none).toList := by
  obtain ⟨hstem, hextension⟩ := Path.slash_not_mem_stem_extension p
  simp only [derivedName, Option.filter_none, Option.elim_none, String.toList_append,
    List.mem_append, not_or]
  exact ⟨⟨hstem, hsuffix⟩, hextension⟩

/-- An output has the extension that ends its name, if that has no other dot and stands behind
something else than dots. -/
theorem extension_derivedOutput (directory : String) {front ext : List Char}
    (hname : (derivedName p suffix extension).toList = front ++ '.' :: ext)
    (hfront : ∃ c ∈ front, c ≠ '.') (hdot : '.' ∉ ext)
    (hslash : '/' ∉ (derivedName p suffix extension).toList) :
    Path.extension (derivedOutput p directory suffix extension) = String.ofList ('.' :: ext) := by
  obtain ⟨c, hc, hne⟩ := hfront
  have hproper : Path.IsName (derivedName p suffix extension) :=
    Path.isName_of_mem hslash (hname ▸ List.mem_append_left _ hc) hne
  rw [derivedOutput_eq, Path.extension, ← Path.toList_name, Path.name_join directory hproper,
    hname, Path.splitName_append_dot ⟨c, hc, hne⟩ hdot]

/-- Outputs that keep the extensions of their inputs have the same path only if the inputs have the
same name, whatever the suffix is, unless it holds a slash. If the input has an extension, the
output has the same one. If the output is given another one, that is its extension, unless the
suffix is made of dots. -/
theorem outputs_keep_apart (directory : String) (hsuffix : '/' ∉ suffix.toList) :
    (∀ p q, derivedOutput p directory suffix none = derivedOutput q directory suffix none ↔
      Path.name p = Path.name q) ∧
    (∀ p, Path.extension p ≠ "" →
      Path.extension (derivedOutput p directory suffix none) = Path.extension p) ∧
    ∀ p format ext, (∃ c ∈ suffix.toList, c ≠ '.') →
      format.toList.dropWhile (· = '.') = ext → ext ≠ [] → '.' ∉ ext → '/' ∉ ext →
      Path.extension (derivedOutput p directory suffix (some format)) =
        String.ofList ('.' :: ext) := by
  refine ⟨fun p q => ?_, fun p hp => ?_, fun p format ext hmark hext hne hdot hslash => ?_⟩
  · have hhead : ∀ p, (derivedName p suffix none).toList.head? ≠ some '/' :=
      fun p h => slash_not_mem_derivedName hsuffix (List.mem_of_head? h)
    rw [derivedOutput_eq, derivedOutput_eq, Path.join_inj directory (hhead p) (hhead q),
      derivedName_eq_iff]
    simp [Namesakes]
  · obtain ⟨⟨c, hc, hne⟩, ext, hextension, hdot⟩ := Path.exists_of_extension_ne hp
    have hname : (derivedName p suffix none).toList =
        (Path.stem p).toList ++ suffix.toList ++ '.' :: ext := by
      simp [derivedName, hextension]
    rw [hextension]
    exact extension_derivedOutput directory hname ⟨c, List.mem_append_left _ hc, hne⟩ hdot
      (slash_not_mem_derivedName hsuffix)
  · have hgiven : format ≠ "" := by
      rintro rfl
      exact hne hext.symm
    have hname : (derivedName p suffix (some format)).toList =
        (Path.stem p).toList ++ suffix.toList ++ '.' :: ext := by
      simp [derivedName, Option.filter_some, hgiven, hext]
    obtain ⟨c, hc, hother⟩ := hmark
    refine extension_derivedOutput directory hname ⟨c, List.mem_append_right _ hc, hother⟩ hdot ?_
    rw [hname]
    simp [(Path.slash_not_mem_stem_extension p).1, hsuffix, hslash]

/-- A suffix that looks like an extension, a name that starts with a dot and one without an
extension. -/
theorem outputs_of_takes : '/' ∉ ".v2 take".toList ∧
    derivedOutput "/in/kick.wav" "/out" ".v2 take" none ≠
      derivedOutput "/in/kick" "/out" ".v2 take" none ∧
    Path.extension (derivedOutput "/in/.kick.wav" "/out" ".v2 take" none) = ".wav" ∧
    Path.extension (derivedOutput "/in/kick" "/out" ".v2 take" (some "..m4a")) = ".m4a" := by
  have hsuffix : '/' ∉ ".v2 take".toList := by decide
  obtain ⟨hapart, hkept, hgiven⟩ := outputs_keep_apart "/out" hsuffix
  refine ⟨hsuffix, mt (hapart "/in/kick.wav" "/in/kick").mp (by decide),
    hkept "/in/.kick.wav" (by decide), ?_⟩
  exact hgiven "/in/kick" "..m4a" ['m', '4', 'a'] ⟨'v', by decide⟩ (by decide) (by decide)
    (by decide) (by decide)

end

end Soundworks
