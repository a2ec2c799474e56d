import Soundworks.Job.Basic
import Soundworks.Proofs.Fallible
import Soundworks.Proofs.Files.Directories
/-!
What a job has done when it is prepared. Nothing is lost from the files, and a call goes to the
absolute path of the output, where nothing stands unless it may be replaced.
-/

namespace Soundworks

namespace FileTree

variable {t t' : FileTree} {w : Workplace}

/-! ### The directory of an output -/

/-- Nothing can be written in a directory that cannot be made or is not for writing. -/
theorem outputDirectory_eq (t : FileTree) (w : Workplace) (directory : String) :
    t.outputDirectory w directory =
      (match (t.makeDirectories w.rights directory).1 with
        | some e => some (.file e)
        | none =>
          if w.rights.mayWrite (Path.parts directory) then none else some (.notWritable directory),
        (t.makeDirectories w.rights directory).2) := by
  unfold outputDirectory
  split
  · rename_i heq
    rw [heq]
  · rename_i heq
    rw [heq]

theorem snd_outputDirectory (t : FileTree) (w : Workplace) (directory : String) :
    (t.outputDirectory w directory).2 = (t.makeDirectories w.rights directory).2 := by
  rw [outputDirectory_eq]

theorem outputDirectory_eq_none {directory : String} :
    (t.outputDirectory w directory).1 = none ↔
      (t.makeDirectories w.rights directory).1 = none ∧
        w.rights.mayWrite (Path.parts directory) = true := by
  rw [outputDirectory_eq]
  cases (t.makeDirectories w.rights directory).1 <;> simp

theorem grows_outputDirectory (t : FileTree) (w : Workplace) (directory : String) :
    t.Grows (t.outputDirectory w directory).2 :=
  t.snd_outputDirectory w directory ▸ t.grows_makeDirectories w.rights directory

theorem lookup_outputDirectory (t : FileTree) (w : Workplace) (directory : String)
    {q : List String} (hq : ¬q <+: Path.parts directory) :
    (t.outputDirectory w directory).2.lookup q = t.lookup q := by
  rw [snd_outputDirectory, lookup_makeDirectories t w.rights directory hq]

theorem outputDirectory_congr {directory : String}
    (h : t.AgreeDown t' (Path.parts directory)) :
    (t.outputDirectory w directory).1 = (t'.outputDirectory w directory).1 ∧
      ∀ q, t.lookup q = t'.lookup q →
        (t.outputDirectory w directory).2.lookup q =
          (t'.outputDirectory w directory).2.lookup q := by
  obtain ⟨herror, hlookup⟩ := makeDirectories_congr (r := w.rights) h
  simp only [outputDirectory_eq, herror]
  exact ⟨trivial, hlookup⟩

theorem outputDirectory_again (t : FileTree) (w : Workplace) (directory : String) :
    (t.outputDirectory w directory).2.outputDirectory w directory =
      t.outputDirectory w directory := by
  have hagain := t.makeDirectories_again w.rights directory
  rw [outputDirectory_eq (t.outputDirectory w directory).2, snd_outputDirectory, hagain,
    ← outputDirectory_eq]

/-! ### The output -/

theorem grows_output (t : FileTree) (w : Workplace) (path : String) :
    t.Grows (t.output w path).2 := by
  have h := t.grows_outputDirectory w (Path.parent (w.resolve path))
  unfold output
  dsimp only
  split
  · rename_i heq
    simpa [heq] using h
  · rename_i heq
    simpa [heq] using h

theorem eq_resolve_of_output {path output : String}
    (h : t.output w path = (.ok output, t')) : output = w.resolve path := by
  unfold FileTree.output at h
  dsimp only at h
  split at h
  · cases h
    rfl
  · cases h

theorem present_of_vacant {path : String}
    (h : t.vacant w path false = .ok ()) : t.present w.directory path = false := by
  by_contra hp
  simp [vacant, hp] at h

end FileTree

namespace Job

theorem grows_prepare (j : Job) (s : Studio) (t : FileTree) : t.Grows (j.prepare s t).2 := by
  unfold prepare
  split
  · exact FileTree.Grows.refl t
  · have h := t.grows_output s.place j.output
    split
    · rename_i heq
      simpa [heq] using h
    · rename_i heq
      simpa [heq] using h

theorem vacant_of_call {j : Job} {s : Studio} {t : FileTree} {inputs : List String}
    {output : String} {c : EngineCall} (h : j.call s t inputs output = .ok c) :
    c.output = output ∧ t.vacant s.place output j.overwrite = .ok () := by
  unfold call at h
  simp only [Fallible.bind_eq_ok, Fallible.mapError_eq_ok, Fallible.pure_eq_ok] at h
  obtain ⟨_, hvacant, _, -, rfl⟩ := h
  exact ⟨rfl, hvacant⟩

/-- A call that was prepared goes to the absolute path of the output; if nothing may be replaced,
nothing is there. -/
theorem output_of_prepare {j : Job} {s : Studio} {t t' : FileTree} {c : EngineCall}
    (h : j.prepare s t = (.ok c, t')) :
    c.output = s.place.resolve j.output ∧
      (j.overwrite = false → t'.present s.place.directory c.output = false) := by
  unfold prepare at h
  split at h
  · cases h
  · split at h
    · cases h
    · rename_i houtput
      have hpath := FileTree.eq_resolve_of_output houtput
      obtain ⟨hcall, rfl⟩ := Prod.mk.inj h
      obtain ⟨rfl, hvacant⟩ := vacant_of_call (Fallible.mapError_eq_ok.mp hcall)
      refine ⟨hpath, fun ho => ?_⟩
      rw [ho] at hvacant
      exact FileTree.present_of_vacant hvacant

theorem mem_of_mem_engineInputs {j : Job} {capability : Capability} {inputs : List String}
    {input : String} (h : input ∈ j.engineInputs capability inputs) : input ∈ inputs := by
  unfold engineInputs at h
  split at h
  · rw [List.eq_of_mem_replicate h]
    exact List.mem_singleton_self _
  · exact h

end Job

end Soundworks
