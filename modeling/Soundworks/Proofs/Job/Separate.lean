import Soundworks.Proofs.Job.Run
/-!
Jobs that keep out of each other's way: their outputs are different files of one directory, and
none of them is an input. What a job finds when it is prepared depends on its inputs, on the
directory of the outputs and on its own output; so others may write their outputs, and the
directory may have been made before.
-/

namespace Soundworks

def Job.target (j : Job) (w : Workplace) : List String := Path.parts (w.resolve j.output)

/-- The outputs are different, they lie in one directory, and none of them is an input. -/
structure Separate (w : Workplace) (jobs : List Job) : Prop where
  distinct : (jobs.map fun j => w.resolve j.output).Nodup
  together : ∀ j ∈ jobs, ∀ k ∈ jobs,
    Path.parent (w.resolve j.output) = Path.parent (w.resolve k.output)
  outside : ∀ j ∈ jobs, ∀ k ∈ jobs, ∀ path ∈ j.inputs, Path.parts (w.resolve path) ≠ k.target w

/-- Two trees agree but for the outputs of jobs. -/
def FileTree.AgreeBut (t t' : FileTree) (w : Workplace) (jobs : List Job) : Prop :=
  ∀ q, (∀ j ∈ jobs, q ≠ j.target w) → t.lookup q = t'.lookup q

namespace Job

variable {s : Studio} {j : Job} {t t' : FileTree}

theorem parts_parent_output (j : Job) (w : Workplace) :
    Path.parts (Path.parent (w.resolve j.output)) = (j.target w).dropLast :=
  (w.isAbsolute_resolve j.output).parts_parent

/-- Making the directory of an output does not touch the output. -/
theorem lookup_withDirectory {q : List String} (hq : ¬q <+: (j.target s.place).dropLast) :
    (j.withDirectory s t).lookup q = t.lookup q :=
  t.lookup_outputDirectory s.place _ (by rwa [parts_parent_output])

/-- Two trees in which a job finds the same inputs, the same directory and the same output. -/
structure SameView (j : Job) (s : Studio) (t t' : FileTree) : Prop where
  inputs : ∀ path ∈ j.inputs, t.at? (s.place.resolve path) = t'.at? (s.place.resolve path)
  directory : (t.outputDirectory s.place (Path.parent (s.place.resolve j.output))).1 =
    (t'.outputDirectory s.place (Path.parent (s.place.resolve j.output))).1
  output : (j.withDirectory s t).AgreeDown (j.withDirectory s t') (j.target s.place)

theorem fst_prepare (j : Job) (s : Studio) (t : FileTree) :
    (j.prepare s t).1 =
      match j.inputs.mapM (t.input s.place) with
      | .error e => .error ⟨j.output, .input e⟩
      | .ok inputs =>
        match (t.outputDirectory s.place (Path.parent (s.place.resolve j.output))).1 with
        | some e => .error ⟨j.output, .output e⟩
        | none => (j.call s (j.withDirectory s t) inputs (s.place.resolve j.output)).mapError
            fun e => ⟨s.place.resolve j.output, e⟩ := by
  rcases j.prepare_cases s t with ⟨e, hin, hprep⟩ | ⟨hin, ⟨e, hdir, hprep⟩ | ⟨hdir, hprep⟩⟩
  · rw [hprep, hin]
  · rw [hprep, hin]
    dsimp only
    rw [hdir]
  · rw [hprep, hin]
    dsimp only
    rw [hdir]

/-- What comes of preparing a job depends on what it finds. -/
theorem SameView.prepare (h : j.SameView s t t') : (j.prepare s t).1 = (j.prepare s t').1 := by
  have hinput : ∀ path ∈ j.inputs, t.input s.place path = t'.input s.place path := by
    intro path hpath
    unfold FileTree.input
    dsimp only
    rw [h.inputs path hpath]
  have hpresent := FileTree.present_congr (s.place.isAbsolute_resolve j.output)
    s.place.directory h.output
  have hcall : ∀ inputs, j.call s (j.withDirectory s t) inputs (s.place.resolve j.output) =
      j.call s (j.withDirectory s t') inputs (s.place.resolve j.output) := by
    intro inputs
    simp only [call, FileTree.vacant, hpresent]
  rw [fst_prepare, fst_prepare, Fallible.mapM_congr hinput, h.directory]
  simp only [hcall]

theorem mem_inputs_of_prepare {c : EngineCall} (h : j.prepare s t = (.ok c, t')) {input : String}
    (hi : input ∈ c.inputs) : ∃ path ∈ j.inputs, input = s.place.resolve path := by
  rcases j.prepare_cases s t with ⟨e, -, hprep⟩ | ⟨-, ⟨e, -, hprep⟩ | ⟨-, hprep⟩⟩
  · rw [hprep] at h
    cases h
  · rw [hprep] at h
    cases h
  · rw [hprep] at h
    have hcall := Fallible.mapError_eq_ok.mp (Prod.mk.inj h).1
    rw [(call_eq_ok.mp hcall).2.2.1] at hi
    obtain ⟨path, hpath, rfl⟩ := List.mem_map.mp (mem_of_mem_engineInputs hi)
    exact ⟨path, hpath, rfl⟩

theorem parts_output_of_prepare {c : EngineCall} (h : j.prepare s t = (.ok c, t')) :
    Path.parts c.output = j.target s.place := by
  rw [(output_of_prepare h).1]
  rfl

/-- A job leaves the tree as it is, or makes the directory of its output. -/
theorem tree_prepare (j : Job) (s : Studio) (t : FileTree) :
    (j.prepare s t).2 = t ∨ (j.prepare s t).2 = j.withDirectory s t := by
  rcases j.prepare_cases s t with ⟨e, -, hprep⟩ | ⟨-, ⟨e, -, hprep⟩ | ⟨-, hprep⟩⟩
  · exact .inl (by rw [hprep])
  · exact .inr (by rw [hprep])
  · exact .inr (by rw [hprep])

end Job

namespace Separate

variable {s : Studio} {jobs : List Job} {j k : Job} {t t' : FileTree}

/-- Jobs at different places have outputs at different places. -/
theorem target_ne {w : Workplace} (h : Separate w jobs) {i i' : Nat} (hj : jobs[i]? = some j)
    (hk : jobs[i']? = some k) (hne : i ≠ i') : j.target w ≠ k.target w := by
  intro heq
  have hpath := w.resolve_eq_of_parts
    (h.together j (List.mem_of_getElem? hj) k (List.mem_of_getElem? hk)) heq
  obtain ⟨hi, -⟩ := List.getElem?_eq_some_iff.mp hj
  refine hne ((List.getElem?_inj (by simpa using hi) h.distinct).mp ?_)
  rw [List.getElem?_map, List.getElem?_map, hj, hk, Option.map_some, Option.map_some, hpath]

theorem dropLast_target (h : Separate s.place jobs) (hj : j ∈ jobs) (hk : k ∈ jobs) :
    (j.target s.place).dropLast = (k.target s.place).dropLast := by
  rw [← Job.parts_parent_output, ← Job.parts_parent_output, h.together j hj k hk]

/-- No output is on the way to the directory of the outputs. -/
theorem eq_nil_of_prefix (h : Separate s.place jobs) (hj : j ∈ jobs) (hk : k ∈ jobs)
    (hq : k.target s.place <+: (j.target s.place).dropLast) : k.target s.place = [] := by
  rw [h.dropLast_target hj hk] at hq
  have hlen := hq.length_le
  rw [List.length_dropLast] at hlen
  exact List.length_eq_zero_iff.mp (by omega)

/-- Making the directory of the outputs touches none of them. -/
theorem lookup_target (h : Separate s.place jobs) (hj : j ∈ jobs) (hk : k ∈ jobs)
    (t : FileTree) :
    (j.withDirectory s t).lookup (k.target s.place) = t.lookup (k.target s.place) := by
  by_cases hq : k.target s.place <+: (j.target s.place).dropLast
  · rw [h.eq_nil_of_prefix hj hk hq, FileTree.lookup_nil, FileTree.lookup_nil]
  · exact Job.lookup_withDirectory (s := s) hq

theorem lookup_above (h : Separate s.place jobs) (hj : j ∈ jobs)
    (ha : t.AgreeBut t' s.place jobs) {q : List String}
    (hq : q <+: (j.target s.place).dropLast) : t.lookup q = t'.lookup q := by
  by_cases hnil : q = []
  · rw [hnil, FileTree.lookup_nil, FileTree.lookup_nil]
  · refine ha q fun k hk hqk => hnil ?_
    rw [hqk] at hq ⊢
    exact h.eq_nil_of_prefix hj hk hq

theorem outputDirectory_congr (h : Separate s.place jobs) (hj : j ∈ jobs)
    (ha : t.AgreeBut t' s.place jobs) :
    (t.outputDirectory s.place (Path.parent (s.place.resolve j.output))).1 =
        (t'.outputDirectory s.place (Path.parent (s.place.resolve j.output))).1 ∧
      (j.withDirectory s t).AgreeBut (j.withDirectory s t') s.place jobs := by
  have hdown : t.AgreeDown t' (Path.parts (Path.parent (s.place.resolve j.output))) := by
    intro q hq
    rw [Job.parts_parent_output] at hq
    exact h.lookup_above hj ha hq
  obtain ⟨herror, hlookup⟩ := FileTree.outputDirectory_congr hdown
  exact ⟨herror, fun q hq => hlookup q (ha q hq)⟩

/-- The directory is there once it was made. -/
theorem outputDirectory_again (h : Separate s.place jobs) (hj : j ∈ jobs)
    (ha : t.AgreeBut (j.withDirectory s t') s.place jobs) :
    (t.outputDirectory s.place (Path.parent (s.place.resolve j.output))).1 =
        (t'.outputDirectory s.place (Path.parent (s.place.resolve j.output))).1 ∧
      (j.withDirectory s t).AgreeBut (j.withDirectory s t') s.place jobs := by
  have hagain := t'.outputDirectory_again s.place (Path.parent (s.place.resolve j.output))
  obtain ⟨herror, halike⟩ := h.outputDirectory_congr hj ha
  have hsame : j.withDirectory s (j.withDirectory s t') = j.withDirectory s t' := by
    rw [Job.withDirectory, Job.withDirectory, hagain]
  rw [hsame] at halike
  rw [Job.withDirectory, hagain] at herror
  exact ⟨herror, halike⟩

theorem withDirectory_eq (h : Separate s.place jobs) (hj : j ∈ jobs) (hk : k ∈ jobs)
    (t : FileTree) : j.withDirectory s t = k.withDirectory s t := by
  rw [Job.withDirectory, Job.withDirectory, h.together j hj k hk]

/-- A job finds the same in trees that agree but for the outputs of others. -/
theorem sameView (h : Separate s.place jobs) (hj : j ∈ jobs)
    (hin : ∀ path ∈ j.inputs, t.at? (s.place.resolve path) = t'.at? (s.place.resolve path))
    (hdir : (t.outputDirectory s.place (Path.parent (s.place.resolve j.output))).1 =
      (t'.outputDirectory s.place (Path.parent (s.place.resolve j.output))).1)
    (ha : (j.withDirectory s t).AgreeBut (j.withDirectory s t') s.place jobs)
    (hout : t.lookup (j.target s.place) = t'.lookup (j.target s.place)) : j.SameView s t t' where
  inputs := hin
  directory := hdir
  output := by
    intro q hq
    by_cases hq' : q <+: (j.target s.place).dropLast
    · exact h.lookup_above hj ha hq'
    -- what is not above the output is the output, and making directories does not touch it
    · have hwhole : q = j.target s.place := by
        rcases List.eq_nil_or_concat' (j.target s.place) with hnil | ⟨front, name, hcat⟩
        · rw [hnil] at hq ⊢
          exact List.prefix_nil.mp hq
        · rw [hcat, List.dropLast_concat] at hq'
          rw [hcat] at hq ⊢
          exact (List.prefix_concat_iff.mp hq).resolve_right hq'
      rw [hwhole, h.lookup_target hj hj, h.lookup_target hj hj, hout]

end Separate

end Soundworks
