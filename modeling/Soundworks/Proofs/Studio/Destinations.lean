import Soundworks.Proofs.Files.Naming
import Soundworks.Proofs.Studio.Isolation
/-!
Where the outputs of a batch over a directory go. Its files are found once each, and two of them
have the same output exactly when they are namesakes. So in the course of a batch what stands at
an output is replaced only for a namesake, or for somebody else.
-/

namespace Soundworks

namespace Batch

variable {b : Batch} {w : Workplace} {t : FileTree} {files : List String}
  {destination : String → String}

theorem discover_of_files (h : b.files w t = .ok files) (hinput : given b.inputFile = none) :
    ∃ directory, t.discover w directory b.pattern = .ok files := by
  unfold Batch.files at h
  rw [hinput] at h
  split at h
  · rename_i hfile
    cases hfile
  · rename_i directory _ _
    split at h
    · cases h
    · cases h
    · rename_i found _ hfound
      cases h
      exact ⟨directory, hfound⟩
  · cases h

/-- Without an output file, each output has its own name in a directory. -/
theorem derived_of_destination (h : b.destination = .ok destination)
    (houtput : given b.outputFile = none) :
    ∃ directory, directory ≠ "" ∧
      destination = fun path => derivedOutput path directory b.suffix b.extension := by
  unfold Batch.destination at h
  rw [houtput] at h
  split at h
  · rename_i hfile
    cases hfile
  · rename_i directory _ hdirectory
    have hne := (Option.filter_eq_some_iff.mp hdirectory).2
    exact ⟨directory, by simpa using hne, (Except.ok.inj h).symm⟩
  · cases h

end Batch

namespace Floor

/-! ### What stands at a place -/

/-- At some moment between two others, somebody waits with a call for a place. -/
def CallsBetween (p : Performer) (s s' : Standing) (r : Seat) (place : List String) : Prop :=
  ∃ m j c, Effects p True s m ∧ Effects p True m s' ∧ (r, j, c) ∈ m.1.calling ∧
    Path.parts c.output = place

/-- What stands at a place stays there, unless somebody waits with a call for the place. -/
theorem kept_or_called {p : Performer} (hp : p.Local) {s s' : Standing}
    (run : Effects p True s s') {place : List String} {e : Entry}
    (he : s.1.tree.lookup place = some e) :
    s'.1.tree.lookup place = some e ∨ ∃ r, CallsBetween p s s' r place := by
  induction run with
  | refl => exact .inl he
  | @tail m s' before step ih =>
      rcases ih with he | ⟨r, n, j, c, h₁, h₂, waits, hc⟩
      · rcases step.tree with htree | ⟨j, htree⟩ | ⟨r, j, c, waits, htree⟩
        · exact .inl (by rw [htree, he])
        · refine .inl ?_
          rw [htree]
          exact (j.grows_prepare m.1.studio m.1.tree).kept place e he
        · by_cases hplace : place = Path.parts c.output
          · exact .inr ⟨r, m, j, c, before, .single step, waits, hplace.symm⟩
          · exact .inl (by rw [htree, hp.confined c _ place hplace, he])
      · exact .inr ⟨r, n, j, c, h₁, h₂.tail step, waits, hc⟩

section

variable {p : Performer} {s s' : Standing} {t : Nat} {place : List String}

theorem CallsBetween.target_eq (h : CallsBetween p s s' (.queued t) place)
    (hs : s.1.Seated s.2) {j : Job} (hj : s.1.jobs[t]? = some j) :
    j.target s.1.studio.place = place := by
  obtain ⟨m, l, c, before, -, waits, rfl⟩ := h
  have hm := hs.effects before
  have hkeeps := Effects.keeps before
  obtain rfl : j = l := Option.some.inj ((hkeeps.job hj).symm.trans (hm.seated t l c waits))
  rw [hm.addressed _ waits, hkeeps.studio]
  rfl

/-- A job that is settled does not call any more. -/
theorem CallsBetween.undecided (h : CallsBetween p s s' (.queued t) place)
    (hs : s.1.Seated s.2) : s.1.queue.outcome? t = none := by
  obtain ⟨m, l, c, before, -, waits, -⟩ := h
  have hrunning := List.mem_append_right m.2 (mem_outstanding.mpr ⟨c, l, waits⟩)
  have hnone := (hs.effects before).orderly.outcome?_eq_none hrunning
  cases ho : s.1.queue.outcome? t with
  | none => rfl
  | some o =>
      have hlast := hs.outcome?_effects before ho
      rw [hnone] at hlast
      cases hlast

end

/-- Jobs are begun together. What stands at the place of the output of one that is settled stays
there, unless somebody else calls for this place: a job that was not begun with it, or another one
whose output has the same place. -/
theorem kept_or_called_of_settled {p : Performer} (hp : p.Local) {s m s' : Next}
    (hs : (standing s).1.Seated (standing s).2) {jobs : List Job}
    {answer : List Report → Response} (run : Leads p (undertake p s (.queued jobs answer)).1 m)
    (run' : Leads p m s') {i : Nat}
    (hsettled : m.1.queue.isSettled (s.1.jobs.length + i) = true) {place : List String} {e : Entry}
    (he : m.1.tree.lookup place = some e) :
    s'.1.tree.lookup place = some e ∨ ∃ r, CallsBetween p (standing m) (standing s') r place ∧
      ∀ k j, jobs[k]? = some j → r = .queued (s.1.jobs.length + k) →
        k ≠ i ∧ j.target s.1.studio.place = place := by
  have hbegin : Leads p s (undertake p s (.queued jobs answer)).1 := .single (.begin s.1 s.2 _)
  have hm := hs.leads (hbegin.trans run)
  refine (kept_or_called hp (hm.leads_effects run') he).imp_right ?_
  rintro ⟨r, hcalls⟩
  refine ⟨r, hcalls, fun k j hj hr => ⟨?_, ?_⟩⟩ <;> subst hr
  · rintro rfl
    have hnone : m.1.queue.outcome? (s.1.jobs.length + k) = none := hcalls.undecided hm
    rw [Queue.isSettled, hnone] at hsettled
    cases hsettled
  · have htarget := hcalls.target_eq hm ((Leads.keeps run).job (job_of_undertake p s answer hj))
    rwa [← (Leads.keeps (hbegin.trans run)).studio]

/-! ### The outputs of a batch over a directory -/

/-- The files of a batch over a directory are different ones, in order. Two of them have the same
output exactly when they are namesakes; so all outputs are different for files of one directory
whose outputs are given no extension. If no slash is added to the names, what stands at the place
of the output of a settled job stays there, unless somebody else calls for this place: a job that
is not one of this batch, or the job of a namesake. -/
theorem replaced_only_for_namesake {p : Performer} (hp : p.Local) {limit : Int} {s : Next}
    (hr : Reached p limit s) (named : s.1.tree.Named) {b : Batch}
    (hinput : Batch.given b.inputFile = none) (houtput : Batch.given b.outputFile = none)
    {jobs : List Job} (hjobs : b.jobs s.1.studio.place s.1.tree = .ok jobs) :
    ∃ files destination, b.files s.1.studio.place s.1.tree = .ok files ∧
      b.destination = .ok destination ∧ jobs = files.map (b.job destination) ∧
      files.Pairwise (· < ·) ∧
      (∀ x ∈ files, ∀ y ∈ files, destination x = destination y ↔ Namesakes b.extension x y) ∧
      (Batch.given b.extension = none →
        (∀ x ∈ files, ∀ y ∈ files, Path.parent x = Path.parent y) →
        (files.map destination).Nodup) ∧
      ('/' ∉ b.suffix.toList → (∀ e ∈ b.extension, '/' ∉ e.toList) →
        (∀ x ∈ files, ∀ y ∈ files,
          Path.parts (s.1.studio.place.resolve (destination x)) =
            Path.parts (s.1.studio.place.resolve (destination y)) ↔ Namesakes b.extension x y) ∧
        ∀ m s', Leads p (undertake p s (.ofBatch jobs)).1 m → Leads p m s' →
        ∀ i x, files[i]? = some x → m.1.queue.isSettled (s.1.jobs.length + i) = true →
        ∀ e, m.1.tree.at? (s.1.studio.place.resolve (destination x)) = some e →
          s'.1.tree.at? (s.1.studio.place.resolve (destination x)) = some e ∨
          ∃ r, CallsBetween p (standing m) (standing s') r
              (Path.parts (s.1.studio.place.resolve (destination x))) ∧
            ∀ k y, files[k]? = some y → r = .queued (s.1.jobs.length + k) →
              k ≠ i ∧ Namesakes b.extension x y) := by
  obtain ⟨files, destination, hfiles, hdestination, heach⟩ := Batch.jobs_eq_ok.mp hjobs
  obtain ⟨source, hfound⟩ := Batch.discover_of_files hfiles hinput
  obtain ⟨directory, hdirectory, rfl⟩ := Batch.derived_of_destination hdestination houtput
  have hname : ∀ x ∈ files, Path.IsName (Path.name x) :=
    fun x hx => named.isName_of_discover hfound hx
  have hsame : ∀ x ∈ files, ∀ y ∈ files, derivedOutput x directory b.suffix b.extension =
      derivedOutput y directory b.suffix b.extension ↔ Namesakes b.extension x y :=
    fun x hx y hy => derivedOutput_eq_iff directory (hname x hx) (hname y hy)
  have hincreasing := FileTree.increasing_of_discover hfound
  refine ⟨files, _, hfiles, hdestination, heach, hincreasing, hsame, fun hnone htogether => ?_, ?_⟩
  · refine List.pairwise_map.mpr (hincreasing.imp_of_mem fun {x y} hx hy hlt heq => ?_)
    rcases (hsame x hx y hy).mp heq with hsame | ⟨hsome, -⟩
    · obtain rfl := named.eq_of_discover hfound hx hy (htogether x hx y hy) hsame
      exact String.lt_irrefl x hlt
    · exact hsome hnone
  · intro hsuffix hextension
    have hplace := fun x hx y hy => s.1.studio.place.parts_derivedOutput_eq_iff hdirectory
      (hname x hx) (hname y hy) hsuffix hextension
    refine ⟨hplace, fun m s' run run' i x hx hsettled e he => ?_⟩
    refine (kept_or_called_of_settled hp hr.seated run run' hsettled he).imp_right ?_
    rintro ⟨r, hcalls, hothers⟩
    refine ⟨r, hcalls, fun k y hy hr => ?_⟩
    obtain ⟨hne, htarget⟩ := hothers k _ (by rw [heach, List.getElem?_map, hy, Option.map_some]) hr
    simp only [Job.target, Batch.job] at htarget
    exact ⟨hne, (hplace x (List.mem_of_getElem? hx) y (List.mem_of_getElem? hy)).mp htarget.symm⟩

/-! ### Namesakes in a directory and below it -/

/-- A directory with two sounds of one stem, and a directory in it with a sound of the same name. -/
def nestedSounds : FileTree :=
  [["in", "a.mp3"], ["in", "a.wav"], ["in", "b.wav"], ["in", "sub", "a.wav"]].foldl
    (fun t path => t.put path (.file "RIFF" 0o644))
    ((FileTree.empty.put ["in"] .directory).put ["in", "sub"] .directory)

def nestedFloor : Floor where
  studio := ⟨⟨"/", "/root", {}⟩, .basic⟩
  queue := { limit := 3, limit_pos := Nat.succ_pos 2 }
  tree := nestedSounds

/-- The batch of the sounds that match a pattern; outputs may be replaced. -/
def nestedBatch (pattern : String) (extension : Option String) : Batch where
  inputDirectory := some "/in"
  pattern := some pattern
  outputDirectory := some "/out"
  extension := extension
  operations := {}
  overwrite := true

def nestedJob (input output : String) : Job where
  inputs := [input]
  output := output
  operations := {}
  overwrite := true

def nestedJobs : List Job :=
  [nestedJob "/in/a.wav" "/out/a_processed.wav", nestedJob "/in/b.wav" "/out/b_processed.wav",
    nestedJob "/in/sub/a.wav" "/out/a_processed.wav"]

/-- Every call is answered at once. -/
def promptPerformer : Performer := .rehearsed [] []

def nestedStart : Next × Task := undertake promptPerformer (nestedFloor, []) (.ofBatch nestedJobs)

/-- The second job of the batch comes first. -/
def nestedTurned : Next :=
  let second := (nestedFloor.submit nestedJobs).1.step promptPerformer (.enter 1)
  (second.1, [.enter 0] ++ [.enter 2] ++ second.2)

theorem nestedSounds_grounded : nestedSounds.Grounded := FileTree.grounded_of_entries (by decide)

theorem nestedSounds_named : nestedSounds.Named := FileTree.named_of_entries (by decide)

theorem nestedFloor_reached (p : Performer) : Reached p 3 (nestedFloor, []) :=
  ⟨_, _, _, nestedSounds_grounded, rfl, .refl⟩

theorem nestedBatch_jobs :
    (nestedBatch "**/*.wav" none).jobs nestedFloor.studio.place nestedFloor.tree =
      .ok nestedJobs := by
  rfl

theorem nestedTurned_begun : Leads promptPerformer nestedStart.1 nestedTurned :=
  .single (.turn _ [.enter 0] (.enter 1) [.enter 2])

def nestedOutput (path : String) : String := derivedOutput path "/out" defaultSuffix none

/-- Two of the sounds have one output. The third one keeps its own, unless somebody calls for it
whose job is not of the batch. -/
theorem replaced_only_of_nested :
    ∃ s', Leads promptPerformer nestedTurned s' ∧ s'.1.queue.isSettled 2 = true ∧
      nestedOutput "/in/a.wav" = nestedOutput "/in/sub/a.wav" ∧
      nestedOutput "/in/a.wav" ≠ nestedOutput "/in/b.wav" ∧
      nestedTurned.1.tree.at? "/out/b_processed.wav" = some (.file "processed" 0o644) ∧
      (s'.1.tree.at? "/out/b_processed.wav" = some (.file "processed" 0o644) ∨
        ∃ r, CallsBetween promptPerformer (standing nestedTurned) (standing s') r
          ["out", "b_processed.wav"] ∧ ∀ k < 3, r ≠ .queued k) := by
  have hover : (complete promptPerformer nestedTurned).queue.isSettled 2 = true := by
    decide +kernel
  obtain ⟨rest, run⟩ := leads_complete promptPerformer nestedTurned
  -- what the run comes to is known by now, and is not to be evaluated again
  generalize complete promptPerformer nestedTurned = f at hover run
  obtain ⟨files, destination, hfiles, hdestination, -, -, hsame, -, hkept⟩ :=
    replaced_only_for_namesake (Performer.local_rehearsed [] []) (nestedFloor_reached _)
      nestedSounds_named rfl rfl nestedBatch_jobs
  have hfound : (nestedBatch "**/*.wav" none).files nestedFloor.studio.place nestedFloor.tree =
      .ok ["/in/a.wav", "/in/b.wav", "/in/sub/a.wav"] := by rfl
  have hbeside : (nestedBatch "**/*.wav" none).destination = .ok nestedOutput := rfl
  obtain rfl := Except.ok.inj (hfound.symm.trans hfiles)
  obtain rfl := Except.ok.inj (hbeside.symm.trans hdestination)
  have hpath : nestedFloor.studio.place.resolve (nestedOutput "/in/b.wav") =
      "/out/b_processed.wav" := by decide +kernel
  have hmade : nestedTurned.1.tree.at? "/out/b_processed.wav" = some (.file "processed" 0o644) := by
    decide +kernel
  have hrun := (hkept (by decide) (by simp [nestedBatch])).2 nestedTurned (f, rest)
    nestedTurned_begun run 1 "/in/b.wav" rfl (by decide +kernel) _ (hpath ▸ hmade)
  rw [hpath] at hrun
  refine ⟨(f, rest), run, hover, (hsame _ (by simp) _ (by simp)).mpr (by decide +kernel),
    fun heq => absurd ((hsame _ (by simp) _ (by simp)).mp heq) (by decide +kernel), hmade,
    hrun.imp_right ?_⟩
  rintro ⟨r, hcalls, hothers⟩
  refine ⟨r, hcalls, ?_⟩
  rintro k hk rfl
  obtain rfl | rfl | rfl : k = 0 ∨ k = 1 ∨ k = 2 := by omega
  · exact absurd (hothers 0 _ rfl rfl).2 (by decide +kernel)
  · exact (hothers 1 _ rfl rfl).1 rfl
  · exact absurd (hothers 2 _ rfl rfl).2 (by decide +kernel)

def nestedReport (input output : String) : Report := (nestedJob input output).report output none

theorem nestedJobs_response :
    (complete promptPerformer nestedStart.1).response? nestedStart.2 =
      some (.batch (.ofResults [nestedReport "/in/a.wav" "/out/a_processed.wav",
        nestedReport "/in/b.wav" "/out/b_processed.wav",
        nestedReport "/in/sub/a.wav" "/out/a_processed.wav"])) := by
  decide +kernel

/-- Outputs are not always different: not for files of one name in different directories, and not
for files of one stem that are given an extension. An extension with a slash can lead different
outputs to one place. -/
theorem not_distinct_destinations :
    (¬∀ (w : Workplace) (t : FileTree) (b : Batch) (jobs : List Job), t.Named →
      Batch.given b.inputFile = none → Batch.given b.outputFile = none → '/' ∉ b.suffix.toList →
      b.jobs w t = .ok jobs → (jobs.map Job.output).Nodup) ∧
    (∃ s' x y z, Leads promptPerformer nestedStart.1 s' ∧
      s'.1.response? nestedStart.2 = some (.batch (.ofResults [x, y, z])) ∧
      x.success = true ∧ z.success = true ∧ x.inputPath ≠ z.inputPath ∧
      x.outputPath = z.outputPath) ∧
    (∃ jobs, (nestedBatch "*" (some "ogg")).jobs nestedFloor.studio.place nestedSounds = .ok jobs ∧
      jobs.map Job.output =
        ["/out/a_processed.ogg", "/out/a_processed.ogg", "/out/b_processed.ogg"]) ∧
    ∃ jobs, (nestedBatch "*.wav" (some "x/../ogg")).jobs nestedFloor.studio.place nestedSounds =
        .ok jobs ∧
      (jobs.map Job.output).Nodup ∧
      jobs.map (fun j => nestedFloor.studio.place.resolve j.output) = ["/out/ogg", "/out/ogg"] := by
  refine ⟨fun h => ?_, ?_, ⟨_, rfl, rfl⟩, ⟨_, rfl, by decide +kernel, by decide +kernel⟩⟩
  · have hdistinct := h nestedFloor.studio.place nestedSounds (nestedBatch "**/*.wav" none)
      nestedJobs nestedSounds_named rfl rfl (by decide) nestedBatch_jobs
    exact absurd hdistinct (by decide)
  · have hresp := nestedJobs_response
    obtain ⟨rest, run⟩ := leads_complete promptPerformer nestedStart.1
    -- what the run comes to is known by now, and is not to be evaluated again
    generalize complete promptPerformer nestedStart.1 = f at hresp run
    exact ⟨(f, rest), _, _, _, run, hresp, rfl, rfl, by decide, rfl⟩

end Floor

end Soundworks
