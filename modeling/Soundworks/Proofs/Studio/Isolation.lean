import Soundworks.Proofs.Files.Discovery
import Soundworks.Proofs.Job.Separate
import Soundworks.Proofs.Studio.FanOut
import Soundworks.Proofs.Studio.Single
/-!
Batches whose jobs keep out of each other's way. In whatever order the steps are taken, each job
finds what it would find if it were the only one; so it comes to the report that it has on its
own, unless it is discarded while it waits.
-/

namespace Soundworks

/-- There is only one job, or what the jobs read are files. -/
def FileTree.Supplies (t : FileTree) (w : Workplace) (jobs : List Job) : Prop :=
  jobs.length = 1 ∨ ∀ j ∈ jobs, ∀ path ∈ j.inputs, t.isFile (w.resolve path) = true

theorem Batch.supplies {b : Batch} {w : Workplace} {t : FileTree} {jobs : List Job}
    (h : b.jobs w t = .ok jobs) (hn : t.Named) : t.Supplies w jobs := by
  obtain ⟨files, destination, hfiles, -, rfl⟩ := jobs_eq_ok.mp h
  unfold Batch.files at hfiles
  split at hfiles
  · cases hfiles
    exact .inl rfl
  · split at hfiles
    · cases hfiles
    · cases hfiles
    · rename_i found _ hfound
      cases hfiles
      refine .inr fun j hj path hpath => ?_
      obtain ⟨file, hfile, rfl⟩ := List.mem_map.mp hj
      obtain rfl : path = file := List.mem_singleton.mp hpath
      exact hn.isFile_of_discover hfound hfile
  · cases hfiles

def Batch.request (b : Batch) (destination : String → String) (file : String) :
    ProcessRequest where
  inputPath := file
  outputPath := destination file
  operations := b.operations
  overwrite := b.overwrite

namespace Floor

/-- No call waits, and the files are those of the start, but for the outputs. -/
structure Untouched (start : Floor) (jobs : List Job) (s : Standing) : Prop where
  calling : s.1.calling = []
  tree : s.1.tree.AgreeBut start.tree start.studio.place jobs

/-- A job that was begun has started, and the directory of the outputs has been made. -/
structure Opened (start : Floor) (jobs : List Job) (s : Standing) : Prop where
  tree : ∀ j ∈ jobs, s.1.tree.AgreeBut (j.withDirectory start.studio start.tree)
    start.studio.place jobs
  started : ∃ i < jobs.length, start.jobs.length + i ∉ s.2 ++ s.1.queue.pending

/-- What holds as long as the only jobs that run are those that were begun together: the calls
that wait are the calls of these jobs on their own, only outputs of jobs that are settled have
changed, and what has ended has ended as it does on its own. -/
structure Isolated (p : Performer) (start : Floor) (jobs : List Job) (s : Standing) : Prop where
  studio : s.1.studio = start.studio
  job : ∀ i, s.1.jobs[start.jobs.length + i]? = jobs[i]?
  later : ∀ t ∈ s.2 ++ s.1.queue.pending, start.jobs.length ≤ t
  calls : ∀ r j c, (r, j, c) ∈ s.1.calling → ∃ i, r = .queued (start.jobs.length + i) ∧
    jobs[i]? = some j ∧ (j.prepare start.studio start.tree).1 = .ok c
  phase : Untouched start jobs s ∨ Opened start jobs s
  output : ∀ i j, jobs[i]? = some j → s.1.queue.outcome? (start.jobs.length + i) = none →
    s.1.tree.lookup (j.target start.studio.place) =
      start.tree.lookup (j.target start.studio.place)
  ended : ∀ i j o, jobs[i]? = some j → s.1.queue.outcome? (start.jobs.length + i) = some o →
    o = .discarded ∨ o = .ended (j.run p start.studio start.tree).report

section

variable {p : Performer} {start : Floor} {jobs : List Job} {f : Floor} {ready rest : List Nat}

theorem phase_mono {s s' : Standing} (h : Untouched start jobs s ∨ Opened start jobs s)
    (hcalling : s'.1.calling = s.1.calling) (htree : s'.1.tree = s.1.tree)
    (hsub : s'.2 ++ s'.1.queue.pending ⊆ s.2 ++ s.1.queue.pending) :
    Untouched start jobs s' ∨ Opened start jobs s' := by
  rcases h with h | h
  · exact .inl ⟨hcalling.trans h.calling, htree ▸ h.tree⟩
  · obtain ⟨i, hi, hstarted⟩ := h.started
    exact .inr ⟨htree ▸ h.tree, i, hi, fun hmem => hstarted (hsub hmem)⟩

/-- A job that starts does not wait any longer. -/
theorem Seated.not_mem_of_perm (hs : f.Seated ready) {t : Nat} (ht : ready.Perm (t :: rest)) :
    t ∉ rest ++ f.queue.pending := by
  have hnodup := (hs.orderly.perm (ht.append_right _)).nodup
  rw [List.cons_append, List.cons_append, List.nodup_cons, List.append_assoc] at hnodup
  intro hin
  refine hnodup.1 (List.append_subset.mpr ⟨List.subset_append_left _ _, ?_⟩ hin)
  exact List.subset_append_of_subset_right _ (List.subset_append_right _ _)

namespace Isolated

/-! ### What the queue does -/

theorem requeue (h : Isolated p start jobs (f, ready)) {queue : Queue Report}
    (hsub : rest ++ queue.pending ⊆ ready ++ f.queue.pending)
    (hnone : ∀ t, queue.outcome? t = none → f.queue.outcome? t = none)
    (hsome : ∀ i j o, jobs[i]? = some j →
      queue.outcome? (start.jobs.length + i) = some o →
      f.queue.outcome? (start.jobs.length + i) = some o ∨ o = .discarded ∨
        o = .ended (j.run p start.studio start.tree).report) :
    Isolated p start jobs ({ f with queue }, rest) where
  studio := h.studio
  job := h.job
  later := fun t ht => h.later t (hsub ht)
  calls := h.calls
  phase := phase_mono h.phase rfl rfl hsub
  output := fun i j hj ho => h.output i j hj (hnone _ ho)
  ended := fun i j o hj ho => (hsome i j o hj ho).elim (h.ended i j o hj) id

/-- A job may end as it does on its own. -/
theorem finish (h : Isolated p start jobs (f, ready)) {running : List Nat}
    (ho : f.queue.Orderly running) {i : Nat} {j : Job} (hj : jobs[i]? = some j)
    (hi : start.jobs.length + i ∈ running) :
    Isolated p start jobs
      ((f.finish (.queued (start.jobs.length + i)) (j.run p start.studio start.tree).report).1,
        ready ++ entering (f.finish (.queued (start.jobs.length + i))
          (j.run p start.studio start.tree).report).2) := by
  rw [finish_queued, entering_enter]
  refine h.requeue ?_ (fun t ht => ?_) fun k l o hl hset => ?_
  · rw [List.append_assoc]
    exact List.append_subset.mpr ⟨List.subset_append_left _ _,
      List.subset_append_of_subset_right _ (Queue.finish_subset _ _ _)⟩
  · rw [ho.finish_outcome? hi] at ht
    split at ht
    · cases ht
    · exact ht
  · rw [ho.finish_outcome? hi] at hset
    split at hset
    · rename_i hki
      obtain rfl : k = i := by omega
      rw [hj] at hl
      cases hl
      cases hset
      exact .inr (.inr rfl)
    · exact .inl hset

/-! ### A job starts -/

theorem sameView (h : Isolated p start jobs (f, ready)) (apart : Separate start.studio.place jobs)
    (supplied : start.tree.Supplies start.studio.place jobs) {i : Nat} {j : Job}
    (hj : jobs[i]? = some j) (hi : start.jobs.length + i ∈ ready)
    (hnone : f.queue.outcome? (start.jobs.length + i) = none) :
    j.SameView start.studio f.tree start.tree ∧
      (j.withDirectory start.studio f.tree).AgreeBut (j.withDirectory start.studio start.tree)
        start.studio.place jobs := by
  have hmem := List.mem_of_getElem? hj
  have hinput : ∀ path ∈ j.inputs, ∀ k ∈ jobs,
      Path.parts (start.studio.place.resolve path) ≠ k.target start.studio.place :=
    fun path hpath k hk => apart.outside j hmem k hk path hpath
  have hsame := h.output i j hj hnone
  rcases h.phase with hbefore | hafter
  · obtain ⟨hdir, hagree⟩ := apart.outputDirectory_congr hmem hbefore.tree
    refine ⟨apart.sameView hmem (fun path hpath => ?_) hdir hagree hsame, hagree⟩
    exact hbefore.tree _ (hinput path hpath)
  · obtain ⟨hdir, hagree⟩ := apart.outputDirectory_again hmem (hafter.tree j hmem)
    refine ⟨apart.sameView hmem (fun path hpath => ?_) hdir hagree hsame, hagree⟩
    -- another job has started, so there are several, and what they read are files, which stay
    obtain ⟨k, hk, hstarted⟩ := hafter.started
    have hfile : start.tree.isFile (start.studio.place.resolve path) = true := by
      rcases supplied with hone | hfiles
      · obtain ⟨hlt, -⟩ := List.getElem?_eq_some_iff.mp hj
        obtain rfl : k = i := by omega
        exact absurd (List.mem_append_left _ hi) hstarted
      · exact hfiles j hmem path hpath
    obtain ⟨text, mode, hlook⟩ := FileTree.isFile_iff.mp hfile
    have hkept := (start.tree.grows_outputDirectory start.studio.place
      (Path.parent (start.studio.place.resolve j.output))).kept _ _ hlook
    calc f.tree.lookup (Path.parts (start.studio.place.resolve path))
        = (j.withDirectory start.studio start.tree).lookup
            (Path.parts (start.studio.place.resolve path)) :=
          hafter.tree j hmem _ (hinput path hpath)
      _ = start.tree.lookup (Path.parts (start.studio.place.resolve path)) :=
          hkept.trans hlook.symm

theorem exists_ticket (h : Isolated p start jobs (f, ready)) {r : Seat} {j : Job}
    (takes : Takes (f, ready) r j rest) (own : r.ticket? = none → False) :
    ∃ i, r = .queued (start.jobs.length + i) ∧ jobs[i]? = some j ∧
      start.jobs.length + i ∈ ready ∧ ready.Perm ((start.jobs.length + i) :: rest) := by
  cases r with
  | single n => exact absurd rfl own
  | queued t =>
      have ht : t ∈ ready := takes.mem rfl
      obtain ⟨i, rfl⟩ := Nat.exists_eq_add_of_le (h.later t (List.mem_append_left _ ht))
      exact ⟨i, rfl, (h.job i).symm.trans (takes.job _ rfl), ht, takes.ready⟩

theorem enter (h : Isolated p start jobs (f, ready)) (apart : Separate start.studio.place jobs)
    (supplied : start.tree.Supplies start.studio.place jobs) (hs : f.Seated ready) {i : Nat}
    {j : Job} (hj : jobs[i]? = some j) (hi : start.jobs.length + i ∈ ready)
    (hready : ready.Perm ((start.jobs.length + i) :: rest)) {result : Except Setback EngineCall}
    {tree : FileTree} (prep : j.prepare f.studio f.tree = (result, tree)) :
    (j.prepare start.studio start.tree).1 = result ∧
      Isolated p start jobs ({ f with tree }, rest) ∧
      (tree = j.withDirectory start.studio f.tree →
        Opened start jobs ({ f with tree }, rest)) := by
  have hmem := List.mem_of_getElem? hj
  have hstudio : f.studio = start.studio := h.studio
  have hnone := hs.orderly.outcome?_eq_none (List.mem_append_left _ hi)
  obtain ⟨hview, hagree⟩ := h.sameView apart supplied hj hi hnone
  have hrest : rest ⊆ ready := fun u hu => hready.mem_iff.mpr (List.mem_cons_of_mem _ hu)
  have hsub : rest ++ f.queue.pending ⊆ ready ++ f.queue.pending :=
    List.append_subset.mpr
      ⟨List.subset_append_of_subset_left _ hrest, List.subset_append_right _ _⟩
  rw [hstudio] at prep
  have hopened : tree = j.withDirectory start.studio f.tree →
      Opened start jobs ({ f with tree }, rest) := by
    intro htree
    refine ⟨fun k hk => ?_, i, (List.getElem?_eq_some_iff.mp hj).1, hs.not_mem_of_perm hready⟩
    show tree.AgreeBut _ _ _
    rw [htree, apart.withDirectory_eq hk hmem]
    exact hagree
  have htree : tree = f.tree ∨ tree = j.withDirectory start.studio f.tree := by
    simpa only [prep] using j.tree_prepare start.studio f.tree
  refine ⟨by rw [← hview.prepare, prep], ?_, hopened⟩
  exact {
    studio := h.studio
    job := h.job
    later := fun u hu => h.later u (hsub hu)
    calls := h.calls
    phase := htree.elim (fun htree => phase_mono h.phase rfl htree hsub) fun htree =>
      .inr (hopened htree)
    output := fun k l hl ho => by
      rw [← h.output k l hl ho]
      show tree.lookup _ = f.tree.lookup _
      rcases htree with htree | htree
      · rw [htree]
      · rw [htree]
        exact apart.lookup_target hmem (List.mem_of_getElem? hl) f.tree
    ended := h.ended }

/-! ### A job makes its call -/

theorem called (h : Isolated p start jobs (f, ready)) (opened : Opened start jobs (f, ready))
    {i : Nat} {j : Job} {c : EngineCall} (hj : jobs[i]? = some j)
    (hc : (j.prepare start.studio start.tree).1 = .ok c) :
    Isolated p start jobs (f.called f.tree (.queued (start.jobs.length + i)) j c, ready) where
  studio := h.studio
  job := h.job
  later := h.later
  calls := by
    intro r j' c' hx
    rcases List.mem_append.mp hx with hx | hx
    · exact h.calls r j' c' hx
    · obtain ⟨rfl, rfl, rfl⟩ : r = .queued (start.jobs.length + i) ∧ j' = j ∧ c' = c := by
        simpa using List.mem_singleton.mp hx
      exact ⟨i, rfl, hj, hc⟩
  phase := .inr ⟨opened.tree, opened.started⟩
  output := h.output
  ended := h.ended

/-! ### A call is answered -/

theorem opened_of_calls (h : Isolated p start jobs (f, ready)) {x : Seat × Job × EngineCall}
    (hx : x ∈ f.calling) : Opened start jobs (f, ready) := by
  rcases h.phase with hbefore | hafter
  · have hnobody : f.calling = [] := hbefore.calling
    rw [hnobody] at hx
    exact absurd hx List.not_mem_nil
  · exact hafter

/-- A call is answered as it is on its own. -/
theorem perform_eq (h : Isolated p start jobs (f, ready)) (hp : p.Local)
    (apart : Separate start.studio.place jobs) (opened : Opened start jobs (f, ready)) {i : Nat}
    {j : Job} {c : EngineCall} (hj : jobs[i]? = some j)
    (prep : j.prepare start.studio start.tree =
      (.ok c, j.withDirectory start.studio start.tree))
    (hnone : f.queue.outcome? (start.jobs.length + i) = none) :
    (p.perform c f.tree).1 = (p.perform c (j.withDirectory start.studio start.tree)).1 := by
  have hmem := List.mem_of_getElem? hj
  have hparts := Job.parts_output_of_prepare prep
  refine hp.decided c _ _ (fun input hinput => ?_) ?_ ?_
  · obtain ⟨path, hpath, rfl⟩ := Job.mem_inputs_of_prepare prep hinput
    exact opened.tree j hmem _ fun k hk => apart.outside j hmem k hk path hpath
  · show f.tree.lookup (Path.parts c.output) = FileTree.lookup _ (Path.parts c.output)
    rw [hparts]
    exact (h.output i j hj hnone).trans (apart.lookup_target hmem hmem _).symm
  · rw [hparts]
    exact apart.lookup_above hmem (opened.tree j hmem) List.prefix_rfl

/-- A call writes nothing but the output of its job, which is settled then. -/
theorem written (h : Isolated p start jobs (f, ready)) (hp : p.Local)
    (apart : Separate start.studio.place jobs) (opened : Opened start jobs (f, ready)) {i : Nat}
    {j : Job} {c : EngineCall} (hj : jobs[i]? = some j)
    (hparts : Path.parts c.output = j.target start.studio.place)
    (hover : f.queue.outcome? (start.jobs.length + i) ≠ none) (r : Seat) :
    Isolated p start jobs ({ f with
      tree := (p.perform c f.tree).2
      calling := f.calling.filter fun x => x.1 ≠ r }, ready) where
  studio := h.studio
  job := h.job
  later := h.later
  calls := fun r' j' c' hx => h.calls r' j' c' (List.mem_filter.mp hx).1
  phase := by
    refine .inr ⟨fun k hk q hq => ?_, opened.started⟩
    have hother : q ≠ Path.parts c.output := by
      rw [hparts]
      exact hq j (List.mem_of_getElem? hj)
    exact (hp.confined c f.tree q hother).trans (opened.tree k hk q hq)
  output := by
    intro k l hl ho
    have hki : k ≠ i := fun hki => hover (hki ▸ ho)
    have hother : l.target start.studio.place ≠ Path.parts c.output := by
      rw [hparts]
      exact apart.target_ne hl hj hki
    exact (hp.confined c f.tree _ hother).trans (h.output k l hl ho)
  ended := h.ended

theorem answer (h : Isolated p start jobs (f, ready)) (hp : p.Local)
    (apart : Separate start.studio.place jobs) (hs : f.Seated ready) {r : Seat} {j : Job}
    {c : EngineCall} (hc : (r, j, c) ∈ f.calling) :
    Isolated p start jobs ((f.answer p r j c).1, ready ++ entering (f.answer p r j c).2) := by
  obtain ⟨i, rfl, hj, hcall⟩ := h.calls r j c hc
  have prep := Job.prepare_of_call hcall
  have hrunning := running_of_calls hc ready _ rfl
  have hnone := hs.orderly.outcome?_eq_none hrunning
  have hreport : (j.run p start.studio start.tree).report =
      j.conclude c (p.perform c f.tree).1 := by
    rw [Job.run_of_call prep, h.perform_eq hp apart (h.opened_of_calls hc) hj prep hnone]
  -- the job is settled, and then its output is written
  have hfinish := h.finish hs.orderly hj hrunning
  rw [hreport] at hfinish
  have hparts := Job.parts_output_of_prepare prep
  have hover : (f.finish (.queued (start.jobs.length + i))
      (j.conclude c (p.perform c f.tree).1)).1.queue.outcome? (start.jobs.length + i) ≠ none := by
    rw [finish_queued]
    dsimp only
    rw [hs.orderly.finish_outcome? hrunning, if_pos rfl]
    exact Option.some_ne_none _
  have hopened := hfinish.opened_of_calls (by rw [finish_calling]; exact hc)
  exact hfinish.written hp apart hopened hj hparts hover (.queued _)

/-! ### Every effect -/

theorem effect {s s' : Standing} (h : Isolated p start jobs s) (hp : p.Local)
    (apart : Separate start.studio.place jobs)
    (supplied : start.tree.Supplies start.studio.place jobs) (hs : s.1.Seated s.2)
    (e : Effect p False s s') : Isolated p start jobs s' := by
  cases e with
  | aside f ready singles gates =>
      exact ⟨h.studio, h.job, h.later, h.calls,
        phase_mono h.phase rfl rfl (List.Subset.refl _), h.output, h.ended⟩
  | @fails f ready rest r j e tree takes own prep =>
      obtain ⟨i, rfl, hj, hi, hready⟩ := h.exists_ticket takes own
      obtain ⟨hprep, hstart, -⟩ := h.enter apart supplied hs hj hi hready prep
      have hfinish := hstart.finish (f := { f with tree }) hs.orderly hj
        (List.mem_append_left _ hi)
      rwa [Job.report_run_of_error hprep] at hfinish
  | @calls f ready rest r j c tree takes own prep =>
      obtain ⟨i, rfl, hj, hi, hready⟩ := h.exists_ticket takes own
      obtain ⟨hprep, hstart, hopened⟩ := h.enter apart supplied hs hj hi hready prep
      have hstudio : f.studio = start.studio := h.studio
      have htree := Job.tree_of_prepare prep
      rw [hstudio] at htree
      exact hstart.called (hopened htree) hj hprep
  | answers waits => exact h.answer hp apart hs waits
  | @submits f ready more own =>
      obtain rfl : more = [] := by_contra own
      have hsame : f.submit [] = (f, []) := by simp [Floor.submit, starting, Queue.submitMany]
      rw [hsame]
      simpa [entering] using h
  | pauses f ready =>
      exact h.requeue (List.Subset.refl _) (fun _ ht => ht) fun _ _ _ _ ho => .inl ho
  | resumes f ready =>
      show Isolated p start jobs ({ f with queue := f.queue.resume.1 },
        ready ++ entering (f.queue.resume.2.map Turn.enter))
      rw [entering_enter]
      refine h.requeue ?_ (fun t ht => ?_) fun i j o _ ho => ?_
      · rw [List.append_assoc]
        exact List.append_subset.mpr ⟨List.subset_append_left _ _,
          List.subset_append_of_subset_right _ (Queue.resume_subset _)⟩
      · rwa [Queue.resume_outcome?] at ht
      · rw [Queue.resume_outcome?] at ho
        exact .inl ho
  | clears f ready =>
      show Isolated p start jobs ({ f with queue := f.queue.clear.1 }, ready)
      refine h.requeue ?_ (fun t ht => ?_) fun i j o _ ho => ?_
      · rw [Queue.clear_pending, List.append_nil]
        exact List.subset_append_left _ _
      · rw [Queue.clear_outcome?] at ht
        split at ht
        · cases ht
        · exact ht
      · rw [Queue.clear_outcome?] at ho
        split at ho
        · cases ho
          exact .inr (.inl rfl)
        · exact .inl ho

end Isolated

end

/-! ### The whole batch -/

/-- Nobody is at work and nobody waits. -/
structure Idle (f : Floor) : Prop where
  calling : f.calling = []
  pending : f.queue.pending = []

/-- A job that has just been begun is not settled. -/
theorem Seated.undecided {f : Floor} (hs : f.Seated []) (jobs : List Job) (i : Nat) :
    (f.queue.submitMany jobs.length).1.outcome? (f.jobs.length + i) = none := by
  rw [Queue.submitMany_outcome?]
  exact Queue.outcome?_eq_none_of_le (hs.numbered ▸ Nat.le_add_right _ _)

theorem Idle.isolated {f : Floor} (idle : f.Idle) (hs : f.Seated []) (p : Performer)
    (jobs : List Job) (answer : List Report → Response) :
    Isolated p f jobs (standing (undertake p (f, []) (.queued jobs answer)).1) := by
  have hready : standing (undertake p (f, []) (.queued jobs answer)).1 =
      ((f.submit jobs).1, (f.queue.submitMany jobs.length).2) := by
    show ((f.submit jobs).1, entering ((f.queue.submitMany jobs.length).2.map Turn.enter)) = _
    rw [entering_enter]
  rw [hready]
  exact {
    studio := rfl
    job := fun i => by
      show (f.jobs ++ jobs)[f.jobs.length + i]? = _
      rw [List.getElem?_append_right (Nat.le_add_right _ _), Nat.add_sub_cancel_left]
    later := fun t ht => by
      have hnew := f.queue.submitMany_subset jobs.length ht
      rw [idle.pending, hs.numbered] at hnew
      exact hnew.resolve_left List.not_mem_nil
    calls := fun r j c hx => by
      change (r, j, c) ∈ f.calling at hx
      rw [idle.calling] at hx
      exact absurd hx List.not_mem_nil
    phase := .inl ⟨idle.calling, fun q _ => rfl⟩
    output := fun _ _ _ _ => rfl
    ended := fun i j o _ ho => by
      cases (hs.undecided jobs i).symm.trans ho }

/-- A settled job was discarded, or it has the report that it has on its own. -/
theorem Isolated.report_cases {p : Performer} {start : Floor} {jobs : List Job} {f : Floor}
    {ready : List Nat} (h : Isolated p start jobs (f, ready)) {i : Nat} {j : Job}
    (hj : jobs[i]? = some j) {x : Report}
    (hx : f.report? (start.jobs.length + i) = some x) :
    f.queue.outcome? (start.jobs.length + i) = some .discarded ∧ x = j.discarded ∨
      x = (j.run p start.studio start.tree).report := by
  cases ho : f.queue.outcome? (start.jobs.length + i) with
  | none => simp [report?, ho] at hx
  | some o =>
      rcases h.ended i j o hj ho with rfl | rfl
      · rw [report?_discarded ((h.job i).trans hj) ho] at hx
        exact .inl ⟨rfl, (Option.some.inj hx).symm⟩
      · rw [report?_ended ho] at hx
        exact .inr (Option.some.inj hx).symm

/-- A batch is begun on a floor on which nothing goes on, and no other job comes in until it is
answered. Its outputs are different files of one directory, and none of them is an input; the
engine looks only at what it is given. In whatever order the steps are taken, the result of each
file is the one that the file has when it is processed alone, unless its job was discarded. -/
theorem batch_results_as_alone {p : Performer} (hp : p.Local) {limit : Int} {f : Floor}
    (hr : Reached p limit (f, [])) (idle : f.Idle) (named : f.tree.Named) {b : Batch}
    {jobs : List Job} (hjobs : b.jobs f.studio.place f.tree = .ok jobs)
    (apart : Separate f.studio.place jobs) {s' : Next}
    (run : Leads p (undertake p (f, []) (.ofBatch jobs)).1 s')
    (same : SameJobs (undertake p (f, []) (.ofBatch jobs)).1.1 s'.1) {r : Response}
    (hresp : s'.1.response? (undertake p (f, []) (.ofBatch jobs)).2 = some r) :
    ∃ files destination report, b.files f.studio.place f.tree = .ok files ∧
      b.destination = .ok destination ∧ r = .batch report ∧
      report.results.length = files.length ∧
      ∀ i file, files[i]? = some file → ∃ x, report.results[i]? = some x ∧
        ((∀ q, (alone p f.studio q f.tree (b.request destination file).job).singles = [some x]) ∨
          x = (b.job destination file).discarded ∧
            Discards p (undertake p (f, []) (.ofBatch jobs)).1 s' (f.jobs.length + i)) := by
  obtain ⟨files, destination, hfiles, hdestination, rfl⟩ := Batch.jobs_eq_ok.mp hjobs
  obtain ⟨results, rfl, hlen, hreports⟩ := reports_of_response hresp
  have hidle : f.Seated [] := hr.seated
  have hbegin : Leads p (f, [])
      (undertake p (f, []) (.ofBatch (files.map (b.job destination)))).1 := .single (.begin f [] _)
  have hbegun := hr.seated.leads hbegin
  have hisolated := hbegun.induct (I := Isolated p f (files.map (b.job destination)))
    (fun _ _ hs h e => h.effect hp apart (Batch.supplies hjobs named) hs e)
    (idle.isolated hidle p _ _) (hbegun.steady_effects run fun _ => same)
  refine ⟨files, destination, _, hfiles, hdestination, rfl, ?_, fun i file hfile => ?_⟩
  · rw [List.length_map] at hlen
    exact hlen
  have hj : (files.map (b.job destination))[i]? = some (b.job destination file) := by
    rw [List.getElem?_map, hfile, Option.map_some]
  have hi := (List.getElem?_eq_some_iff.mp hj).1
  have hx : results[i]? = some results[i] := List.getElem?_eq_getElem (hlen ▸ hi)
  refine ⟨results[i], hx, ?_⟩
  rcases hisolated.report_cases hj ((hreports i hi).trans hx) with ⟨hdiscarded, heq⟩ | heq
  · refine .inr ⟨heq, discards_of_leads run ?_ hdiscarded⟩
    intro hbefore
    cases (hidle.undecided _ i).symm.trans hbefore
  · refine .inl fun q => ?_
    rw [(alone_eq_run p f.studio q f.tree _).1, heq]
    rfl

/-! ### A batch that is taken in another order -/

/-- A studio with room for two jobs at a time. -/
def wideFloor : Floor := { narrowFloor with queue := { limit := 2, limit_pos := Nat.two_pos } }

/-- Every call waits, and the one for the first sound fails. -/
def codecPerformer : Performer :=
  (Performer.rehearsed [] [("a_processed.mp3", .known "codec")]).patient

/-- The batch is begun, and its second job starts before the first one. -/
def soundsTurned : Next :=
  let second := (wideFloor.submit soundsJobs).1.step codecPerformer (.enter 1)
  (second.1, [.enter 0] ++ [] ++ second.2)

def soundsOutput (path : String) : String := derivedOutput path "/out" defaultSuffix none

theorem codecPerformer_local : codecPerformer.Local := (Performer.local_rehearsed _ _).patient

theorem wideFloor_reached (p : Performer) : Reached p 2 (wideFloor, []) :=
  ⟨_, _, _, twoSounds_grounded, rfl, .refl⟩

theorem twoSounds_named : twoSounds.Named := FileTree.named_of_entries (by decide)

theorem soundsJobs_separate : Separate narrowFloor.studio.place soundsJobs where
  distinct := by decide +kernel
  together := by decide +kernel
  outside := by decide +kernel

theorem soundsTurned_response :
    (complete codecPerformer soundsTurned).response?
        (undertake codecPerformer (wideFloor, []) (.ofBatch soundsJobs)).2 =
      some (.batch (.ofResults
        [(soundsJob "/in/a.mp3" "/out/a_processed.mp3").report "/out/a_processed.mp3"
            (some "codec"),
          (soundsJob "/in/b.wav" "/out/b_processed.wav").report "/out/b_processed.wav" none])) := by
  decide +kernel

/-- The first result tells of the failure and the second one of a success, as they do when each
sound is processed alone. -/
theorem sounds_as_alone :
    ∃ s' x y, Leads codecPerformer soundsTurned s' ∧
      s'.1.response? (undertake codecPerformer (wideFloor, []) (.ofBatch soundsJobs)).2 =
        some (.batch (.ofResults [x, y])) ∧
      x.error = some "codec" ∧ y.success = true ∧
      (∀ q, (alone codecPerformer wideFloor.studio q twoSounds
        (soundsJob "/in/a.mp3" "/out/a_processed.mp3")).singles = [some x]) ∧
      ∀ q, (alone codecPerformer wideFloor.studio q twoSounds
        (soundsJob "/in/b.wav" "/out/b_processed.wav")).singles = [some y] := by
  have hturned : Leads codecPerformer
      (undertake codecPerformer (wideFloor, []) (.ofBatch soundsJobs)).1 soundsTurned :=
    .single (.turn _ [.enter 0] (.enter 1) [])
  have hsame : SameJobs (undertake codecPerformer (wideFloor, []) (.ofBatch soundsJobs)).1.1
      (complete codecPerformer soundsTurned) := ⟨by decide +kernel, by decide +kernel⟩
  have hresp := soundsTurned_response
  obtain ⟨rest, run⟩ := leads_complete codecPerformer soundsTurned
  -- what the run comes to is known by now, and is not to be evaluated again
  generalize complete codecPerformer soundsTurned = f at hsame hresp run
  obtain ⟨files, destination, report, hfiles, hdestination, hreport, -, hresults⟩ :=
    batch_results_as_alone codecPerformer_local (wideFloor_reached _) ⟨rfl, rfl⟩ twoSounds_named
      soundsBatch_jobs soundsJobs_separate (hturned.trans run) hsame hresp
  have hfound : soundsBatch.files wideFloor.studio.place wideFloor.tree =
      .ok ["/in/a.mp3", "/in/b.wav"] := by decide +kernel
  have hbeside : soundsBatch.destination = .ok soundsOutput := rfl
  obtain rfl := Except.ok.inj (hfound.symm.trans hfiles)
  obtain rfl := Except.ok.inj (hbeside.symm.trans hdestination)
  obtain rfl := Response.batch.inj hreport
  have hjob : (soundsBatch.request soundsOutput "/in/a.mp3").job =
      soundsJob "/in/a.mp3" "/out/a_processed.mp3" := by decide +kernel
  have hjob' : (soundsBatch.request soundsOutput "/in/b.wav").job =
      soundsJob "/in/b.wav" "/out/b_processed.wav" := by decide +kernel
  obtain ⟨x, hx, hfirst⟩ := hresults 0 "/in/a.mp3" rfl
  obtain ⟨y, hy, hsecond⟩ := hresults 1 "/in/b.wav" rfl
  obtain rfl := Option.some.inj hx
  obtain rfl := Option.some.inj hy
  rw [hjob] at hfirst
  rw [hjob'] at hsecond
  refine ⟨(f, rest), _, _, run, hresp, rfl, rfl, ?_, ?_⟩
  · exact hfirst.resolve_right fun h => absurd (congrArg Report.error h.1) (by decide +kernel)
  · exact hsecond.resolve_right fun h => absurd (congrArg Report.error h.1) (by decide +kernel)

end Floor

end Soundworks
