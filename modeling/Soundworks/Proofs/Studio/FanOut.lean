import Soundworks.Proofs.Studio.Performer
import Soundworks.Proofs.Studio.Results
/-!
Requests whose jobs go through the queue together. Each one is answered as soon as all its jobs
are settled, with one result for each job in the order of the jobs, whatever other requests are
under way and in whatever order the jobs end. A job that was discarded has its result in its own
place, and the counts of a batch always add up.
-/

namespace Soundworks

/-- A request whose jobs go through the queue together. -/
inductive FanOut where
  | batch (b : Batch)
  | variations (chosenSeed : Int) (inputPath directory : String) (ranges : VariationRanges)
      (base : OperationSet) (overwrite : Bool)
  | harmonics (inputPath directory : String) (h : Harmonics) (overwrite : Bool)

/-- What is to be done for a request, unless it is refused. -/
def FanOut.action (s : Studio) (t : FileTree) : FanOut → Except Refusal Action
  | .batch b => (b.jobs s.place t).map .ofBatch
  | .variations seed inputPath directory ranges base overwrite =>
    (s.variations t seed inputPath directory ranges base overwrite).map .ofVariations
  | .harmonics inputPath directory h overwrite =>
    (s.harmonics t inputPath directory h overwrite).map .ofHarmonics

def Response.results? : Response → Option (List Report)
  | .batch r => some r.results
  | .variations r => some r.results
  | .harmonics r => some r.results
  | _ => none

/-- A batch report counts the files, and those whose results are successes. -/
structure BatchReport.Counts (r : BatchReport) (files : List String) : Prop where
  total : r.total = files.length
  successful : r.successful = r.results.countP (·.success)
  sum : r.total = r.successful + r.failed
  accepted : r.review = []

namespace FanOut

/-- A request that is not refused lists the results of its jobs. -/
theorem exists_queued {q : FanOut} {s : Studio} {t : FileTree} {a : Action}
    (h : q.action s t = .ok a) :
    ∃ jobs answer, a = .queued jobs answer ∧ ∀ rs, (answer rs).results? = some rs := by
  cases q with
  | batch b =>
      obtain ⟨jobs, -, rfl⟩ := Fallible.map_eq_ok.mp h
      exact ⟨jobs, _, rfl, fun _ => rfl⟩
  | variations seed inputPath directory ranges base overwrite =>
      obtain ⟨set, -, rfl⟩ := Fallible.map_eq_ok.mp h
      exact ⟨set.2, _, rfl, fun _ => rfl⟩
  | harmonics inputPath directory h overwrite =>
      obtain ⟨jobs, -, rfl⟩ := Fallible.map_eq_ok.mp h
      exact ⟨jobs, _, rfl, fun _ => rfl⟩

theorem batch_of_action {b : Batch} {s : Studio} {t : FileTree} {jobs : List Job}
    {answer : List Report → Response}
    (h : (FanOut.batch b).action s t = .ok (.queued jobs answer)) :
    b.jobs s.place t = .ok jobs ∧ answer = fun rs => .batch (.ofResults rs) := by
  obtain ⟨jobs', hjobs, heq⟩ := Fallible.map_eq_ok.mp h
  obtain ⟨rfl, rfl⟩ : jobs' = jobs ∧ (fun rs => .batch (.ofResults rs)) = answer := by
    simpa [Action.ofBatch] using heq
  exact ⟨hjobs, rfl⟩

end FanOut

theorem BatchReport.counts_ofResults {results : List Report} {files : List String}
    (h : results.length = files.length) : (BatchReport.ofResults results).Counts files where
  total := by simp [ofResults, h]
  successful := rfl
  sum := by
    simp only [ofResults]
    omega
  accepted := by
    refine if_pos ?_
    simp only [ofResults]
    omega

namespace Floor

theorem forall₂_tellsOf {f : Floor} (h : f.Told) {base : Nat} {jobs : List Job}
    {results : List Report} (hlen : results.length = jobs.length)
    (hjobs : ∀ i j, jobs[i]? = some j → f.jobs[base + i]? = some j)
    (hreports : ∀ i < jobs.length, f.report? (base + i) = results[i]?) :
    List.Forall₂ (fun x j => x.TellsOf f.studio j) results jobs :=
  forall₂_of_reports (fun hj hx => h.of_report hj hx) hlen hjobs hreports

/-- A job that waits when the queue is cleared is discarded for good. -/
theorem Seated.report_of_clear {p : Performer} {m s' : Next}
    (h : (standing m).1.Seated (standing m).2) {t : Nat} (ht : t ∈ m.1.queue.unsettled)
    (run : Leads p (undertake p m .clear).1 s') {j : Job} (hj : s'.1.jobs[t]? = some j) :
    s'.1.report? t = some j.discarded := by
  obtain ⟨hpending, hnone⟩ := Queue.mem_unsettledIn.mp ht
  have hknown := h.orderly.known t (List.mem_append_right _ hpending)
  have hdiscarded : (undertake p m .clear).1.1.queue.outcome? t = some .discarded := by
    show m.1.queue.clear.1.outcome? t = some .discarded
    rw [Queue.clear_outcome?, if_pos ⟨hpending, hknown, hnone⟩]
  have hclear : Leads p m (undertake p m .clear).1 := .single (.begin m.1 m.2 .clear)
  exact report?_discarded hj ((h.leads hclear).outcome?_leads run hdiscarded)

/-- A request whose jobs go through the queue together is answered as soon as all of them are
settled. Its results tell of its jobs, one of each, in their order; a job that was discarded
fails in its own place. The report of a batch counts its files. -/
theorem results_match_jobs {p : Performer} {limit : Int} {s : Next} (hr : Reached p limit s)
    {q : FanOut} {a : Action} (ha : q.action s.1.studio s.1.tree = .ok a) {s' : Next}
    (run : Leads p (undertake p s a).1 s') :
    ∃ jobs answer, a = .queued jobs answer ∧
      ((∃ r, s'.1.response? (undertake p s a).2 = some r) ↔
        ∀ i < jobs.length, s'.1.queue.isSettled (s.1.jobs.length + i) = true) ∧
      ∀ r, s'.1.response? (undertake p s a).2 = some r →
        ∃ results, r.results? = some results ∧
          List.Forall₂ (fun x j => x.TellsOf s.1.studio j) results jobs ∧
          (∀ i < jobs.length, ∀ m, Leads p (undertake p s a).1 m →
            s.1.jobs.length + i ∈ m.1.queue.unsettled → Leads p (undertake p m .clear).1 s' →
            ∃ x, results[i]? = some x ∧ x.success = false ∧ x.error = some discardMessage) ∧
          ∀ b, q = .batch b → ∃ files destination report,
            b.files s.1.studio.place s.1.tree = .ok files ∧
            b.destination = .ok destination ∧ jobs = files.map (b.job destination) ∧
            r = .batch report ∧ report.Counts files := by
  obtain ⟨jobs, answer, rfl, hanswer⟩ := FanOut.exists_queued ha
  have hbegin : Leads p s (undertake p s (.queued jobs answer)).1 :=
    .single (.begin s.1 s.2 _)
  have hkeeps := Leads.keeps (hbegin.trans run)
  have hjob : ∀ i j, jobs[i]? = some j → s'.1.jobs[s.1.jobs.length + i]? = some j :=
    fun i j hj => (Leads.keeps run).job (job_of_undertake p s answer hj)
  refine ⟨jobs, answer, rfl, ?_, fun r hresp => ?_⟩
  · rw [exists_response_iff]
    refine forall₂_congr fun i hi => ?_
    exact exists_report?_iff (hjob i _ (List.getElem?_eq_getElem hi))
  obtain ⟨results, rfl, hlen, hreports⟩ := reports_of_response hresp
  have htells := forall₂_tellsOf (hr.leads (hbegin.trans run)).told hlen hjob hreports
  rw [hkeeps.studio] at htells
  refine ⟨results, hanswer results, htells, ?_, ?_⟩
  -- the job stays discarded until the end, and its report is the result in its place
  · intro i hi m hm hwaits hcleared
    have hseated := (hr.seated.leads hbegin).leads hm
    have hdiscarded := hseated.report_of_clear hwaits hcleared
      (hjob i _ (List.getElem?_eq_getElem hi))
    exact ⟨_, (hreports i hi).symm.trans hdiscarded, rfl, rfl⟩
  · rintro b rfl
    obtain ⟨hjobs, rfl⟩ := FanOut.batch_of_action ha
    obtain ⟨files, destination, hfiles, hdestination, rfl⟩ := Batch.jobs_eq_ok.mp hjobs
    refine ⟨files, destination, _, hfiles, hdestination, rfl, rfl, ?_⟩
    exact BatchReport.counts_ofResults (by simpa using hlen)

/-! ### A batch that is cleared -/

def twoSounds : FileTree :=
  ((FileTree.empty.put ["in"] .directory).put ["in", "a.mp3"] (.file "RIFF" 0o644)).put
    ["in", "b.wav"] (.file "RIFF" 0o644)

/-- A studio with room for one job at a time. -/
def narrowFloor : Floor where
  studio := ⟨⟨"/", "/root", {}⟩, .basic⟩
  queue := { limit := 1, limit_pos := Nat.zero_lt_one }
  tree := twoSounds

def soundsBatch : Batch where
  inputDirectory := some "/in"
  outputDirectory := some "/out"
  operations := {}

def soundsJob (input output : String) : Job where
  inputs := [input]
  output := output
  operations := {}

def soundsJobs : List Job :=
  [soundsJob "/in/a.mp3" "/out/a_processed.mp3", soundsJob "/in/b.wav" "/out/b_processed.wav"]

/-- Every call waits, and the one for the first sound fails without saying why. -/
def mutePerformer : Performer :=
  (Performer.rehearsed [] [("a_processed.mp3", .known "")]).patient

/-- The batch is begun, its first job has made its call, and then the queue is cleared. -/
def soundsBegun : Next × Task := undertake mutePerformer (narrowFloor, []) (.ofBatch soundsJobs)

def soundsCalling : Next := (narrowFloor.submit soundsJobs).1.step mutePerformer (.enter 0)

def soundsCleared : Next := (undertake mutePerformer soundsCalling .clear).1

theorem twoSounds_grounded : twoSounds.Grounded := FileTree.grounded_of_entries (by decide)

theorem narrowFloor_reached (p : Performer) : Reached p 1 (narrowFloor, []) :=
  ⟨_, _, _, twoSounds_grounded, rfl, .refl⟩

theorem soundsBatch_jobs :
    soundsBatch.jobs narrowFloor.studio.place narrowFloor.tree = .ok soundsJobs := by
  rfl

theorem soundsBegun_calling : Leads mutePerformer soundsBegun.1 soundsCalling :=
  .single (.turn _ [] (.enter 0) [])

theorem soundsCleared_response :
    (complete mutePerformer soundsCleared).response? soundsBegun.2 =
      some (.batch (.ofResults
        [(soundsJob "/in/a.mp3" "/out/a_processed.mp3").report "/out/a_processed.mp3" (some ""),
          (soundsJob "/in/b.wav" "/out/b_processed.wav").discarded])) := by
  decide +kernel

/-- The first result tells that its call has failed, and the second one that its job was
discarded. -/
theorem results_of_cleared_sounds :
    ∃ s' x y, Leads mutePerformer soundsCleared s' ∧
      s'.1.response? soundsBegun.2 = some (.batch (.ofResults [x, y])) ∧ x.error = some "" ∧
      x.TellsOf narrowFloor.studio (soundsJob "/in/a.mp3" "/out/a_processed.mp3") ∧
      y.TellsOf narrowFloor.studio (soundsJob "/in/b.wav" "/out/b_processed.wav") ∧
      y.success = false ∧ y.error = some discardMessage := by
  obtain ⟨rest, run⟩ := leads_complete mutePerformer soundsCleared
  have hclear : Leads mutePerformer soundsBegun.1 soundsCleared :=
    soundsBegun_calling.tail (.begin _ _ .clear)
  obtain ⟨jobs, answer, ha, -, hresults⟩ := results_match_jobs (narrowFloor_reached _)
    (q := .batch soundsBatch) (a := .ofBatch soundsJobs) rfl (hclear.trans run)
  obtain rfl : soundsJobs = jobs := by
    cases ha
    rfl
  obtain ⟨results, hr, htells, hcleared, -⟩ := hresults _ soundsCleared_response
  cases hr
  obtain ⟨y, hy, hfails, herror⟩ := hcleared 1 (by decide) soundsCalling soundsBegun_calling
    (by decide +kernel) run
  obtain ⟨hx, hrest⟩ := List.forall₂_cons.mp htells
  cases hy
  exact ⟨_, _, _, run, soundsCleared_response, rfl, hx, (List.forall₂_cons.mp hrest).1, hfails,
    herror⟩

end Floor

end Soundworks
