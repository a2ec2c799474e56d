import Soundworks.Proofs.Fallible
import Soundworks.Proofs.Studio.Seating
/-!
What the queue tells of its jobs. A result tells of the job it was settled with, whatever the
engine did, and a job that is settled stays so. The results of jobs that were begun together
stand in the order of the jobs.
-/

namespace Soundworks

/-- A report names the inputs of a job in their order, its operations, and its output as it was
given or as an absolute path. -/
structure Report.TellsOf (x : Report) (s : Studio) (j : Job) : Prop where
  input : x.inputPath = ", ".intercalate j.inputs
  operations : x.operations = j.operations
  output : x.outputPath = j.output ∨ x.outputPath = s.place.resolve j.output

namespace Job

theorem tellsOf_report (j : Job) (s : Studio) {output : String}
    (h : output = j.output ∨ output = s.place.resolve j.output) (error : Option String) :
    (j.report output error).TellsOf s j := ⟨rfl, rfl, h⟩

/-- A job that makes no call has its output as it was given, or its absolute path. -/
theorem output_of_setback {j : Job} {s : Studio} {t t' : FileTree} {e : Setback}
    (h : j.prepare s t = (.error e, t')) :
    e.output = j.output ∨ e.output = s.place.resolve j.output := by
  unfold prepare at h
  split at h
  · cases h
    exact .inl rfl
  · split at h
    · cases h
      exact .inl rfl
    · rename_i output _ houtput
      obtain ⟨hcall, -⟩ := Prod.mk.inj h
      have hpath : e.output = output := by
        cases hc : j.call s _ _ output with
        | error cause =>
            rw [hc] at hcall
            cases hcall
            rfl
        | ok c =>
            rw [hc] at hcall
            cases hcall
      rw [hpath]
      exact .inr (FileTree.eq_resolve_of_output houtput)

theorem tellsOf_failed {j : Job} {s : Studio} {t t' : FileTree} {e : Setback}
    (h : j.prepare s t = (.error e, t')) : (j.failed e).TellsOf s j :=
  j.tellsOf_report s (output_of_setback h) _

theorem tellsOf_conclude {j : Job} {s : Studio} {c : EngineCall}
    (h : c.output = s.place.resolve j.output) (result : Except Failure Unit) :
    (j.conclude c result).TellsOf s j := by
  cases result with
  | ok u => exact j.tellsOf_report s (.inr h) _
  | error f => exact j.tellsOf_report s (.inr h) _

end Job

theorem Batch.jobs_eq_ok {b : Batch} {w : Workplace} {t : FileTree} {jobs : List Job} :
    b.jobs w t = .ok jobs ↔ ∃ files destination, b.files w t = .ok files ∧
      b.destination = .ok destination ∧ jobs = files.map (b.job destination) := by
  unfold Batch.jobs
  simp only [Fallible.bind_eq_ok, Fallible.pure_eq_ok]
  constructor
  · rintro ⟨files, hfiles, destination, hdestination, rfl⟩
    exact ⟨files, destination, hfiles, hdestination, rfl⟩
  · rintro ⟨files, destination, hfiles, hdestination, rfl⟩
    exact ⟨files, hfiles, destination, hdestination, rfl⟩

namespace Floor

/-! ### What an outcome tells -/

/-- Every outcome of a job tells of it. -/
def Told (f : Floor) : Prop :=
  ∀ t x, f.queue.outcome? t = some (.ended x) → ∃ j, f.jobs[t]? = some j ∧ x.TellsOf f.studio j

theorem Told.effect {p : Performer} {adds : Prop} {s s' : Standing} (hs : s.1.Seated s.2)
    (h : s.1.Told) (e : Effect p adds s s') : s'.1.Told := by
  intro t x hx
  rw [e.keeps.studio]
  rcases hs.ended e hx with hx | ⟨j, hj, ⟨setback, tree, prep, rfl⟩ | ⟨c, waits, rfl, -⟩⟩
  · obtain ⟨j, hj, htells⟩ := h t x hx
    exact ⟨j, e.keeps.job hj, htells⟩
  · exact ⟨j, e.keeps.job hj, Job.tellsOf_failed prep⟩
  · exact ⟨j, e.keeps.job hj, Job.tellsOf_conclude (hs.addressed _ waits) _⟩

theorem Reached.told {p : Performer} {limit : Int} {s : Next} (h : Reached p limit s) :
    s.1.Told := by
  obtain ⟨studio, tree, queue, -, hq, run⟩ := h
  have hfresh := seated_fresh studio tree hq
  refine hfresh.induct (I := fun s => s.1.Told) (fun _ _ hs h e => h.effect hs e) ?_
    (Seated.leads_effects (s := ({ studio, queue, tree }, [])) hfresh run)
  intro t x hx
  have hlt : t < queue.nextTicket := Queue.lt_nextTicket_of_outcome? hx
  rw [Queue.nextTicket_of_ofLimit? hq] at hlt
  exact absurd hlt (Nat.not_lt_zero t)

/-! ### Outcomes last -/

theorem outcome?_finish {f : Floor} {running : List Nat} (ho : f.queue.Orderly running)
    {r : Seat} (hr : ∀ t, r = .queued t → t ∈ running) (x : Report) {t : Nat}
    {o : Outcome Report} (h : f.queue.outcome? t = some o) :
    (f.finish r x).1.queue.outcome? t = some o := by
  cases r with
  | single n => exact h
  | queued u =>
      rw [finish_queued]
      dsimp only
      rw [ho.finish_outcome? (hr u rfl), if_neg]
      · exact h
      · rintro rfl
        rw [ho.outcome?_eq_none (hr t rfl)] at h
        cases h

/-- A job that is settled stays so. -/
theorem Seated.outcome?_effect {p : Performer} {adds : Prop} {s s' : Standing}
    (hs : s.1.Seated s.2) (e : Effect p adds s s') {t : Nat} {o : Outcome Report}
    (h : s.1.queue.outcome? t = some o) : s'.1.queue.outcome? t = some o := by
  cases e with
  | aside f ready singles gates => exact h
  | @fails f ready rest r j e tree takes own prep =>
      exact outcome?_finish (f := { f with tree }) hs.orderly takes.running _ h
  | calls takes own prep => exact h
  | @answers f ready r j c waits =>
      exact outcome?_finish (f := { f with
        tree := (p.perform c f.tree).2
        calling := f.calling.filter fun x => x.1 ≠ r })
        hs.orderly (running_of_calls waits ready) _ h
  | @submits f ready jobs own => exact (Queue.submitMany_outcome? f.queue jobs.length t).trans h
  | pauses f ready => exact h
  | resumes f ready => exact (Queue.resume_outcome? f.queue t).trans h
  | clears f ready =>
      show f.queue.clear.1.outcome? t = some o
      rw [Queue.clear_outcome?, if_neg]
      · exact h
      · rintro ⟨-, -, hnone⟩
        rw [show f.queue.outcome? t = some o from h] at hnone
        cases hnone

theorem Seated.outcome?_effects {p : Performer} {adds : Prop} {s s' : Standing}
    (hs : s.1.Seated s.2) (run : Effects p adds s s') {t : Nat} {o : Outcome Report}
    (h : s.1.queue.outcome? t = some o) : s'.1.queue.outcome? t = some o :=
  hs.induct (I := fun s => s.1.queue.outcome? t = some o) (fun _ _ hs h e => hs.outcome?_effect e h)
    h run

theorem Seated.outcome?_leads {p : Performer} {s s' : Next}
    (hs : (standing s).1.Seated (standing s).2) (run : Leads p s s') {t : Nat}
    {o : Outcome Report} (h : s.1.queue.outcome? t = some o) :
    s'.1.queue.outcome? t = some o := hs.outcome?_effects (hs.leads_effects run) h

/-! ### What is discarded -/

/-- A job was discarded: it was waiting when the queue was cleared. -/
def Discards (p : Performer) (s s' : Next) (t : Nat) : Prop :=
  ∃ m, Leads p s m ∧ t ∈ m.1.queue.unsettled ∧ Leads p (undertake p m .clear).1 s'

section

variable {p : Performer} {f : Floor} {t : Nat} {o : Outcome Report}

/-! A turn settles a job only with its result. -/

theorem unended_finish (ho : ∀ x, o ≠ .ended x) {r : Seat} {x : Report}
    (h : (f.finish r x).1.queue.outcome? t = some o) : f.queue.outcome? t = some o := by
  cases r with
  | single n => exact h
  | queued u =>
      rw [finish_queued] at h
      dsimp only at h
      rw [Queue.finish_eq, Queue.drain_outcome?, Queue.vacate_outcome?] at h
      exact (Queue.outcome?_settle_iff (ho x)).mp h

theorem unended_answer (ho : ∀ x, o ≠ .ended x) {r : Seat} {j : Job} {c : EngineCall}
    (h : (f.answer p r j c).1.queue.outcome? t = some o) : f.queue.outcome? t = some o := by
  rw [answer_eq] at h
  exact unended_finish (f := { f with
    tree := (p.perform c f.tree).2
    calling := f.calling.filter fun x => x.1 ≠ r }) ho h

theorem unended_enter (ho : ∀ x, o ≠ .ended x) {r : Seat} {j : Job}
    (h : (f.enter p r j).1.queue.outcome? t = some o) : f.queue.outcome? t = some o := by
  rcases hprep : j.prepare f.studio f.tree with ⟨e | c, tree⟩
  · rw [enter_of_error p r hprep] at h
    exact unended_finish (f := { f with tree }) ho h
  · rcases enter_of_call p r hprep with ⟨gate, -, heq⟩ | heq
    · rw [heq] at h
      exact h
    · rw [heq] at h
      exact unended_answer (f := f.called tree r j c) ho h

theorem unended_step (ho : ∀ x, o ≠ .ended x) {i : Turn}
    (h : (f.step p i).1.queue.outcome? t = some o) : f.queue.outcome? t = some o := by
  cases i with
  | enter u =>
      cases hj : f.jobs[u]? with
      | none =>
          rw [step, hj] at h
          exact h
      | some j =>
          rw [step_enter hj] at h
          exact unended_enter ho h
  | answer r =>
      rcases step_answer_cases p f r with ⟨j, c, -, heq⟩ | heq
      · rw [heq] at h
        exact unended_answer ho h
      · rw [heq] at h
        exact h

/-- Only clearing the queue discards a job, and only one that waits. -/
theorem Move.discarded {s s' : Next} (m : Move p s s')
    (h : s'.1.queue.outcome? t = some .discarded) :
    s.1.queue.outcome? t = some .discarded ∨
      t ∈ s.1.queue.unsettled ∧ s' = (undertake p s .clear).1 := by
  cases m with
  | turn f before i after => exact .inl (unended_step (by simp) h)
  | wake f turns r waiting => exact .inl h
  | begin f turns a =>
      cases a with
      | reply r => exact .inl h
      | status => exact .inl h
      | pause => exact .inl h
      | single j answer =>
          exact .inl (unended_enter (f := { f with singles := f.singles ++ [none] }) (by simp) h)
      | queued jobs answer =>
          exact .inl ((Queue.submitMany_outcome? f.queue jobs.length t).symm.trans h)
      | resume => exact .inl ((Queue.resume_outcome? f.queue t).symm.trans h)
      | clear =>
          change f.queue.clear.1.outcome? t = some .discarded at h
          rw [Queue.clear_outcome?] at h
          split at h
          · rename_i hwaits
            exact .inr ⟨Queue.mem_unsettledIn.mpr ⟨hwaits.1, hwaits.2.2⟩, rfl⟩
          · exact .inl h

/-- A job that a run has discarded was waiting when the queue was cleared. -/
theorem discards_of_leads {s s' : Next} (run : Leads p s s')
    (hbefore : s.1.queue.outcome? t ≠ some .discarded)
    (h : s'.1.queue.outcome? t = some .discarded) : Discards p s s' t := by
  induction run with
  | refl => exact absurd h hbefore
  | @tail m m' run last ih =>
      rcases last.discarded h with hm | ⟨hwaits, rfl⟩
      · obtain ⟨m₀, hm₀, hwaits, hafter⟩ := ih hm
        exact ⟨m₀, hm₀, hwaits, hafter.tail last⟩
      · exact ⟨m, run, hwaits, .refl⟩

end

/-! ### The results of jobs that were begun together -/

/-- A report tells how its job ended, or that it never started. -/
theorem report?_cases {f : Floor} {t : Nat} {x : Report} (h : f.report? t = some x) :
    f.queue.outcome? t = some (.ended x) ∨
      ∃ j error, f.jobs[t]? = some j ∧ x = j.report j.output (some error) := by
  unfold report? at h
  split at h
  · cases h
  · cases h
    exact .inl ‹_›
  · obtain ⟨j, hj, rfl⟩ := Option.map_eq_some_iff.mp h
    exact .inr ⟨j, _, hj, rfl⟩
  · obtain ⟨j, hj, rfl⟩ := Option.map_eq_some_iff.mp h
    exact .inr ⟨j, _, hj, rfl⟩

theorem report?_ended {f : Floor} {t : Nat} {x : Report}
    (h : f.queue.outcome? t = some (.ended x)) : f.report? t = some x := by
  simp [report?, h]

theorem report?_discarded {f : Floor} {t : Nat} {j : Job} (hj : f.jobs[t]? = some j)
    (h : f.queue.outcome? t = some .discarded) : f.report? t = some j.discarded := by
  simp [report?, h, hj]

theorem exists_report?_iff {f : Floor} {t : Nat} {j : Job} (hj : f.jobs[t]? = some j) :
    (∃ x, f.report? t = some x) ↔ f.queue.isSettled t = true := by
  unfold report? Queue.isSettled
  rcases f.queue.outcome? t with _ | x | _ | _ <;> simp [hj]

theorem Told.of_report {f : Floor} (h : f.Told) {t : Nat} {j : Job} (hj : f.jobs[t]? = some j)
    {x : Report} (hx : f.report? t = some x) : x.TellsOf f.studio j := by
  rcases report?_cases hx with ho | ⟨j', error, hj', rfl⟩
  · obtain ⟨j', hj', htells⟩ := h t x ho
    rw [hj] at hj'
    cases hj'
    exact htells
  -- a job that never started has its output as it was given
  · rw [hj] at hj'
    cases hj'
    exact j.tellsOf_report _ (.inl rfl) _

/-- The reports of jobs that were begun together belong to the jobs, one by one. -/
theorem forall₂_of_reports {f : Floor} {R : Report → Job → Prop}
    (h : ∀ {t j x}, f.jobs[t]? = some j → f.report? t = some x → R x j) {base : Nat}
    {jobs : List Job} {results : List Report} (hlen : results.length = jobs.length)
    (hjobs : ∀ i j, jobs[i]? = some j → f.jobs[base + i]? = some j)
    (hreports : ∀ i < jobs.length, f.report? (base + i) = results[i]?) :
    List.Forall₂ R results jobs := by
  rw [List.forall₂_iff_get]
  refine ⟨hlen, fun i hi hi' => ?_⟩
  have hj : f.jobs[base + i]? = some jobs[i] := hjobs i _ (List.getElem?_eq_getElem hi')
  refine h hj ?_
  rw [hreports i hi', List.getElem?_eq_getElem hi]
  rfl

theorem job_of_undertake (p : Performer) (s : Next) {jobs : List Job}
    (answer : List Report → Response) {i : Nat} {j : Job} (hj : jobs[i]? = some j) :
    (undertake p s (.queued jobs answer)).1.1.jobs[s.1.jobs.length + i]? = some j := by
  show (s.1.jobs ++ jobs)[s.1.jobs.length + i]? = _
  rw [List.getElem?_append_right (Nat.le_add_right _ _), Nat.add_sub_cancel_left, hj]

theorem exists_response_iff {p : Performer} {s : Next} {jobs : List Job}
    {answer : List Report → Response} {f : Floor} :
    (∃ r, f.response? (undertake p s (.queued jobs answer)).2 = some r) ↔
      ∀ i < jobs.length, ∃ x, f.report? (s.1.jobs.length + i) = some x := by
  show (∃ r, (f.reports? ((List.range jobs.length).map (s.1.jobs.length + ·))).map answer =
    some r) ↔ _
  have hsome : ∀ xs : Option (List Report),
      (∃ r, xs.map answer = some r) ↔ ∃ ys, xs = some ys := by
    intro xs
    cases xs <;> simp
  rw [hsome, reports?, Fallible.exists_mapM_eq_some]
  simp

/-- The results of jobs that were begun together are their reports, in the order of the jobs. -/
theorem reports_of_response {p : Performer} {s : Next} {jobs : List Job}
    {answer : List Report → Response} {f : Floor} {r : Response}
    (h : f.response? (undertake p s (.queued jobs answer)).2 = some r) :
    ∃ results, r = answer results ∧ results.length = jobs.length ∧
      ∀ i < jobs.length, f.report? (s.1.jobs.length + i) = results[i]? := by
  obtain ⟨results, hresults, rfl⟩ := Option.map_eq_some_iff.mp h
  have hmap := Fallible.mapM_eq_some.mp hresults
  have hlen : jobs.length = results.length := by simpa using congrArg List.length hmap
  refine ⟨results, rfl, hlen.symm, fun i hi => ?_⟩
  have hat := congrArg (·[i]?) hmap
  have hi' : i < results.length := hlen ▸ hi
  simpa [hi, hi'] using hat

end Floor

end Soundworks
