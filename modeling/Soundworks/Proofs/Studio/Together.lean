import Soundworks.Proofs.Job.Run
import Soundworks.Proofs.Studio.Completion
/-!
Jobs that are begun together on a fresh floor. Once the floor is at rest, each of them has ended
with its own report: either it could not be prepared, or its call was made and answered. The
reports stand in the order of the jobs.
-/

namespace Soundworks

/-- How a job can end: it could not be prepared, or its call was answered. The files are those of
the moment in which that happened. -/
inductive Job.EndsWith (p : Performer) (s : Studio) (calls : List EngineCall) (j : Job) :
    Report → Prop
  | failed {e : Setback} {t t' : FileTree} :
      j.prepare s t = (.error e, t') → j.EndsWith p s calls (j.failed e)
  | answered {c : EngineCall} {t t' : FileTree} (tree : FileTree) :
      j.prepare s t = (.ok c, t') → c ∈ calls →
      j.EndsWith p s calls (j.conclude c (p.perform c tree).1)

theorem Job.EndsWith.mono {p : Performer} {s : Studio} {calls calls' : List EngineCall} {j : Job}
    {x : Report} (h : j.EndsWith p s calls x) (hsub : calls ⊆ calls') :
    j.EndsWith p s calls' x := by
  cases h with
  | failed hprep => exact .failed hprep
  | answered tree hprep hc => exact .answered tree hprep (hsub hc)

/-- A job on its own ends with the report of its run. -/
theorem Job.endsWith_run (j : Job) (p : Performer) (s : Studio) (t : FileTree) :
    j.EndsWith p s (j.run p s t).calls (j.run p s t).report := by
  rcases hprep : j.prepare s t with ⟨e | c, t'⟩
  · rw [run_of_error hprep]
    exact .failed hprep
  · rw [run_of_call hprep]
    exact .answered t' hprep List.mem_cons_self

namespace Floor

variable {p : Performer} {adds : Prop}

/-! ### How the jobs of the queue end -/

/-- Whoever waits for an answer has made its call, and whoever has ended has done so in one of the
ways in which a job can. -/
structure Accounted (p : Performer) (f : Floor) : Prop where
  calling : ∀ r j c, (r, j, c) ∈ f.calling →
    c ∈ f.calls ∧ ∃ t t', j.prepare f.studio t = (.ok c, t')
  ended : ∀ t x, f.queue.outcome? t = some (.ended x) →
    ∃ j, f.jobs[t]? = some j ∧ j.EndsWith p f.studio f.calls x

@[simp] theorem finish_calls (f : Floor) (r : Seat) (x : Report) :
    (f.finish r x).1.calls = f.calls := by cases r <;> rfl

theorem Effect.calls_subset {s s' : Standing} (e : Effect p adds s s') :
    s.1.calls ⊆ s'.1.calls := by
  cases e with
  | fails takes own prep => rw [finish_calls]; exact List.Subset.refl _
  | calls takes own prep => exact List.subset_append_left _ _
  | answers waits => rw [answer_eq, finish_calls]; exact List.Subset.refl _
  | _ => exact List.Subset.refl _

/-- Who waits after an effect has waited before, or has just made its call. -/
theorem Effect.calling {s s' : Standing} (e : Effect p adds s s') {r : Seat} {j : Job}
    {c : EngineCall} (hc : (r, j, c) ∈ s'.1.calling) : (r, j, c) ∈ s.1.calling ∨
      c ∈ s'.1.calls ∧ ∃ t t', j.prepare s.1.studio t = (.ok c, t') := by
  cases e with
  | fails takes own prep => exact .inl (by rwa [finish_calling] at hc)
  | calls takes own prep =>
      refine (List.mem_append.mp hc).imp_right fun hc => ?_
      cases List.mem_singleton.mp hc
      exact ⟨List.mem_append_right _ List.mem_cons_self, _, _, prep⟩
  | answers waits =>
      rw [answer_eq, finish_calling] at hc
      exact .inl (List.mem_filter.mp hc).1
  | _ => exact .inl hc

theorem Accounted.effect {s s' : Standing} (hs : s.1.Seated s.2) (h : Accounted p s.1)
    (e : Effect p adds s s') : Accounted p s'.1 where
  calling := by
    intro r j c hc
    rw [e.keeps.studio]
    rcases e.calling hc with hc | hmade
    · obtain ⟨hmem, hprep⟩ := h.calling r j c hc
      exact ⟨e.calls_subset hmem, hprep⟩
    · exact hmade
  ended := by
    intro t x hx
    rw [e.keeps.studio]
    rcases hs.ended e hx with hx | ⟨j, hj, ⟨setback, tree, prep, rfl⟩ | ⟨c, waits, rfl, -⟩⟩
    · obtain ⟨j, hj, hends⟩ := h.ended t x hx
      exact ⟨j, e.keeps.job hj, hends.mono e.calls_subset⟩
    · exact ⟨j, e.keeps.job hj, .failed prep⟩
    · obtain ⟨hmem, t₀, t₁, hprep⟩ := h.calling _ j c waits
      exact ⟨j, e.keeps.job hj, .answered _ hprep (e.calls_subset hmem)⟩

theorem Accounted.leads {s s' : Next} (hs : (standing s).1.Seated (standing s).2)
    (h : Accounted p s.1) (run : Leads p s s') : Accounted p s'.1 :=
  hs.induct (I := fun s => Accounted p s.1) (fun _ _ hs h e => h.effect hs e) h
    (hs.leads_effects run)

/-- A run that begins nothing settles a job only with its result. -/
theorem GoesOn.unended {s s' : Next} (run : GoesOn p s s') {t : Nat} {o : Outcome Report}
    (ho : ∀ x, o ≠ .ended x) (h : s'.1.queue.outcome? t = some o) :
    s.1.queue.outcome? t = some o := by
  induction run with
  | refl => exact h
  | tail _ m ih =>
      cases m with
      | turn f before i after => exact ih (unended_step ho h)
      | wake f turns r waiting => exact ih h

/-! ### All of them -/

section

variable {limit : Int} {queue : Queue Report}

theorem ofLimit?_eq_some (hq : Queue.ofLimit? limit = some queue) :
    queue.paused = false ∧ queue.pending = [] ∧ ∀ t, queue.outcome? t = none := by
  unfold Queue.ofLimit? at hq
  split at hq
  · cases hq
    exact ⟨rfl, rfl, fun t => rfl⟩
  · cases hq

/-- The count of turns that a floor allows itself is enough for the jobs that are begun on it. -/
theorem settles_complete_submit (p : Performer) (studio : Studio) (tree : FileTree)
    (hq : Queue.ofLimit? limit = some queue) (jobs : List Job) :
    Settles p (submit { studio, queue, tree } jobs)
        (complete p (submit { studio, queue, tree } jobs)) ∧
      AtRest (complete p (submit { studio, queue, tree } jobs), []) := by
  refine settles_complete (fun _ _ _ hc => absurd hc List.not_mem_nil) ?_
  have hlength := queue.length_submitMany jobs.length
  rw [(ofLimit?_eq_some hq).2.1] at hlength
  simp only [backlog, turnBound, submit, starting, List.length_map, List.nil_append,
    List.length_nil] at hlength ⊢
  omega

theorem leads_submit (p : Performer) (f : Floor) (jobs : List Job) :
    Leads p (f, []) (f.submit jobs) :=
  .single (.begin f [] (.queued jobs fun results => .batch (.ofResults results)))

/-- Every job that is begun on a fresh floor has ended when the floor is left. -/
theorem ended_complete_submit (p : Performer) (studio : Studio) (tree : FileTree)
    (hq : Queue.ofLimit? limit = some queue) {jobs : List Job} {t : Nat} {j : Job}
    (hj : jobs[t]? = some j) : ∃ x, j.EndsWith p studio
      (complete p (submit { studio, queue, tree } jobs)).calls x ∧
      (complete p (submit { studio, queue, tree } jobs)).queue.outcome? t = some (.ended x) := by
  obtain ⟨hopen, -, hunsettled⟩ := ofLimit?_eq_some hq
  obtain ⟨hsettles, hrest⟩ := settles_complete_submit p studio tree hq jobs
  have hrun := (leads_submit p { studio, queue, tree } jobs).trans hsettles.run.leads
  have hfresh := tended_fresh studio tree hq
  have haccounted : Accounted p { studio, queue, tree } :=
    ⟨fun _ _ _ hc => absurd hc List.not_mem_nil, fun t x hx =>
      absurd ((hunsettled t).symm.trans hx) (Option.some_ne_none _).symm⟩
  have haccounted := haccounted.leads (s := (_, [])) hfresh.seated hrun
  have hstudio : (complete p (submit { studio, queue, tree } jobs)).studio = studio :=
    (Leads.keeps hrun).studio
  have hjob : (complete p (submit { studio, queue, tree } jobs)).jobs[t]? = some j :=
    (Leads.keeps hsettles.run.leads).job hj
  have hsettled := (hfresh.leads hrun).isSettled_of_atRest hrest
    (hsettles.run.paused.trans ((Queue.submitMany_paused _ _).trans hopen))
    (List.getElem?_eq_some_iff.mp hjob).1
  obtain ⟨o, ho⟩ := Queue.isSettled_iff.mp hsettled
  -- nobody discards or cancels a job along the run
  have hended : ∃ x, o = .ended x := by
    by_contra hother
    have hbefore := hsettles.run.unended (fun x hx => hother ⟨x, hx⟩) ho
    have hnone : (submit { studio, queue, tree } jobs).1.queue.outcome? t = none :=
      (Queue.submitMany_outcome? queue jobs.length t).trans (hunsettled t)
    rw [hnone] at hbefore
    cases hbefore
  obtain ⟨x, rfl⟩ := hended
  obtain ⟨j', hj', hends⟩ := haccounted.ended t x ho
  obtain rfl : j' = j := Option.some.inj (hj'.symm.trans hjob)
  dsimp only at hends
  rw [hstudio] at hends
  exact ⟨x, hends, ho⟩

/-- The jobs that are begun together on a fresh floor all have their reports when it is left, in
their order. -/
theorem reports_complete_submit (p : Performer) (studio : Studio) (tree : FileTree)
    (hq : Queue.ofLimit? limit = some queue) (jobs : List Job) : ∃ results,
      (complete p (submit { studio, queue, tree } jobs)).reports? (List.range jobs.length) =
        some results ∧
      List.Forall₂ (fun j x => j.EndsWith p studio
        (complete p (submit { studio, queue, tree } jobs)).calls x) jobs results := by
  have hended := fun (t : Nat) (j : Job) (hj : jobs[t]? = some j) =>
    ended_complete_submit p studio tree hq hj
  generalize complete p (submit { studio, queue, tree } jobs) = f at hended ⊢
  have hsome : ∃ results, f.reports? (List.range jobs.length) = some results := by
    refine Fallible.exists_mapM_eq_some.mpr fun t ht => ?_
    obtain ⟨x, -, hx⟩ := hended t _ (List.getElem?_eq_getElem (List.mem_range.mp ht))
    exact ⟨x, report?_ended hx⟩
  obtain ⟨results, hresults⟩ := hsome
  have hmap := Fallible.mapM_eq_some.mp hresults
  have hlength : jobs.length = results.length := by simpa using congrArg List.length hmap
  refine ⟨results, hresults, List.forall₂_iff_get.mpr ⟨hlength, fun i hi hi' => ?_⟩⟩
  obtain ⟨x, hends, hx⟩ := hended i _ (List.getElem?_eq_getElem hi)
  have hat := congrArg (·[i]?) hmap
  have hreport : f.report? i = some results[i] := by simpa [hi, hi'] using hat
  rw [report?_ended hx] at hreport
  cases hreport
  exact hends

end

end Floor

end Soundworks
