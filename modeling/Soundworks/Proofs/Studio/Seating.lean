import Soundworks.Proofs.Studio.Effect
/-!
The jobs that run. Every effect leaves the jobs of the queue that run to be those that may start
and those whose calls wait; so a run is a sequence of effects, and what every effect preserves
holds along all runs.
-/

namespace Soundworks

namespace Floor

/-- The jobs of the queue that run are those that may start and those whose calls wait; a call
goes to the absolute path of the output of its job. -/
structure Seated (f : Floor) (ready : List Nat) : Prop where
  orderly : f.queue.Orderly (ready ++ f.outstanding)
  numbered : f.queue.nextTicket = f.jobs.length
  addressed : ∀ x ∈ f.calling, x.2.2.output = f.studio.place.resolve x.2.1.output
  seated : ∀ t j c, (.queued t, j, c) ∈ f.calling → f.jobs[t]? = some j

namespace Seated

variable {p : Performer} {adds : Prop} {f : Floor} {ready ready' : List Nat}

theorem perm (h : f.Seated ready) (hp : ready.Perm ready') : f.Seated ready' :=
  { h with orderly := h.orderly.perm (hp.append_right _) }

theorem onTree (h : f.Seated ready) (tree : FileTree) : Seated { f with tree } ready :=
  ⟨h.orderly, h.numbered, h.addressed, h.seated⟩

theorem job_of_mem (h : f.Seated ready) {t : Nat} (ht : t ∈ ready ++ f.outstanding) :
    ∃ j, f.jobs[t]? = some j := by
  have hlt := h.orderly.lt_nextTicket ht
  rw [h.numbered] at hlt
  exact ⟨_, List.getElem?_eq_getElem hlt⟩

theorem nodup_outstanding (h : f.Seated ready) : f.outstanding.Nodup := by
  have hn := h.orderly.nodup
  rw [List.append_assoc, List.nodup_append, List.nodup_append] at hn
  exact hn.2.1.1

theorem finish {r : Seat} {rest : List Nat} (h : f.Seated (r.ticket?.toList ++ rest))
    (x : Report) : (f.finish r x).1.Seated (rest ++ entering (f.finish r x).2) := by
  cases r with
  | single n =>
      rw [finish_single, show entering [] = [] from rfl, List.append_nil]
      exact ⟨h.orderly, h.numbered, h.addressed, h.seated⟩
  | queued t =>
      change f.Seated (t :: rest) at h
      rw [finish_queued, entering_enter]
      refine ⟨?_, by simpa using h.numbered, h.addressed, h.seated⟩
      have ht : t ∈ t :: rest ++ f.outstanding := List.mem_append_left _ List.mem_cons_self
      have hover := h.orderly.finish ht x
      rw [List.cons_append, List.erase_cons_head] at hover
      exact hover.perm (perm_append_swap ..)

theorem called {r : Seat} {j : Job} {c : EngineCall} {tree : FileTree} {rest : List Nat}
    (h : f.Seated ready) (takes : Takes (f, ready) r j rest)
    (prep : j.prepare f.studio f.tree = (.ok c, tree)) :
    (f.called tree r j c).Seated rest where
  orderly := by
    change f.queue.Orderly (rest ++ (f.calling ++ [(r, j, c)]).filterMap fun x => x.1.ticket?)
    rw [outstanding_append, ← List.append_assoc]
    refine h.orderly.perm ((takes.ready.append_right f.outstanding).trans ?_)
    rw [List.append_assoc]
    exact List.perm_append_comm
  numbered := h.numbered
  addressed := by
    intro x hx
    rcases List.mem_append.mp hx with hx | hx
    · exact h.addressed x hx
    · rw [List.mem_singleton.mp hx]
      exact (Job.output_of_prepare prep).1
  seated := by
    intro t j' c' hx
    rcases List.mem_append.mp hx with hx | hx
    · exact h.seated t j' c' hx
    · obtain ⟨rfl, rfl, -⟩ : r = .queued t ∧ j' = j ∧ c' = c := by
        simpa [eq_comm] using List.mem_singleton.mp hx
      exact takes.job t rfl

/-- Whoever is answered waits no longer. -/
theorem outstanding_perm (h : f.Seated ready) {r : Seat} {j : Job} {c : EngineCall}
    (hc : (r, j, c) ∈ f.calling) :
    f.outstanding.Perm (r.ticket?.toList ++
      (f.calling.filter fun x => x.1 ≠ r).filterMap fun x => x.1.ticket?) := by
  cases r with
  -- a job on its own has no ticket, so the same tickets are left
  | single n =>
      have heq : ((f.calling.filter fun x => x.1 ≠ .single n).filterMap fun x => x.1.ticket?) =
          f.outstanding := by
        rw [List.filterMap_filter, outstanding]
        congr 1
        funext x
        by_cases hx : x.1 = .single n
        · simp [hx, Seat.ticket?]
        · simp [hx]
      rw [heq]
      exact .rfl
  -- a ticket waits only once, so filtering it out is the same as erasing it
  | queued t =>
      have heq : ((f.calling.filter fun x => x.1 ≠ .queued t).filterMap fun x => x.1.ticket?) =
          f.outstanding.erase t := by
        rw [h.nodup_outstanding.erase_eq_filter, outstanding, List.filter_filterMap,
          List.filterMap_filter]
        congr 1
        funext x
        rcases x with ⟨s | n, x⟩
        · by_cases hst : s = t <;> simp [hst, Seat.ticket?, Option.filter]
        · simp [Seat.ticket?]
      rw [heq]
      exact List.perm_cons_erase (mem_outstanding.mpr ⟨c, j, hc⟩)

/-- A call is taken off; its job still runs. -/
theorem answered (h : f.Seated ready) {r : Seat} {j : Job} {c : EngineCall}
    (hc : (r, j, c) ∈ f.calling) (tree : FileTree) :
    Seated { f with tree, calling := f.calling.filter fun x => x.1 ≠ r }
      (r.ticket?.toList ++ ready) where
  orderly := by
    refine h.orderly.perm (((h.outstanding_perm hc).append_left ready).trans ?_)
    rw [← List.append_assoc]
    exact List.perm_append_comm.append_right _
  numbered := h.numbered
  addressed := fun x hx => h.addressed x (List.mem_filter.mp hx).1
  seated := fun t j' c' hx => h.seated t j' c' (List.mem_filter.mp hx).1

theorem submit (h : f.Seated ready) (jobs : List Job) :
    (f.submit jobs).1.Seated (ready ++ entering (f.submit jobs).2) := by
  change Seated { f with jobs := f.jobs ++ jobs, queue := (f.queue.submitMany jobs.length).1 }
    (ready ++ entering ((f.queue.submitMany jobs.length).2.map Turn.enter))
  rw [entering_enter]
  refine ⟨?_, by simp [h.numbered], h.addressed, fun t j c hx => ?_⟩
  · exact (h.orderly.submitMany jobs.length).perm (perm_append_swap ..)
  · exact (f.keeps_submit jobs).job (h.seated t j c hx)

theorem resume (h : f.Seated ready) : f.resume.1.Seated (ready ++ entering f.resume.2) := by
  change Seated { f with queue := f.queue.resume.1 }
    (ready ++ entering (f.queue.resume.2.map Turn.enter))
  rw [entering_enter]
  refine ⟨?_, by simp [h.numbered], h.addressed, h.seated⟩
  exact h.orderly.resume.perm (perm_append_swap ..)

theorem clear (h : f.Seated ready) : f.clear.1.Seated ready := by
  show Seated { f with queue := f.queue.clear.1 } ready
  exact ⟨h.orderly.clear, by simp [h.numbered], h.addressed, h.seated⟩

theorem effect {s s' : Standing} (h : s.1.Seated s.2) (e : Effect p adds s s') :
    s'.1.Seated s'.2 := by
  cases e with
  | aside f ready singles gates => exact ⟨h.orderly, h.numbered, h.addressed, h.seated⟩
  | fails takes own prep => exact ((h.onTree _).perm takes.ready).finish _
  | calls takes own prep => exact h.called takes prep
  | answers waits => exact (h.answered waits _).finish _
  | submits own => exact h.submit _
  | pauses f ready => exact ⟨h.orderly.pause, h.numbered, h.addressed, h.seated⟩
  | resumes f ready => exact h.resume
  | clears f ready => exact h.clear

theorem effects {s s' : Standing} (h : s.1.Seated s.2) (run : Effects p adds s s') :
    s'.1.Seated s'.2 := by
  induction run with
  | refl => exact h
  | tail _ e ih => exact ih.effect e

/-- A job that ends with an effect has failed before its call, or its call was answered. -/
theorem ended {s s' : Standing} (h : s.1.Seated s.2) (e : Effect p adds s s') {t : Nat}
    {x : Report} (hx : s'.1.queue.outcome? t = some (.ended x)) :
    s.1.queue.outcome? t = some (.ended x) ∨ ∃ j, s.1.jobs[t]? = some j ∧
      ((∃ setback tree, j.prepare s.1.studio s.1.tree = (.error setback, tree) ∧
          x = j.failed setback) ∨
        ∃ c, (.queued t, j, c) ∈ s.1.calling ∧ x = j.conclude c (p.perform c s.1.tree).1 ∧
          s'.1.tree = (p.perform c s.1.tree).2) := by
  cases e with
  | @fails f ready rest r j setback tree takes own prep =>
      refine (ended_of_finish hx h.orderly takes.running).symm.imp_right fun hr => ?_
      exact ⟨j, takes.job t hr.1, .inl ⟨setback, tree, prep, hr.2⟩⟩
  | @answers f ready r j c waits =>
      rw [answer_eq] at hx ⊢
      refine (ended_of_finish hx h.orderly (running_of_calls waits ready)).symm.imp_right ?_
      rintro ⟨rfl, rfl⟩
      exact ⟨j, h.seated t j c waits, .inr ⟨c, waits, rfl, by rw [finish_tree]⟩⟩
  | submits own => exact .inl ((Queue.submitMany_outcome? _ _ t).symm.trans hx)
  | resumes f ready => exact .inl ((Queue.resume_outcome? f.queue t).symm.trans hx)
  | clears f ready => exact .inl ((Queue.clear_outcome?_iff (by simp)).mp hx)
  | _ => exact .inl hx

/-- What every effect preserves holds along all effects. -/
theorem induct {I : Standing → Prop}
    (step : ∀ s s', s.1.Seated s.2 → I s → Effect p adds s s' → I s') {s s' : Standing}
    (h : s.1.Seated s.2) (hs : I s) (run : Effects p adds s s') : I s' := by
  induction run with
  | refl => exact hs
  | tail before e ih => exact step _ _ (h.effects before) ih e

theorem move_effects {s s' : Next} (h : (standing s).1.Seated (standing s).2)
    (m : Move p s s') (own : ¬adds → SameJobs s.1 s'.1) :
    Effects p adds (standing s) (standing s') :=
  m.effects (fun _ ht => h.job_of_mem (List.mem_append_left _ ht)) own

/-- A run that brings no further job is a sequence of effects that bring none. -/
theorem steady_effects {s s' : Next} (h : (standing s).1.Seated (standing s).2)
    (run : Leads p s s') (own : ¬adds → SameJobs s.1 s'.1) :
    Effects p adds (standing s) (standing s') := by
  induction run with
  | refl => exact .refl
  | tail before m ih =>
      have hbefore := ih fun hno => ((own hno).of_leads before (.single m)).1
      refine hbefore.trans ((h.effects hbefore).move_effects m fun hno => ?_)
      exact ((own hno).of_leads before (.single m)).2

/-- A run is a sequence of effects. -/
theorem leads_effects {s s' : Next} (h : (standing s).1.Seated (standing s).2)
    (run : Leads p s s') : Effects p True (standing s) (standing s') :=
  h.steady_effects run fun hno => absurd trivial hno

theorem leads {s s' : Next} (h : (standing s).1.Seated (standing s).2) (run : Leads p s s') :
    (standing s').1.Seated (standing s').2 := h.effects (h.leads_effects run)

end Seated

theorem seated_fresh (studio : Studio) (tree : FileTree) {limit : Int} {queue : Queue Report}
    (hq : Queue.ofLimit? limit = some queue) :
    ({ studio, queue, tree } : Floor).Seated [] where
  orderly := Queue.orderly_of_ofLimit? hq
  numbered := Queue.nextTicket_of_ofLimit? hq
  addressed := fun _ hx => absurd hx List.not_mem_nil
  seated := fun _ _ _ hx => absurd hx List.not_mem_nil

theorem Reached.seated {p : Performer} {limit : Int} {s : Next} (h : Reached p limit s) :
    (standing s).1.Seated (standing s).2 := by
  obtain ⟨studio, tree, queue, -, hq, run⟩ := h
  exact Seated.leads (s := ({ studio, queue, tree }, [])) (seated_fresh studio tree hq) run

end Floor

end Soundworks
