import Soundworks.Proofs.Queue.Placed
import Soundworks.Proofs.Studio.Results
/-!
Every request is answered. A job of the queue runs, waits or is settled, and a job on its own waits
for the answer to its call or has its report; so when nothing is under way any more, the response
to every request is known, and a run that only lets things go on gets there.
-/

namespace Soundworks

/-- A report of a job, whatever came of it. -/
def Report.Of (x : Report) (j : Job) : Prop := ∃ output error, x = j.report output error

namespace Job

theorem of_failed (j : Job) (s : Setback) : (j.failed s).Of j := ⟨_, _, rfl⟩

theorem of_conclude (j : Job) (c : EngineCall) (result : Except Failure Unit) :
    (j.conclude c result).Of j := by
  cases result <;> exact ⟨_, _, rfl⟩

end Job

namespace Floor

variable {p : Performer} {adds : Prop}

/-! ### The jobs of the queue -/

/-- Every job of the queue may start, waits for an answer, waits for its start, or is settled. -/
def Placed (f : Floor) (ready : List Nat) : Prop := f.queue.Placed (ready ++ f.outstanding)

theorem Placed.finish {f : Floor} {r : Seat} {rest : List Nat}
    (h : f.Placed (r.ticket?.toList ++ rest)) (x : Report) :
    (f.finish r x).1.Placed (rest ++ entering (f.finish r x).2) := by
  cases r with
  | single n =>
      rw [finish_single, show entering [] = [] from rfl, List.append_nil]
      exact h
  | queued t =>
      change f.queue.Placed (t :: (rest ++ f.outstanding)) at h
      rw [finish_queued, entering_enter]
      refine (h.finish x).mono fun u hu => ?_
      exact (perm_append_swap rest f.outstanding _).mem_iff.mp hu

theorem Placed.effect {s s' : Standing} (hs : s.1.Seated s.2) (h : s.1.Placed s.2)
    (e : Effect p adds s s') : s'.1.Placed s'.2 := by
  cases e with
  | aside f ready singles gates => exact h
  | pauses f ready => exact h
  | clears f ready => exact Queue.Placed.clear h
  | @fails f ready rest r j setback tree takes own prep =>
      refine Placed.finish (f := { f with tree }) (h.mono ?_) _
      exact fun u hu => ((takes.ready.append_right f.outstanding).mem_iff.mp hu)
  | @calls f ready rest r j c tree takes own prep =>
      refine h.mono fun u hu => ?_
      change u ∈ rest ++ (f.calling ++ [(r, j, c)]).filterMap fun x => x.1.ticket?
      rw [outstanding_append]
      have hmem := (takes.ready.append_right f.outstanding).mem_iff.mp hu
      simp only [List.mem_append] at hmem ⊢
      tauto
  | @answers f ready r j c waits =>
      have hanswered : Placed { f with
          tree := (p.perform c f.tree).2
          calling := f.calling.filter fun x => x.1 ≠ r } (r.ticket?.toList ++ ready) := by
        refine h.mono fun u hu => ?_
        have hmem := ((hs.outstanding_perm waits).append_left ready).mem_iff.mp hu
        change u ∈ r.ticket?.toList ++ ready ++
          (f.calling.filter fun x => x.1 ≠ r).filterMap fun x => x.1.ticket?
        simp only [List.mem_append] at hmem ⊢
        tauto
      exact hanswered.finish _
  | @submits f ready jobs own =>
      change f.submit jobs |>.1.queue.Placed _
      refine (Queue.Placed.submitMany h jobs.length).mono fun u hu => ?_
      rw [show entering (f.submit jobs).2 = (f.queue.submitMany jobs.length).2 from
        entering_enter _]
      exact (perm_append_swap ready f.outstanding _).mem_iff.mp hu
  | resumes f ready =>
      refine (Queue.Placed.resume h).mono fun u hu => ?_
      rw [show entering f.resume.2 = f.queue.resume.2 from entering_enter _]
      exact (perm_append_swap ready f.outstanding _).mem_iff.mp hu

/-- Every outcome is a report of its job. -/
def Written (f : Floor) : Prop :=
  ∀ t x, f.queue.outcome? t = some (.ended x) → ∃ j, f.jobs[t]? = some j ∧ x.Of j

theorem Written.effect {s s' : Standing} (hs : s.1.Seated s.2) (h : s.1.Written)
    (e : Effect p adds s s') : s'.1.Written := by
  intro t x hx
  rcases hs.ended e hx with hx | ⟨j, hj, ⟨setback, tree, -, rfl⟩ | ⟨c, -, rfl, -⟩⟩
  · obtain ⟨j, hj, hof⟩ := h t x hx
    exact ⟨j, e.keeps.job hj, hof⟩
  · exact ⟨j, e.keeps.job hj, j.of_failed setback⟩
  · exact ⟨j, e.keeps.job hj, j.of_conclude c _⟩

theorem Written.of_report {f : Floor} (h : f.Written) {t : Nat} {j : Job}
    (hj : f.jobs[t]? = some j) {x : Report} (hx : f.report? t = some x) : x.Of j := by
  rcases report?_cases hx with ho | ⟨j', error, hj', rfl⟩
  · obtain ⟨j', hj', hof⟩ := h t x ho
    rw [hj] at hj'
    cases hj'
    exact hof
  · rw [hj] at hj'
    cases hj'
    exact ⟨_, _, rfl⟩

/-! ### The jobs on their own -/

/-- The jobs on their own: whoever waits for an answer is one of them, and whoever has a report has
its own. Apart from the one that is just being dealt with, whoever has none waits for an answer. -/
structure Attended (own : List Job) (dealt : Option Seat) (f : Floor) : Prop where
  count : own.length = f.singles.length
  waiting : ∀ (n : Nat) j c, (.single n, j, c) ∈ f.calling → own[n]? = some j
  reported : ∀ (n : Nat) (x : Report), f.singles[n]? = some (some x) →
    ∃ j, own[n]? = some j ∧ x.Of j
  called : ∀ (n : Nat), dealt ≠ some (.single n) → f.singles[n]? = some none →
    ∃ j c, (.single n, j, c) ∈ f.calling

namespace Attended

variable {own : List Job} {f : Floor} {r : Seat} {j : Job} {c : EngineCall}

theorem dealing (h : Attended own none f) (r : Seat) : Attended own (some r) f :=
  { h with called := fun n _ => h.called n (Option.some_ne_none _).symm }

theorem finish (h : Attended own (some r) f) {x : Report}
    (hx : ∀ n, r = .single n → ∃ j, own[n]? = some j ∧ x.Of j) :
    Attended own none (f.finish r x).1 := by
  cases r with
  | queued t => exact { h with called := fun n _ => h.called n (by simp) }
  | single m =>
      constructor
      case count =>
        show own.length = (f.singles.set m (some x)).length
        rw [List.length_set, h.count]
      case waiting => exact h.waiting
      case reported =>
        intro n y hy
        change (f.singles.set m (some x))[n]? = some (some y) at hy
        by_cases hnm : n = m
        · subst hnm
          have hn : n < f.singles.length := by
            simpa using (List.getElem?_eq_some_iff.mp hy).1
          rw [List.getElem?_set_self hn] at hy
          cases hy
          exact hx n rfl
        · rw [List.getElem?_set_ne (Ne.symm hnm)] at hy
          exact h.reported n y hy
      case called =>
        intro n _ hn
        change (f.singles.set m (some x))[n]? = some none at hn
        by_cases hnm : n = m
        · subst hnm
          have hlt : n < f.singles.length := by
            simpa using (List.getElem?_eq_some_iff.mp hn).1
          rw [List.getElem?_set_self hlt] at hn
          cases hn
        · rw [List.getElem?_set_ne (Ne.symm hnm)] at hn
          exact h.called n (by simpa using Ne.symm hnm) hn

theorem answer (h : Attended own none f) (hc : (r, j, c) ∈ f.calling) :
    Attended own none (f.answer p r j c).1 := by
  rw [answer_eq]
  have hanswered : Attended own (some r) { f with
      tree := (p.perform c f.tree).2
      calling := f.calling.filter fun x => x.1 ≠ r } := by
    refine ⟨h.count, fun n j' c' hx => h.waiting n j' c' (List.mem_filter.mp hx).1, h.reported,
      fun n hn hnone => ?_⟩
    obtain ⟨j', c', hx⟩ := h.called n (Option.some_ne_none _).symm hnone
    exact ⟨j', c', List.mem_filter.mpr ⟨hx, decide_eq_true fun heq => hn (by rw [← heq])⟩⟩
  refine hanswered.finish fun n hn => ?_
  subst hn
  exact ⟨j, h.waiting n j c hc, j.of_conclude c _⟩

/-- The start of a job. -/
theorem enter (h : Attended own (some r) f) (hj : ∀ n, r = .single n → own[n]? = some j) :
    Attended own none (f.enter p r j).1 := by
  rcases hprep : j.prepare f.studio f.tree with ⟨e | c, tree⟩
  · rw [enter_of_error p r hprep]
    have htree : Attended own (some r) { f with tree } :=
      ⟨h.count, h.waiting, h.reported, h.called⟩
    exact htree.finish fun n hn => ⟨j, hj n hn, j.of_failed e⟩
  · have hcalled : Attended own none (f.called tree r j c) := by
      refine ⟨h.count, fun n j' c' hx => ?_, h.reported, fun n _ hnone => ?_⟩
      · rcases List.mem_append.mp hx with hx | hx
        · exact h.waiting n j' c' hx
        · obtain ⟨hr, rfl, -⟩ : .single n = r ∧ j' = j ∧ c' = c := by
            simpa using List.mem_singleton.mp hx
          exact hj n hr.symm
      · by_cases hr : r = .single n
        · exact ⟨j, c, List.mem_append_right _ (by simp [hr])⟩
        · obtain ⟨j', c', hx⟩ := h.called n (by simpa using hr) hnone
          exact ⟨j', c', List.mem_append_left _ hx⟩
    rcases enter_of_call p r hprep with ⟨gate, -, heq⟩ | heq
    · rw [heq]
      exact ⟨hcalled.count, hcalled.waiting, hcalled.reported, hcalled.called⟩
    · rw [heq]
      exact hcalled.answer (by simp [Floor.called])

theorem step (h : Attended own none f) (i : Turn) : Attended own none (f.step p i).1 := by
  cases i with
  | enter t =>
      cases hj : f.jobs[t]? with
      | none =>
          rw [show f.step p (.enter t) = (f, []) by simp [Floor.step, hj]]
          exact h
      | some j =>
          rw [step_enter hj]
          exact (h.dealing _).enter fun _ hr => by cases hr
  | answer r =>
      rcases step_answer_cases p f r with ⟨j, c, hc, heq⟩ | heq
      · rw [heq]
        exact h.answer hc
      · rw [heq]
        exact h

theorem runSingle (h : Attended own none f) (j : Job) :
    Attended (own ++ [j]) none (f.runSingle p j).1 := by
  have hadded : Attended (own ++ [j]) (some (.single f.singles.length))
      { f with singles := f.singles ++ [none] } := by
    constructor
    case count => simp [h.count]
    case waiting =>
      intro n j' c hx
      have hn := h.waiting n j' c hx
      rwa [List.getElem?_append_left (List.getElem?_eq_some_iff.mp hn).1]
    case reported =>
      intro n x hx
      change (f.singles ++ [none])[n]? = some (some x) at hx
      have hn : n < f.singles.length := by
        by_contra hn
        rw [List.getElem?_append_right (Nat.le_of_not_lt hn)] at hx
        cases hk : n - f.singles.length with
        | zero =>
            rw [hk] at hx
            cases hx
        | succ k =>
            rw [hk] at hx
            cases hx
      rw [List.getElem?_append_left hn] at hx
      obtain ⟨j', hj', hof⟩ := h.reported n x hx
      exact ⟨j', by rwa [List.getElem?_append_left (h.count ▸ hn)], hof⟩
    case called =>
      intro n hne hn
      change (f.singles ++ [none])[n]? = some none at hn
      have hlt : n < f.singles.length := by
        have hle := (List.getElem?_eq_some_iff.mp hn).1
        rw [List.length_append, List.length_singleton] at hle
        have hother : n ≠ f.singles.length := by
          rintro rfl
          exact hne rfl
        omega
      rw [List.getElem?_append_left hlt] at hn
      exact h.called n (Option.some_ne_none _).symm hn
  refine hadded.enter fun n hn => ?_
  cases hn
  rw [← h.count, List.getElem?_append_right (Nat.le_refl _), Nat.sub_self]
  rfl

theorem move {s s' : Next} (h : Attended own none s.1) (m : Move p s s') :
    ∃ more, Attended (own ++ more) none s'.1 := by
  have hsame : ∀ {f' : Floor}, f'.singles = s.1.singles → f'.calling = s.1.calling →
      ∃ more, Attended (own ++ more) none f' := by
    intro f' hsingles hcalling
    refine ⟨[], ?_⟩
    rw [List.append_nil]
    constructor
    · rw [hsingles, h.count]
    · rw [hcalling]
      exact h.waiting
    · rw [hsingles]
      exact h.reported
    · rw [hsingles, hcalling]
      exact h.called
  cases m with
  | begin f turns a =>
      cases a with
      | single j answer => exact ⟨[j], h.runSingle j⟩
      | _ => exact hsame rfl rfl
  | turn f before i after =>
      refine ⟨[], ?_⟩
      rw [List.append_nil]
      exact h.step i
  | wake f turns r waiting => exact hsame rfl rfl

theorem leads {s s' : Next} (h : Attended own none s.1) (run : Leads p s s') :
    ∃ more, Attended (own ++ more) none s'.1 := by
  induction run with
  | refl => exact ⟨[], by rwa [List.append_nil]⟩
  | tail _ m ih =>
      obtain ⟨more, hmore⟩ := ih
      obtain ⟨last, hlast⟩ := hmore.move m
      exact ⟨more ++ last, by rwa [← List.append_assoc]⟩

end Attended

/-! ### Every floor that can be reached -/

/-- What holds on every floor that can be reached, whatever its files are: each job has a place,
and what is told of it is a report of it. -/
structure Tended (s : Next) : Prop where
  seated : (standing s).1.Seated (standing s).2
  placed : (standing s).1.Placed (standing s).2
  written : s.1.Written
  attended : ∃ own, Attended own none s.1

namespace Tended

variable {s s' : Next}

theorem leads (h : Tended s) (run : Leads p s s') : Tended s' where
  seated := h.seated.leads run
  placed := h.seated.induct (I := fun s => s.1.Placed s.2) (fun _ _ hs hp e => hp.effect hs e)
    h.placed (h.seated.leads_effects run)
  written := h.seated.induct (I := fun s => s.1.Written) (fun _ _ hs hw e => hw.effect hs e)
    h.written (h.seated.leads_effects run)
  attended := by
    obtain ⟨own, hown⟩ := h.attended
    obtain ⟨more, hmore⟩ := hown.leads run
    exact ⟨_, hmore⟩

/-- Other files in the place of those that are there do not matter. -/
theorem onTree (h : Tended s) (tree : FileTree) : Tended ({ s.1 with tree }, s.2) where
  seated := h.seated.onTree tree
  placed := h.placed
  written := h.written
  attended := by
    obtain ⟨own, hown⟩ := h.attended
    exact ⟨own, hown.count, hown.waiting, hown.reported, hown.called⟩

end Tended

theorem tended_fresh (studio : Studio) (tree : FileTree) {limit : Int} {queue : Queue Report}
    (hq : Queue.ofLimit? limit = some queue) : Tended ({ studio, queue, tree }, []) := by
  constructor
  case seated => exact seated_fresh studio tree hq
  case placed => exact Queue.placed_of_ofLimit? hq
  case written =>
    intro t x hx
    have hlt : t < queue.nextTicket := Queue.lt_nextTicket_of_outcome? hx
    rw [Queue.nextTicket_of_ofLimit? hq] at hlt
    exact absurd hlt (Nat.not_lt_zero t)
  case attended =>
    exact ⟨[], rfl, fun _ _ _ hx => absurd hx List.not_mem_nil, fun _ _ hx => by simp at hx,
      fun _ _ hx => by simp at hx⟩

theorem Reached.tended {limit : Int} {s : Next} (h : Reached p limit s) : Tended s := by
  obtain ⟨studio, tree, queue, -, hq, run⟩ := h
  exact Tended.leads (tended_fresh studio tree hq) run

/-! ### What a response is made of -/

section

variable {s s' : Next}

theorem Tended.single_response (h : Tended s) {j : Job} {answer : Report → Response}
    (run : Leads p (undertake p s (.single j answer)).1 s') {r : Response}
    (hr : s'.1.response? (undertake p s (.single j answer)).2 = some r) :
    ∃ x : Report, x.Of j ∧ r = answer x := by
  obtain ⟨own, hown⟩ := h.attended
  have hbegun : Attended (own ++ [j]) none (undertake p s (.single j answer)).1.1 :=
    hown.runSingle j
  obtain ⟨more, hmore⟩ := hbegun.leads run
  obtain ⟨x, hx, rfl⟩ := Option.map_eq_some_iff.mp hr
  obtain ⟨j', hj', hof⟩ := hmore.reported _ x (Option.join_eq_some_iff.mp hx)
  rw [List.append_assoc, ← hown.count, List.getElem?_append_right (Nat.le_refl _),
    Nat.sub_self] at hj'
  cases hj'
  exact ⟨x, hof, rfl⟩

/-- The response to a request for jobs of the queue is made of reports of these jobs. -/
theorem Tended.queued_response (h : Tended s) {jobs : List Job}
    {answer : List Report → Response} (run : Leads p (undertake p s (.queued jobs answer)).1 s')
    {r : Response} (hr : s'.1.response? (undertake p s (.queued jobs answer)).2 = some r) :
    ∃ results, List.Forall₂ Report.Of results jobs ∧ r = answer results := by
  have hwritten := (h.leads (.head (.begin s.1 s.2 _) run)).written
  obtain ⟨results, rfl, hlen, hreports⟩ := reports_of_response hr
  have hjob : ∀ i j, jobs[i]? = some j → s'.1.jobs[s.1.jobs.length + i]? = some j :=
    fun i j hj => (Leads.keeps run).job (job_of_undertake p s answer hj)
  exact ⟨results, forall₂_of_reports (fun hj hx => hwritten.of_report hj hx) hlen hjob hreports,
    rfl⟩

end

end Floor

end Soundworks
