import Soundworks.Proofs.Studio.Answers
/-!
Nothing stays under way for ever. Whatever goes on uses up some of what a floor has left to do, so
from every floor a run that begins nothing leads to one on which nothing is under way. There every
job is settled unless the queue is paused, and every request has its response.
-/

namespace Soundworks

namespace Floor

variable {p : Performer}

/-- A move by which something goes on that was begun before. -/
inductive Onward (p : Performer) : Next → Next → Prop
  | turn (f : Floor) (before : List Turn) (i : Turn) (after : List Turn) :
      Onward p (f, before ++ i :: after) ((f.step p i).1, before ++ after ++ (f.step p i).2)
  | wake (f : Floor) (turns : List Turn) (r : Seat) (waiting : List (String × Seat)) :
      Onward p (f, turns)
        ({ f with gates := { f.gates with waiting } }, turns ++ [.answer r])

/-- A run that begins nothing. -/
abbrev GoesOn (p : Performer) : Next → Next → Prop := Relation.ReflTransGen (Onward p)

theorem Onward.move {s s' : Next} (m : Onward p s s') : Move p s s' := by
  cases m with
  | turn f before i after => exact .turn f before i after
  | wake f turns r waiting => exact .wake f turns r waiting

theorem GoesOn.leads {s s' : Next} (run : GoesOn p s s') : Leads p s s' :=
  run.lift id fun _ _ => Onward.move

/-- Nothing is ready, and no call waits for its answer. -/
def AtRest (s : Next) : Prop := s.2 = [] ∧ s.1.calling = []

/-! ### What is left to do -/

/-- What is left to do: whoever waits in the queue or may start may still make a call, and a call
is still to be answered. -/
def load (s : Next) : Nat :=
  2 * (s.1.queue.pending.length + s.2.length) + s.1.calling.length

theorem load_finish (f : Floor) (r : Seat) (x : Report) (rest : List Turn) :
    load ((f.finish r x).1, rest ++ (f.finish r x).2) ≤ load (f, rest) := by
  cases r with
  | single n => simp [finish_single, load]
  | queued t =>
      have hstart := f.queue.length_finish t x
      rw [finish_queued]
      simp only [load, List.length_append, List.length_map]
      omega

theorem load_answer (p : Performer) {f : Floor} {r : Seat} {j : Job} {c : EngineCall}
    (hc : (r, j, c) ∈ f.calling) (rest : List Turn) :
    load ((f.answer p r j c).1, rest ++ (f.answer p r j c).2) < load (f, rest) := by
  have hfewer : (f.calling.filter fun x => x.1 ≠ r).length < f.calling.length :=
    List.length_filter_lt_length_iff_exists.mpr ⟨_, hc, by simp⟩
  rw [answer_eq]
  refine (load_finish _ r _ rest).trans_lt ?_
  simp only [load]
  omega

/-- A job that starts adds at most its call. -/
theorem load_enter (p : Performer) (f : Floor) (r : Seat) (j : Job) (rest : List Turn) :
    load ((f.enter p r j).1, rest ++ (f.enter p r j).2) ≤ load (f, rest) + 1 := by
  rcases hprep : j.prepare f.studio f.tree with ⟨e | c, tree⟩
  · rw [enter_of_error p r hprep]
    exact (load_finish { f with tree } r _ rest).trans (Nat.le_succ _)
  · have hcalled : load (f.called tree r j c, rest) = load (f, rest) + 1 := by
      simp [load, called]
      omega
    rcases enter_of_call p r hprep with ⟨gate, -, heq⟩ | heq
    · rw [heq, List.append_nil]
      exact hcalled.le
    · rw [heq, ← hcalled]
      exact (load_answer p (f := f.called tree r j c) (by simp [called]) rest).le

theorem step_answer_of_mem (p : Performer) {f : Floor} {r : Seat} {j : Job} {c : EngineCall}
    (hc : (r, j, c) ∈ f.calling) :
    ∃ j' c', (r, j', c') ∈ f.calling ∧ f.step p (.answer r) = f.answer p r j' c' := by
  have hsome : (f.calling.find? fun x => x.1 = r).isSome := by
    rw [List.find?_isSome]
    exact ⟨_, hc, by simp⟩
  obtain ⟨⟨r', j', c'⟩, hfind⟩ := Option.isSome_iff_exists.mp hsome
  obtain rfl : r' = r := by simpa using List.find?_some hfind
  exact ⟨j', c', List.mem_of_find?_eq_some hfind, by simp [step, hfind]⟩

theorem load_step (p : Performer) (f : Floor) (i : Turn) (rest : List Turn) :
    load ((f.step p i).1, rest ++ (f.step p i).2) < load (f, i :: rest) := by
  have hcons : load (f, i :: rest) = load (f, rest) + 2 := by
    simp only [load, List.length_cons]
    omega
  have hnothing : load (f, rest ++ []) < load (f, i :: rest) := by
    rw [List.append_nil]
    omega
  cases i with
  | enter t =>
      cases hj : f.jobs[t]? with
      | none =>
          rw [show f.step p (.enter t) = (f, []) by simp [step, hj]]
          exact hnothing
      | some j =>
          have henter := load_enter p f (.queued t) j rest
          rw [step_enter hj]
          omega
  | answer r =>
      rcases step_answer_cases p f r with ⟨j, c, hc, heq⟩ | heq
      · have hanswer := load_answer p hc rest
        rw [heq]
        omega
      · rw [heq]
        exact hnothing

/-! ### No turn opens or closes the queue -/

theorem paused_finish (f : Floor) (r : Seat) (x : Report) :
    (f.finish r x).1.queue.paused = f.queue.paused := by
  cases r with
  | single n => rfl
  | queued t => exact f.queue.finish_paused t x

theorem paused_step (p : Performer) (f : Floor) (i : Turn) :
    (f.step p i).1.queue.paused = f.queue.paused := by
  cases i with
  | enter t =>
      cases hj : f.jobs[t]? with
      | none => simp [step, hj]
      | some j =>
          rw [step_enter hj]
          rcases hprep : j.prepare f.studio f.tree with ⟨e | c, tree⟩
          · rw [enter_of_error p _ hprep, paused_finish]
          · rcases enter_of_call p (.queued t) hprep with ⟨gate, -, heq⟩ | heq
            · rw [heq]
              rfl
            · rw [heq, answer_eq, paused_finish]
              rfl
  | answer r =>
      rcases step_answer_cases p f r with ⟨j, c, -, heq⟩ | heq
      · rw [heq, answer_eq, paused_finish]
      · rw [heq]

/-! ### Where everything has gone on -/

/-- What is under way can go on, and then less is left to do. -/
theorem exists_goesOn (p : Performer) {s : Next} (h : ¬AtRest s) :
    ∃ s', GoesOn p s s' ∧ load s' < load s ∧ s'.1.queue.paused = s.1.queue.paused := by
  obtain ⟨f, turns⟩ := s
  cases turns with
  | cons i rest =>
      exact ⟨_, .single (.turn f [] i rest), load_step p f i rest, paused_step p f i⟩
  -- nothing is ready, so a call waits; it is woken and answered at once
  | nil =>
      obtain ⟨⟨r, j, c⟩, hc⟩ := List.exists_mem_of_ne_nil f.calling fun hnil => h ⟨rfl, hnil⟩
      obtain ⟨j', c', hc', heq⟩ := step_answer_of_mem p hc
      have hload := load_answer p hc' []
      have hpaused := paused_step p f (.answer r)
      rw [heq] at hpaused
      refine ⟨_, .tail (.single (.wake f [] r f.gates.waiting)) (.turn f [] (.answer r) []), ?_, ?_⟩
      · rw [heq]
        exact hload
      · rw [heq]
        exact hpaused

/-- From every floor a run that begins nothing leads to one on which nothing is under way. -/
theorem exists_atRest (p : Performer) (s : Next) :
    ∃ s', GoesOn p s s' ∧ AtRest s' ∧ s'.1.queue.paused = s.1.queue.paused := by
  induction hn : load s using Nat.strong_induction_on generalizing s with
  | _ n ih =>
      by_cases hrest : AtRest s
      · exact ⟨s, .refl, hrest, rfl⟩
      · obtain ⟨m, hm, hless, hpaused⟩ := exists_goesOn p hrest
        obtain ⟨s', run, hrest', hpaused'⟩ := ih _ (hn ▸ hless) m rfl
        exact ⟨s', hm.trans run, hrest', hpaused'.trans hpaused⟩

/-! ### Every request has its response there -/

theorem Tended.isSettled_of_atRest {s : Next} (h : Tended s) (hrest : AtRest s)
    (hopen : s.1.queue.paused = false) {t : Nat} (ht : t < s.1.jobs.length) :
    s.1.queue.isSettled t = true := by
  obtain ⟨hready, hcalling⟩ := hrest
  have hnobody : entering s.2 ++ s.1.outstanding = [] := by
    rw [hready, outstanding, hcalling]
    rfl
  have horderly := h.seated.orderly
  have hplaced : s.1.queue.Placed (entering s.2 ++ s.1.outstanding) := h.placed
  change s.1.queue.Orderly (entering s.2 ++ s.1.outstanding) at horderly
  rw [hnobody] at horderly hplaced
  exact horderly.isSettled_of_idle hplaced hopen (h.seated.numbered.symm ▸ ht)

theorem Tended.single_of_atRest {s : Next} (h : Tended s) (hrest : AtRest s) {n : Nat}
    (hn : n < s.1.singles.length) : ∃ x, s.1.singles[n]? = some (some x) := by
  obtain ⟨own, hown⟩ := h.attended
  have hat : s.1.singles[n]? = some s.1.singles[n] := List.getElem?_eq_getElem hn
  cases hx : s.1.singles[n] with
  | some x => exact ⟨x, hat.trans (congrArg some hx)⟩
  | none =>
      obtain ⟨j, c, hc⟩ := hown.called n (Option.some_ne_none _).symm (hat.trans (congrArg some hx))
      rw [hrest.2] at hc
      exact absurd hc List.not_mem_nil

/-- Whatever has happened since an action was begun, a run that begins nothing leads to its
response; jobs of the queue need a queue that is not paused. -/
theorem Tended.responds {s s' : Next} (h : Tended s) {a : Action}
    (run : Leads p (undertake p s a).1 s')
    (hopen : ∀ jobs answer, a = .queued jobs answer → s'.1.queue.paused = false) :
    ∃ s'', GoesOn p s' s'' ∧ ∃ r, s''.1.response? (undertake p s a).2 = some r := by
  obtain ⟨s'', hgo, hrest, hpaused⟩ := exists_atRest p s'
  have hrun := run.trans hgo.leads
  have htended : Tended s'' := h.leads (.head (.begin s.1 s.2 a) hrun)
  refine ⟨s'', hgo, ?_⟩
  cases a with
  | single j answer =>
      have hmore : (undertake p s (.single j answer)).1.1.singles.length =
          s.1.singles.length + 1 := by
        show (enter p { s.1 with singles := s.1.singles ++ [none] }
          (.single s.1.singles.length) j).1.singles.length = _
        rw [length_singles_enter, List.length_append, List.length_singleton]
      have hlast := Leads.length_singles hrun
      obtain ⟨x, hx⟩ := htended.single_of_atRest hrest (n := s.1.singles.length) (by omega)
      exact ⟨answer x, by simp [response?, undertake, Floor.begin, hx]⟩
  | queued jobs answer =>
      refine exists_response_iff.mpr fun i hi => ?_
      have hj := (Leads.keeps hrun).job
        (job_of_undertake p s answer (List.getElem?_eq_getElem hi))
      refine (exists_report?_iff hj).mpr (htended.isSettled_of_atRest hrest ?_ ?_)
      · exact hpaused.trans (hopen jobs answer rfl)
      · exact (List.getElem?_eq_some_iff.mp hj).1
  | _ => exact ⟨_, rfl⟩

end Floor

end Soundworks
