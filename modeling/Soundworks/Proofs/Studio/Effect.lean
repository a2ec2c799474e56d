import Soundworks.Proofs.Job.Preparation
import Soundworks.Proofs.Studio.Run
/-!
Moves taken apart. Whatever the engine is, a move is a sequence of effects: a job that may start
fails or makes its call, a call is answered, or the queue is operated.
-/

namespace Soundworks

def Turn.ticket? : Turn → Option Nat
  | .enter ticket => some ticket
  | .answer _ => none

def Seat.ticket? : Seat → Option Nat
  | .queued ticket => some ticket
  | .single _ => none

namespace Floor

def entering (turns : List Turn) : List Nat := turns.filterMap Turn.ticket?

def outstanding (f : Floor) : List Nat := f.calling.filterMap fun x => x.1.ticket?

/-- A job of the queue waits for the answer to a call. -/
def Calls (f : Floor) (ticket : Nat) (c : EngineCall) : Prop :=
  ∃ j, (.queued ticket, j, c) ∈ f.calling

@[simp] theorem entering_append (turns turns' : List Turn) :
    entering (turns ++ turns') = entering turns ++ entering turns' := List.filterMap_append ..

@[simp] theorem entering_enter (ts : List Nat) : entering (ts.map Turn.enter) = ts := by
  simp [entering, List.filterMap_map, Function.comp_def, Turn.ticket?]

theorem entering_cons (i : Turn) (turns : List Turn) :
    entering (i :: turns) = i.ticket?.toList ++ entering turns := by
  cases i <;> rfl

theorem perm_append_swap (l₁ l₂ l₃ : List Nat) : (l₁ ++ l₂ ++ l₃).Perm (l₁ ++ l₃ ++ l₂) := by
  rw [List.append_assoc, List.append_assoc]
  exact List.perm_append_comm.append_left l₁

theorem mem_outstanding {f : Floor} {t : Nat} : t ∈ f.outstanding ↔ ∃ c, f.Calls t c := by
  simp only [outstanding, Calls, List.mem_filterMap]
  constructor
  · rintro ⟨⟨r, j, c⟩, hmem, hr⟩
    cases r with
    | queued n =>
        obtain rfl : n = t := by simpa [Seat.ticket?] using hr
        exact ⟨c, j, hmem⟩
    | single n => simp [Seat.ticket?] at hr
  · rintro ⟨c, j, hmem⟩
    exact ⟨_, hmem, rfl⟩

/-- Whoever waits for an answer runs. -/
theorem running_of_calls {f : Floor} {r : Seat} {j : Job} {c : EngineCall}
    (hc : (r, j, c) ∈ f.calling) (ready : List Nat) :
    ∀ t, r = .queued t → t ∈ ready ++ f.outstanding := by
  rintro t rfl
  exact List.mem_append_right _ (mem_outstanding.mpr ⟨c, j, hc⟩)

theorem outstanding_append (f : Floor) (r : Seat) (j : Job) (c : EngineCall) :
    (f.calling ++ [(r, j, c)]).filterMap (fun x => x.1.ticket?) =
      f.outstanding ++ r.ticket?.toList := by
  cases r <;> simp [outstanding, Seat.ticket?]

/-! ### The end of a job -/

theorem finish_queued (f : Floor) (t : Nat) (x : Report) :
    f.finish (.queued t) x = ({ f with queue := (f.queue.finish t (some x)).1 },
      (f.queue.finish t (some x)).2.map Turn.enter) := rfl

theorem finish_single (f : Floor) (n : Nat) (x : Report) :
    f.finish (.single n) x = ({ f with singles := f.singles.set n (some x) }, []) := rfl

@[simp] theorem finish_calling (f : Floor) (r : Seat) (x : Report) :
    (f.finish r x).1.calling = f.calling := by cases r <;> rfl

@[simp] theorem finish_tree (f : Floor) (r : Seat) (x : Report) :
    (f.finish r x).1.tree = f.tree := by cases r <;> rfl

@[simp] theorem finish_gates (f : Floor) (r : Seat) (x : Report) :
    (f.finish r x).1.gates = f.gates := by cases r <;> rfl

@[simp] theorem length_singles_finish (f : Floor) (r : Seat) (x : Report) :
    (f.finish r x).1.singles.length = f.singles.length := by
  cases r <;> simp [finish, starting]

theorem answer_eq (p : Performer) (f : Floor) (r : Seat) (j : Job) (c : EngineCall) :
    f.answer p r j c =
      ({ f with
        tree := (p.perform c f.tree).2
        calling := f.calling.filter fun x => x.1 ≠ r } : Floor).finish r
      (j.conclude c (p.perform c f.tree).1) := rfl

theorem ended_of_finish {f : Floor} {r : Seat} {x y : Report} {t : Nat}
    (hy : (f.finish r x).1.queue.outcome? t = some (.ended y)) {running : List Nat}
    (h : f.queue.Orderly running) (hr : ∀ s, r = .queued s → s ∈ running) :
    r = .queued t ∧ y = x ∨ f.queue.outcome? t = some (.ended y) := by
  cases r with
  | single n => exact .inr hy
  | queued s =>
      rw [finish_queued] at hy
      dsimp only at hy
      rw [h.finish_outcome? (hr s rfl)] at hy
      split at hy
      · rename_i hts
        cases hy
        exact .inl ⟨by rw [hts], rfl⟩
      · exact .inr hy

/-! ### The start of a job -/

def called (f : Floor) (tree : FileTree) (r : Seat) (j : Job) (c : EngineCall) : Floor :=
  { f with
    tree
    calling := f.calling ++ [(r, j, c)]
    calls := f.calls ++ [c]
    mostCalling := max f.mostCalling (f.calling ++ [(r, j, c)]).length }

theorem enter_of_error (p : Performer) {f : Floor} (r : Seat) {j : Job} {e : Setback}
    {tree : FileTree} (h : j.prepare f.studio f.tree = (.error e, tree)) :
    f.enter p r j = ({ f with tree } : Floor).finish r (j.failed e) := by
  simp [enter, h]

/-- A job that makes a call waits at a gate, or is answered at once. -/
theorem enter_of_call (p : Performer) {f : Floor} (r : Seat) {j : Job} {c : EngineCall}
    {tree : FileTree} (h : j.prepare f.studio f.tree = (.ok c, tree)) :
    (∃ gate, p.gate? c = some gate ∧
      f.enter p r j = ({ f.called tree r j c with gates := f.gates.wait gate r }, [])) ∨
      f.enter p r j = (f.called tree r j c).answer p r j c := by
  unfold enter
  rw [h]
  dsimp only
  split
  · rename_i gate hgate
    exact .inl ⟨gate, (Option.filter_eq_some_iff.mp hgate).1, rfl⟩
  · exact .inr rfl

theorem length_singles_enter (p : Performer) (f : Floor) (r : Seat) (j : Job) :
    (f.enter p r j).1.singles.length = f.singles.length := by
  rcases hprep : j.prepare f.studio f.tree with ⟨e | c, tree⟩
  · rw [enter_of_error p r hprep, length_singles_finish]
  · rcases enter_of_call p r hprep with ⟨gate, -, heq⟩ | heq
    · rw [heq]
      rfl
    · rw [heq, answer_eq, length_singles_finish]
      rfl

theorem step_enter {p : Performer} {f : Floor} {t : Nat} {j : Job} (h : f.jobs[t]? = some j) :
    f.step p (.enter t) = f.enter p (.queued t) j := by
  simp [step, h]

/-- Either somebody is answered, or nobody waits there and nothing happens. -/
theorem step_answer_cases (p : Performer) (f : Floor) (r : Seat) :
    (∃ j c, (r, j, c) ∈ f.calling ∧ f.step p (.answer r) = f.answer p r j c) ∨
      f.step p (.answer r) = (f, []) := by
  unfold step
  dsimp only
  split
  · rename_i r' j c hfind
    obtain rfl : r' = r := by simpa using List.find?_some hfind
    exact .inl ⟨j, c, List.mem_of_find?_eq_some hfind, rfl⟩
  · exact .inr rfl

/-! ### Effects -/

abbrev Standing := Floor × List Nat

/-- What a floor and what is ready come to. -/
def standing (s : Next) : Standing := (s.1, entering s.2)

/-- A job that may start, and the others; a job on its own may always start. -/
structure Takes (s : Standing) (r : Seat) (j : Job) (rest : List Nat) : Prop where
  ready : s.2.Perm (r.ticket?.toList ++ rest)
  job : ∀ t, r = .queued t → s.1.jobs[t]? = some j

theorem Takes.mem {f : Floor} {ready rest : List Nat} {r : Seat} {j : Job}
    (takes : Takes (f, ready) r j rest) {t : Nat} (ht : r = .queued t) : t ∈ ready := by
  refine takes.ready.mem_iff.mpr (List.mem_append_left _ ?_)
  simp [ht, Seat.ticket?]

/-- Whoever starts runs. -/
theorem Takes.running {f : Floor} {ready rest : List Nat} {r : Seat} {j : Job}
    (takes : Takes (f, ready) r j rest) : ∀ t, r = .queued t → t ∈ ready ++ f.outstanding :=
  fun _ ht => List.mem_append_left _ (takes.mem ht)

/-- A job on its own may always start. -/
theorem takes_single (f : Floor) (ready : List Nat) (n : Nat) (j : Job) :
    Takes (f, ready) (.single n) j ready := ⟨.rfl, fun t ht => by cases ht⟩

/-- A single thing that happens. Jobs come in only if they may be added. -/
inductive Effect (p : Performer) (adds : Prop) : Standing → Standing → Prop
  | aside (f : Floor) (ready : List Nat) (singles : List (Option Report)) (gates : Gates Seat) :
      Effect p adds (f, ready) ({ f with singles, gates }, ready)
  | fails {f : Floor} {ready rest : List Nat} {r : Seat} {j : Job} {e : Setback}
      {tree : FileTree} (takes : Takes (f, ready) r j rest) (own : r.ticket? = none → adds)
      (prep : j.prepare f.studio f.tree = (.error e, tree)) :
      Effect p adds (f, ready)
        ((finish { f with tree } r (j.failed e)).1,
          rest ++ entering (finish { f with tree } r (j.failed e)).2)
  | calls {f : Floor} {ready rest : List Nat} {r : Seat} {j : Job} {c : EngineCall}
      {tree : FileTree} (takes : Takes (f, ready) r j rest) (own : r.ticket? = none → adds)
      (prep : j.prepare f.studio f.tree = (.ok c, tree)) :
      Effect p adds (f, ready) (f.called tree r j c, rest)
  | answers {f : Floor} {ready : List Nat} {r : Seat} {j : Job} {c : EngineCall}
      (waits : (r, j, c) ∈ f.calling) :
      Effect p adds (f, ready)
        ((f.answer p r j c).1, ready ++ entering (f.answer p r j c).2)
  | submits {f : Floor} {ready : List Nat} {jobs : List Job} (own : jobs ≠ [] → adds) :
      Effect p adds (f, ready) ((f.submit jobs).1, ready ++ entering (f.submit jobs).2)
  | pauses (f : Floor) (ready : List Nat) : Effect p adds (f, ready) (f.pause, ready)
  | resumes (f : Floor) (ready : List Nat) :
      Effect p adds (f, ready) (f.resume.1, ready ++ entering f.resume.2)
  | clears (f : Floor) (ready : List Nat) : Effect p adds (f, ready) (f.clear.1, ready)

/-- Any number of effects. -/
abbrev Effects (p : Performer) (adds : Prop) : Standing → Standing → Prop :=
  Relation.ReflTransGen (Effect p adds)

/-- There are as many jobs as before. -/
def SameJobs (f f' : Floor) : Prop :=
  f'.jobs = f.jobs ∧ f'.singles.length = f.singles.length

section

variable {p : Performer} {adds : Prop}

theorem Effect.keeps {s s' : Standing} (e : Effect p adds s s') : s.1.Keeps s'.1 := by
  cases e with
  | aside f ready singles gates => exact ⟨rfl, rfl, List.prefix_rfl⟩
  | @fails f ready rest r j setback tree takes own prep =>
      have htree : f.Keeps { f with tree } := ⟨rfl, rfl, List.prefix_rfl⟩
      exact htree.trans (keeps_finish _ r _)
  | calls takes own prep => exact ⟨rfl, rfl, List.prefix_rfl⟩
  | answers waits => exact keeps_answer p _ _ _ _
  | submits own => exact keeps_submit _ _
  | pauses f ready => exact ⟨rfl, rfl, List.prefix_rfl⟩
  | resumes f ready => exact ⟨rfl, Queue.resume_limit _, List.prefix_rfl⟩
  | clears f ready => exact ⟨rfl, Queue.clear_limit _, List.prefix_rfl⟩

theorem Effects.keeps {s s' : Standing} (run : Effects p adds s s') : s.1.Keeps s'.1 := by
  induction run with
  | refl => exact Keeps.refl _
  | tail _ e ih => exact ih.trans e.keeps

/-- The files change only when a job is prepared, or a call is answered. -/
theorem Effect.tree {s s' : Standing} (e : Effect p adds s s') :
    s'.1.tree = s.1.tree ∨ (∃ j : Job, s'.1.tree = (j.prepare s.1.studio s.1.tree).2) ∨
      ∃ r j c, (r, j, c) ∈ s.1.calling ∧ s'.1.tree = (p.perform c s.1.tree).2 := by
  cases e with
  | @fails f ready rest r j setback tree takes own prep =>
      exact .inr (.inl ⟨j, by rw [finish_tree, prep]⟩)
  | @calls f ready rest r j c tree takes own prep => exact .inr (.inl ⟨j, by rw [prep]; rfl⟩)
  | @answers f ready r j c waits =>
      exact .inr (.inr ⟨r, j, c, waits, by rw [answer_eq, finish_tree]⟩)
  | _ => exact .inl rfl

theorem enter_effects {f : Floor} {ready rest : List Nat} {r : Seat} {j : Job}
    (takes : Takes (f, ready) r j rest) (own : r.ticket? = none → adds) :
    Effects p adds (f, ready) ((f.enter p r j).1, rest ++ entering (f.enter p r j).2) := by
  rcases hprep : j.prepare f.studio f.tree with ⟨e | c, tree⟩
  · rw [enter_of_error p r hprep]
    exact .single (.fails takes own hprep)
  · have hcall : Effect p adds (f, ready) (f.called tree r j c, rest) := .calls takes own hprep
    rcases enter_of_call p r hprep with ⟨gate, -, heq⟩ | heq
    · rw [heq]
      have hnone : entering [] = [] := rfl
      rw [hnone, List.append_nil]
      exact .tail (.single hcall) (.aside _ _ f.singles _)
    · rw [heq]
      exact .tail (.single hcall) (.answers (by simp [called]))

theorem begin_effects (f : Floor) (turns : List Turn) (a : Action)
    (own : ¬adds → SameJobs f (f.begin p a).1.1) :
    Effects p adds (f, entering turns)
      ((f.begin p a).1.1, entering turns ++ entering (f.begin p a).1.2) := by
  have hnone : entering [] = [] := rfl
  cases a with
  | reply r => simpa [Floor.begin, hnone] using Relation.ReflTransGen.refl
  | status => simpa [Floor.begin, hnone] using Relation.ReflTransGen.refl
  | single j answer =>
      -- there is one job more, so jobs may be added
      have hadds : adds := by
        by_contra hno
        have hlen := (own hno).2
        change (enter p { f with singles := f.singles ++ [none] } (.single f.singles.length)
          j).1.singles.length = _ at hlen
        rw [length_singles_enter, List.length_append, List.length_singleton] at hlen
        omega
      have haside : Effect p adds (f, entering turns)
          ({ f with singles := f.singles ++ [none] }, entering turns) := .aside f _ _ f.gates
      exact .head haside (enter_effects (takes_single _ _ f.singles.length j) fun _ => hadds)
  | queued jobs answer =>
      refine .single (.submits fun hjobs => ?_)
      by_contra hno
      have hsame : f.jobs ++ jobs = f.jobs := (own hno).1
      exact hjobs (List.append_right_eq_self.mp hsame)
  | pause =>
      rw [show (f.begin p .pause).1 = (f.pause, []) from rfl, hnone, List.append_nil]
      exact .single (.pauses f _)
  | resume => exact .single (.resumes f _)
  | clear =>
      rw [show (f.begin p .clear).1 = (f.clear.1, []) from rfl, hnone, List.append_nil]
      exact .single (.clears f _)

/-- A move is a sequence of effects, if the jobs that may start are known. -/
theorem Move.effects {s s' : Next} (m : Move p s s')
    (known : ∀ t ∈ entering s.2, ∃ j, s.1.jobs[t]? = some j)
    (own : ¬adds → SameJobs s.1 s'.1) : Effects p adds (standing s) (standing s') := by
  unfold standing
  cases m with
  | begin f turns a =>
      rw [entering_append]
      exact begin_effects f turns a own
  | wake f turns r waiting =>
      rw [entering_append, show entering [.answer r] = [] from rfl, List.append_nil]
      exact .single (.aside f _ f.singles _)
  | turn f before i after =>
      rw [entering_append _ (f.step p i).2]
      cases i with
      | enter t =>
          obtain ⟨j, hj⟩ := known t (by simp [entering_cons, Turn.ticket?])
          rw [step_enter hj]
          refine enter_effects ⟨?_, fun u hu => ?_⟩ fun h => by cases h
          · rw [entering_append, entering_append, entering_cons]
            exact List.perm_append_comm_assoc ..
          · cases hu
            exact hj
      | answer r =>
          -- an answer takes no ticket of its own
          have hready : entering (before ++ .answer r :: after) = entering (before ++ after) := by
            rw [entering_append, entering_append, entering_cons]
            rfl
          rw [hready]
          rcases step_answer_cases p f r with ⟨j, c, hc, heq⟩ | heq
          · rw [heq]
            exact .single (.answers hc)
          · rw [heq]
            dsimp only
            rw [show entering [] = [] from rfl, List.append_nil]

end

/-! ### Runs that bring no further job -/

theorem Move.length_singles {p : Performer} {s s' : Next} (m : Move p s s') :
    s.1.singles.length ≤ s'.1.singles.length := by
  cases m with
  | wake f turns r waiting => exact Nat.le_refl _
  | begin f turns a =>
      cases a with
      | single j answer =>
          change _ ≤ (enter p { f with singles := f.singles ++ [none] }
            (.single f.singles.length) j).1.singles.length
          rw [length_singles_enter, List.length_append]
          exact Nat.le_add_right _ _
      | _ => exact Nat.le_refl _
  | turn f before i after =>
      cases i with
      | enter t =>
          cases hj : f.jobs[t]? with
          | none => simp [step, hj]
          | some j =>
              rw [step_enter hj]
              exact Nat.le_of_eq (length_singles_enter p f _ j).symm
      | answer r =>
          rcases step_answer_cases p f r with ⟨j, c, -, heq⟩ | heq
          · exact Nat.le_of_eq (by rw [heq, answer_eq, length_singles_finish])
          · exact Nat.le_of_eq (by rw [heq])

theorem Leads.length_singles {p : Performer} {s s' : Next} (run : Leads p s s') :
    s.1.singles.length ≤ s'.1.singles.length := by
  induction run with
  | refl => exact Nat.le_refl _
  | tail _ m ih => exact Nat.le_trans ih m.length_singles

/-- If no job has come in along a run, none has come in before or after any moment of it. -/
theorem SameJobs.of_leads {p : Performer} {s m s' : Next} (h : SameJobs s.1 s'.1)
    (before : Leads p s m) (after : Leads p m s') :
    SameJobs s.1 m.1 ∧ SameJobs m.1 s'.1 := by
  have hjobs₁ := (Leads.keeps before).jobs
  have hjobs₂ := (Leads.keeps after).jobs
  have hsingles₁ := Leads.length_singles before
  have hsingles₂ := Leads.length_singles after
  obtain ⟨hjobs, hsingles⟩ := h
  rw [hjobs] at hjobs₂
  have hsame : s.1.jobs = m.1.jobs := hjobs₁.eq_of_length_le hjobs₂.length_le
  exact ⟨⟨hsame.symm, by omega⟩, ⟨hjobs.trans hsame, by omega⟩⟩

end Floor

end Soundworks
