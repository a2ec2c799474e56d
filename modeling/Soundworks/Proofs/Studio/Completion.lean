import Soundworks.Proofs.Studio.Rest
/-!
Carrying out what was begun gets to its end. Each turn and each answer uses up some of a backlog,
so the count of turns that a floor allows itself is never the reason to stop: a floor is left only
when nothing is ready and no call waits.

A turn counts two, as does a job that waits for its start, and a call that waits counts one. A turn
that makes a call so turns two into one; an answer takes a call away and uses up its own turn, and
the job that it lets start was counted before.
-/

namespace Soundworks

namespace Floor

variable {p : Performer}

theorem GoesOn.paused {s s' : Next} (run : GoesOn p s s') :
    s'.1.queue.paused = s.1.queue.paused := by
  induction run with
  | refl => rfl
  | tail _ m ih =>
      cases m with
      | turn f before i after => exact (paused_step p f i).trans ih
      | wake f turns r waiting => exact ih

/-- A run forgets no job, so it does not lower the count of turns that is allowed. -/
theorem turnBound_le {s s' : Next} (run : Leads p s s') : s.1.turnBound ≤ s'.1.turnBound := by
  have hjobs := (Leads.keeps run).jobs.length_le
  have hsingles := Leads.length_singles run
  unfold turnBound
  omega

/-! ### Who waits -/

/-- Every call waits at a gate, or is about to be answered. -/
def Gated (s : Next) : Prop :=
  ∀ r j c, (r, j, c) ∈ s.1.calling → r ∈ s.1.gates.waiting.map (·.2) ∨ .answer r ∈ s.2

namespace Gated

variable {f : Floor} {r : Seat} {j : Job} {c : EngineCall} {rest : List Turn}

theorem finish (h : Gated (f, rest)) (x : Report) :
    Gated ((f.finish r x).1, rest ++ (f.finish r x).2) := by
  intro r' j' c' hc
  rw [finish_calling] at hc
  rw [finish_gates]
  exact (h r' j' c' hc).imp_right (List.mem_append_left _)

/-- An answered call waits no more, even if nothing else is known of its seat. -/
theorem answer (h : Gated (f, .answer r :: rest)) :
    Gated ((f.answer p r j c).1, rest ++ (f.answer p r j c).2) := by
  rw [answer_eq]
  refine finish (fun r' j' c' hc => ?_) _
  obtain ⟨hc, hne⟩ := List.mem_filter.mp hc
  have hother : r' ≠ r := by simpa using hne
  refine (h r' j' c' hc).imp_right fun hmem => ?_
  rcases List.mem_cons.mp hmem with heq | hmem
  · cases heq
    exact absurd rfl hother
  · exact hmem

theorem enter (h : Gated (f, rest)) :
    Gated ((f.enter p r j).1, rest ++ (f.enter p r j).2) := by
  rcases hprep : j.prepare f.studio f.tree with ⟨e | c, tree⟩
  · rw [enter_of_error p r hprep]
    exact finish (f := { f with tree }) h _
  · have hcalled : ∀ r' j' c', (r', j', c') ∈ (f.called tree r j c).calling →
        (r', j', c') ∈ f.calling ∨ r' = r := by
      intro r' j' c' hc
      exact (List.mem_append.mp hc).imp_right fun hc => congrArg Prod.fst (List.mem_singleton.mp hc)
    rcases enter_of_call p r hprep with ⟨gate, -, heq⟩ | heq
    · rw [heq, List.append_nil]
      intro r' j' c' hc
      show r' ∈ (f.gates.waiting ++ [(gate, r)]).map (·.2) ∨ _
      rw [List.map_append, List.mem_append]
      rcases hcalled r' j' c' hc with hc | rfl
      · exact (h r' j' c' hc).imp_left .inl
      · exact .inl (.inr List.mem_cons_self)
    · rw [heq]
      refine answer (f := f.called tree r j c) fun r' j' c' hc => ?_
      rcases hcalled r' j' c' hc with hc | rfl
      · exact (h r' j' c' hc).imp_right (List.mem_cons_of_mem _)
      · exact .inr List.mem_cons_self

/-- A turn leaves every call at a gate or about to be answered. -/
theorem step {i : Turn} (h : Gated (f, i :: rest)) :
    Gated ((f.step p i).1, rest ++ (f.step p i).2) := by
  cases i with
  | enter t =>
      have hrest : Gated (f, rest) := by
        intro r' j' c' hc
        exact (h r' j' c' hc).imp_right fun hmem => by simpa using hmem
      cases hj : f.jobs[t]? with
      | none => simpa [Floor.step, hj] using hrest
      | some j =>
          rw [step_enter hj]
          exact hrest.enter
  | answer r =>
      rcases step_answer_cases p f r with ⟨j, c, -, heq⟩ | heq
      · rw [heq]
        exact h.answer
      · by_cases hwaits : ∃ j c, (r, j, c) ∈ f.calling
        · obtain ⟨j, c, hc⟩ := hwaits
          obtain ⟨j', c', -, hanswer⟩ := step_answer_of_mem p hc
          rw [hanswer]
          exact h.answer
        -- nobody waits there, so the turn is not missed
        · rw [heq, List.append_nil]
          intro r' j' c' hc
          refine (h r' j' c' hc).imp_right fun hmem => ?_
          rcases List.mem_cons.mp hmem with hr | hmem
          · cases hr
            exact absurd ⟨j', c', hc⟩ hwaits
          · exact hmem

end Gated

/-! ### What is left to do at the gates -/

/-- What is left to do, counted by those who wait at the gates. -/
def backlog (s : Next) : Nat :=
  2 * (s.1.queue.pending.length + s.2.length) + s.1.gates.waiting.length

theorem backlog_finish (f : Floor) (r : Seat) (x : Report) (rest : List Turn) :
    backlog ((f.finish r x).1, rest ++ (f.finish r x).2) ≤ backlog (f, rest) := by
  cases r with
  | single n => simp [finish_single, backlog]
  | queued t =>
      have hstart := f.queue.length_finish t x
      rw [finish_queued]
      simp only [backlog, List.length_append, List.length_map]
      omega

theorem backlog_answer (p : Performer) (f : Floor) (r : Seat) (j : Job) (c : EngineCall)
    (rest : List Turn) :
    backlog ((f.answer p r j c).1, rest ++ (f.answer p r j c).2) ≤ backlog (f, rest) := by
  rw [answer_eq]
  exact backlog_finish _ r _ rest

/-- A job that starts adds at most itself to those who wait. -/
theorem backlog_enter (p : Performer) (f : Floor) (r : Seat) (j : Job) (rest : List Turn) :
    backlog ((f.enter p r j).1, rest ++ (f.enter p r j).2) ≤ backlog (f, rest) + 1 := by
  rcases hprep : j.prepare f.studio f.tree with ⟨e | c, tree⟩
  · rw [enter_of_error p r hprep]
    exact (backlog_finish { f with tree } r _ rest).trans (Nat.le_succ _)
  · rcases enter_of_call p r hprep with ⟨gate, -, heq⟩ | heq
    · rw [heq, List.append_nil]
      simp only [backlog, called, Gates.wait, List.length_append, List.length_singleton]
      omega
    · rw [heq]
      exact (backlog_answer p (f.called tree r j c) r j c rest).trans (Nat.le_succ _)

/-- The answer to a call leaves no more to do than there was without its turn. -/
theorem backlog_step_answer (p : Performer) (f : Floor) (r : Seat) (rest : List Turn) :
    backlog ((f.step p (.answer r)).1, rest ++ (f.step p (.answer r)).2) ≤ backlog (f, rest) := by
  rcases step_answer_cases p f r with ⟨j, c, -, heq⟩ | heq
  · rw [heq]
    exact backlog_answer p f r j c rest
  · rw [heq, List.append_nil]

theorem backlog_step (p : Performer) (f : Floor) (i : Turn) (rest : List Turn) :
    backlog ((f.step p i).1, rest ++ (f.step p i).2) < backlog (f, i :: rest) := by
  have hcons : backlog (f, i :: rest) = backlog (f, rest) + 2 := by
    simp only [backlog, List.length_cons]
    omega
  cases i with
  | enter t =>
      cases hj : f.jobs[t]? with
      | none =>
          rw [show f.step p (.enter t) = (f, []) by simp [step, hj], List.append_nil, hcons]
          exact Nat.lt_add_of_pos_right Nat.zero_lt_two
      | some j =>
          have henter := backlog_enter p f (.queued t) j rest
          rw [step_enter hj]
          omega
  | answer r =>
      have hanswer := backlog_step_answer p f r rest
      omega

/-! ### Carrying out what is ready -/

/-- Where a run that begins nothing has got to when nothing is ready any more. -/
structure Settles (p : Performer) (s : Next) (f : Floor) : Prop where
  run : GoesOn p s (f, [])
  gated : Gated (f, [])
  backlog : backlog (f, []) ≤ backlog s

theorem Settles.head {s s' : Next} {f : Floor} (run : GoesOn p s s')
    (h : Settles p s' f) (hb : Floor.backlog s' ≤ Floor.backlog s) : Settles p s f :=
  ⟨run.trans h.run, h.gated, h.backlog.trans hb⟩

/-- Enough steps take what is ready to its end. -/
theorem settles_runReady {n : Nat} {f : Floor} {turns : List Turn} (hg : Gated (f, turns))
    (hn : backlog (f, turns) ≤ n) : Settles p (f, turns) (runReady (step p) n f turns) := by
  induction n generalizing f turns with
  | zero =>
      have hnone : turns = [] := by
        rw [← List.length_eq_zero_iff]
        simp only [backlog] at hn
        omega
      subst hnone
      exact ⟨.refl, hg, Nat.le_refl _⟩
  | succ n ih =>
      cases turns with
      | nil => exact ⟨.refl, hg, Nat.le_refl _⟩
      | cons i turns =>
          have hless := backlog_step p f i turns
          exact .head (.single (.turn f [] i turns))
            (ih hg.step (Nat.le_of_lt_succ (hless.trans_le hn))) hless.le

theorem settles_settle {f : Floor} {turns : List Turn} (hg : Gated (f, turns))
    (hb : backlog (f, turns) ≤ f.turnBound) : Settles p (f, turns) (settle p (f, turns)) :=
  settles_runReady hg hb

/-- Whoever is woken is answered at once, so no more is left to do than before it was woken. -/
theorem settles_woken {f : Floor} {r : Seat} (hg : Gated (f, [.answer r]))
    (hb : backlog (f, []) < f.turnBound) :
    Settles p (f, [.answer r]) (settle p (f, [.answer r])) ∧
      backlog (settle p (f, [.answer r]), []) ≤ backlog (f, []) := by
  obtain ⟨n, hn⟩ := Nat.exists_eq_succ_of_ne_zero (Nat.ne_zero_of_lt hb)
  have hanswer := backlog_step_answer p f r []
  have hrest := settles_runReady (p := p) hg.step
    (hanswer.trans (Nat.le_of_lt_succ (hn ▸ hb)))
  have hsettle : settle p (f, [.answer r]) =
      runReady (step p) n (f.step p (.answer r)).1 ([] ++ (f.step p (.answer r)).2) := by
    unfold settle
    rw [hn]
    rfl
  rw [hsettle]
  exact ⟨.head (.single (.turn f [] (.answer r) [])) hrest (backlog_step p f _ []).le,
    hrest.backlog.trans hanswer⟩

/-- Those who wait are answered one after the other, until nobody does. -/
theorem settles_answerInOrder {n : Nat} {f : Floor} (hg : Gated (f, []))
    (hb : backlog (f, []) ≤ f.turnBound) (hn : backlog (f, []) ≤ n) :
    Settles p (f, []) (answerInOrder p n f) ∧ (answerInOrder p n f).gates.waiting = [] := by
  induction n generalizing f with
  | zero =>
      refine ⟨⟨.refl, hg, Nat.le_refl _⟩, ?_⟩
      rw [← List.length_eq_zero_iff]
      simp only [backlog] at hn
      exact Nat.le_zero.mp ((Nat.le_add_left _ _).trans hn)
  | succ n ih =>
      unfold answerInOrder
      split
      · rename_i hnobody
        exact ⟨⟨.refl, hg, Nat.le_refl _⟩, List.isEmpty_iff.mp hnobody⟩
      · rename_i hwaiting
        obtain ⟨w, ws, hw⟩ := List.exists_cons_of_ne_nil
          (fun hnil => hwaiting (List.isEmpty_iff.mpr hnil))
        have hrelease : f.gates.releaseFirst = ({ f.gates with waiting := ws }, [w.2]) := by
          simp [Gates.releaseFirst, hw]
        simp only [hrelease, List.map_cons, List.map_nil]
        let g : Floor := { f with gates := { f.gates with waiting := ws } }
        have hless : backlog (g, []) < backlog (f, []) := by simp [g, backlog, hw]
        have hwoken : Gated (g, [.answer w.2]) := by
          intro r j c hc
          rcases hg r j c hc with hmem | hmem
          · rw [hw, List.map_cons] at hmem
            rcases List.mem_cons.mp hmem with rfl | hmem
            · exact .inr List.mem_cons_self
            · exact .inl hmem
          · cases hmem
        obtain ⟨hsettle, hleft⟩ := settles_woken (p := p) hwoken (hless.trans_le hb)
        have hbound := turnBound_le hsettle.run.leads
        have hleft := hleft.trans_lt hless
        obtain ⟨hdone, hnobody⟩ := ih hsettle.gated
          (hleft.le.trans (hb.trans hbound)) (Nat.le_of_lt_succ (hleft.trans_le hn))
        exact ⟨.head ((Relation.ReflTransGen.single (.wake f [] w.2 ws)).trans hsettle.run) hdone
          hleft.le, hnobody⟩

/-- Letting the jobs go on ends with a floor at rest. -/
theorem settles_complete {s : Next} (hg : Gated s) (hb : backlog s ≤ s.1.turnBound) :
    Settles p s (complete p s) ∧ AtRest (complete p s, []) := by
  obtain ⟨f, turns⟩ := s
  have hsettle : Settles p (f, turns) (settle p (f, turns)) := settles_settle hg hb
  have hbound := turnBound_le hsettle.run.leads
  obtain ⟨hdone, hnobody⟩ := settles_answerInOrder (p := p) hsettle.gated
    (hsettle.backlog.trans (hb.trans hbound)) (hsettle.backlog.trans (hb.trans hbound))
  refine ⟨.head hsettle.run hdone hsettle.backlog, rfl, ?_⟩
  by_contra hcalling
  obtain ⟨⟨r, j, c⟩, hc⟩ := List.exists_mem_of_ne_nil _ hcalling
  rcases hdone.gated r j c hc with hmem | hmem
  · rw [hnobody] at hmem
    cases hmem
  · cases hmem

end Floor

end Soundworks
