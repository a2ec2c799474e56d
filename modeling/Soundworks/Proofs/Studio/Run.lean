import Mathlib.Logic.Relation
import Soundworks.Proofs.Files.Tree
import Soundworks.Proofs.Queue.Orderly
import Soundworks.Tool.Action
/-!
Runs of a studio at work. At any time an action may be begun, something that is ready may go on,
or a call that waits may become ready for its answer; the order is free.
-/

namespace Soundworks

namespace Floor

/-- What can happen on a floor. -/
inductive Move (p : Performer) : Next → Next → Prop
  | begin (f : Floor) (turns : List Turn) (a : Action) :
      Move p (f, turns) ((f.begin p a).1.1, turns ++ (f.begin p a).1.2)
  | turn (f : Floor) (before : List Turn) (i : Turn) (after : List Turn) :
      Move p (f, before ++ i :: after) ((f.step p i).1, before ++ after ++ (f.step p i).2)
  | wake (f : Floor) (turns : List Turn) (r : Seat) (waiting : List (String × Seat)) :
      Move p (f, turns) ({ f with gates := { f.gates with waiting } }, turns ++ [.answer r])

def undertake (p : Performer) (s : Next) (a : Action) : Next × Task :=
  (((s.1.begin p a).1.1, s.2 ++ (s.1.begin p a).1.2), (s.1.begin p a).2)

/-- Any number of moves. -/
abbrev Leads (p : Performer) : Next → Next → Prop := Relation.ReflTransGen (Move p)

/-- What a fresh floor whose queue has the given bound can come to. -/
def Reached (p : Performer) (limit : Int) (s : Next) : Prop :=
  ∃ studio tree queue, tree.Grounded ∧ Queue.ofLimit? limit = some queue ∧
    Leads p ({ studio, queue, tree }, []) s

theorem Reached.leads {p : Performer} {limit : Int} {s s' : Next} (h : Reached p limit s)
    (run : Leads p s s') : Reached p limit s' := by
  obtain ⟨studio, tree, queue, hg, hq, before⟩ := h
  exact ⟨studio, tree, queue, hg, hq, before.trans run⟩

/-! ### What is carried out is a run -/

/-- Settling is a run, also while other things on the left are ready and are not taken. -/
theorem leads_settle (p : Performer) (f : Floor) (left turns : List Turn) :
    ∃ rest, Leads p (f, left ++ turns) (settle p (f, turns), left ++ rest) := by
  suffices h : ∀ n f turns, ∃ rest,
      Leads p (f, left ++ turns) (runReady (step p) n f turns, left ++ rest) from h _ f turns
  intro n
  induction n with
  | zero => exact fun f turns => ⟨turns, .refl⟩
  | succ n ih =>
      intro f turns
      cases turns with
      | nil => exact ⟨[], .refl⟩
      | cons i turns =>
          obtain ⟨rest, hrest⟩ := ih (f.step p i).1 (turns ++ (f.step p i).2)
          rw [← List.append_assoc] at hrest
          exact ⟨rest, .head (Move.turn f left i turns) hrest⟩

theorem leads_answerInOrder (p : Performer) (n : Nat) (f : Floor) (left : List Turn) :
    ∃ rest, Leads p (f, left) (answerInOrder p n f, left ++ rest) := by
  induction n generalizing f left with
  | zero => exact ⟨[], by simpa [answerInOrder] using .refl⟩
  | succ n ih =>
      unfold answerInOrder
      split
      · exact ⟨[], by simpa using .refl⟩
      · rename_i hwaiting
        obtain ⟨w, ws, hw⟩ := List.exists_cons_of_ne_nil
          (fun hnil => hwaiting (List.isEmpty_iff.mpr hnil))
        -- whoever has waited longest is woken, and all that follows is settled
        have hwake := Move.wake (p := p) f left w.2 ws
        obtain ⟨rest₁, h₁⟩ := leads_settle p { f with gates := { f.gates with waiting := ws } }
          left [.answer w.2]
        obtain ⟨rest₂, h₂⟩ := ih _ (left ++ rest₁)
        refine ⟨rest₁ ++ rest₂, ?_⟩
        rw [← List.append_assoc]
        simpa [Gates.releaseFirst, hw] using Relation.ReflTransGen.head hwake (h₁.trans h₂)

/-- Letting the jobs go on until no call waits is one of the runs. -/
theorem leads_complete (p : Performer) (s : Next) :
    ∃ rest, Leads p s (complete p s, rest) := by
  obtain ⟨rest₁, h₁⟩ := leads_settle p s.1 [] s.2
  obtain ⟨rest₂, h₂⟩ := leads_answerInOrder p (settle p s).turnBound (settle p s) rest₁
  exact ⟨rest₁ ++ rest₂, h₁.trans h₂⟩

/-! ### What no move changes -/

/-- The studio and the bound of the queue stay, and no job is forgotten. -/
structure Keeps (f f' : Floor) : Prop where
  studio : f'.studio = f.studio
  limit : f'.queue.limit = f.queue.limit
  jobs : f.jobs <+: f'.jobs

namespace Keeps

theorem refl (f : Floor) : f.Keeps f := ⟨rfl, rfl, List.prefix_rfl⟩

theorem trans {f f' f'' : Floor} (h : f.Keeps f') (h' : f'.Keeps f'') : f.Keeps f'' :=
  ⟨h'.studio.trans h.studio, h'.limit.trans h.limit, h.jobs.trans h'.jobs⟩

theorem job {f f' : Floor} (h : f.Keeps f') {t : Nat} {j : Job} (hj : f.jobs[t]? = some j) :
    f'.jobs[t]? = some j := by
  obtain ⟨more, hmore⟩ := h.jobs
  obtain ⟨hlt, -⟩ := List.getElem?_eq_some_iff.mp hj
  rw [← hmore, List.getElem?_append_left hlt, hj]

end Keeps

theorem keeps_finish (f : Floor) (r : Seat) (x : Report) : f.Keeps (f.finish r x).1 := by
  cases r with
  | queued t => exact ⟨rfl, Queue.finish_limit _ _ _, List.prefix_rfl⟩
  | single n => exact ⟨rfl, rfl, List.prefix_rfl⟩

theorem keeps_answer (p : Performer) (f : Floor) (r : Seat) (j : Job) (c : EngineCall) :
    f.Keeps (f.answer p r j c).1 := by
  refine Keeps.trans ?_ (keeps_finish _ r _)
  exact ⟨rfl, rfl, List.prefix_rfl⟩

theorem keeps_enter (p : Performer) (f : Floor) (r : Seat) (j : Job) :
    f.Keeps (f.enter p r j).1 := by
  unfold enter
  split
  · refine Keeps.trans ?_ (keeps_finish _ r _)
    exact ⟨rfl, rfl, List.prefix_rfl⟩
  · dsimp only
    split
    · exact ⟨rfl, rfl, List.prefix_rfl⟩
    · refine Keeps.trans ?_ (keeps_answer p _ r j _)
      exact ⟨rfl, rfl, List.prefix_rfl⟩

theorem keeps_step (p : Performer) (f : Floor) (i : Turn) : f.Keeps (f.step p i).1 := by
  cases i with
  | enter t =>
      unfold step
      dsimp only
      cases hj : f.jobs[t]? with
      | none => exact Keeps.refl f
      | some j => exact keeps_enter p f (.queued t) j
  | answer r =>
      unfold step
      dsimp only
      split
      · exact keeps_answer p f _ _ _
      · exact Keeps.refl f

theorem keeps_submit (f : Floor) (jobs : List Job) : f.Keeps (f.submit jobs).1 :=
  ⟨rfl, Queue.submitMany_limit _ _, List.prefix_append _ _⟩

theorem keeps_begin (p : Performer) (f : Floor) (a : Action) : f.Keeps (f.begin p a).1.1 := by
  cases a with
  | reply r => exact Keeps.refl f
  | status => exact Keeps.refl f
  | single j answer =>
      refine Keeps.trans ?_ (keeps_enter p _ (.single f.singles.length) j)
      exact ⟨rfl, rfl, List.prefix_rfl⟩
  | queued jobs answer => exact keeps_submit f jobs
  | pause => exact ⟨rfl, rfl, List.prefix_rfl⟩
  | resume => exact ⟨rfl, Queue.resume_limit _, List.prefix_rfl⟩
  | clear => exact ⟨rfl, Queue.clear_limit _, List.prefix_rfl⟩

theorem Move.keeps {p : Performer} {s s' : Next} (m : Move p s s') : s.1.Keeps s'.1 := by
  cases m with
  | begin f turns a => exact keeps_begin p f a
  | turn f before i after => exact keeps_step p f i
  | wake f turns r waiting => exact ⟨rfl, rfl, List.prefix_rfl⟩

theorem Leads.keeps {p : Performer} {s s' : Next} (run : Leads p s s') : s.1.Keeps s'.1 := by
  induction run with
  | refl => exact Keeps.refl _
  | tail _ m ih => exact ih.trans m.keeps

theorem Reached.limit_eq {p : Performer} {limit : Int} {s : Next} (h : Reached p limit s) :
    (s.1.queue.limit : Int) = limit := by
  obtain ⟨studio, tree, queue, -, hq, run⟩ := h
  rw [(Leads.keeps run).limit]
  exact Queue.limit_of_ofLimit? hq

end Floor

end Soundworks
