import Soundworks.Proofs.Queue.Clearing
import Soundworks.Proofs.Studio.FanOut
import Soundworks.Proofs.Studio.Rest
/-!
The requests whose jobs a clearing discards. Each discarded job is found once among the results of
the requests that were begun, so as many of these results tell of the clearing as it says.
-/

namespace Soundworks

/-- The jobs of the queue that a request waits for. -/
def Task.tickets : Task → List Nat
  | .queued tickets _ => tickets
  | .answered _ | .single _ _ => []

namespace Floor

variable {p : Performer}

/-- The requests `tasks` were begun, one after the other, on a run from `s`, where anything else
may have happened as well. -/
inductive Begins (p : Performer) (s : Next) : List Task → Next → Prop
  | start : Begins p s [] s
  | move {tasks : List Task} {m m' : Next} (begins : Begins p s tasks m) (move : Move p m m') :
      Begins p s tasks m'
  | request {tasks : List Task} {m : Next} {q : FanOut} {a : Action}
      (begins : Begins p s tasks m) (accepted : q.action m.1.studio m.1.tree = .ok a) :
      Begins p s (tasks ++ [(undertake p m a).2]) (undertake p m a).1

/-- The request has its response, which lists these results. -/
def Lists (f : Floor) (task : Task) (results : List Report) : Prop :=
  ∃ r, f.response? task = some r ∧ r.results? = some results

/-- All results of some requests, each with the ticket of its job. -/
def tagged (tasks : List Task) (results : List (List Report)) : List (Nat × Report) :=
  (List.zipWith (fun task rs => task.tickets.zip rs) tasks results).flatten

/-! ### The requests that were begun -/

/-- The request waits for jobs of the queue and lists their reports. -/
def OfQueue (task : Task) : Prop :=
  ∃ tickets answer, task = .queued tickets answer ∧ ∀ rs, (answer rs).results? = some rs

namespace Begins

variable {s m : Next} {tasks : List Task}

theorem leads (h : Begins p s tasks m) : Leads p s m := by
  induction h with
  | start => exact .refl
  | move _ move ih => exact ih.tail move
  | request _ _ ih => exact ih.tail (.begin _ _ _)

theorem ofQueue (h : Begins p s tasks m) : ∀ task ∈ tasks, OfQueue task := by
  induction h with
  | start => simp
  | move _ _ ih => exact ih
  | request _ accepted ih =>
      intro task htask
      rcases List.mem_append.mp htask with htask | htask
      · exact ih task htask
      · obtain ⟨jobs, answer, rfl, hanswer⟩ := FanOut.exists_queued accepted
        rw [List.mem_singleton.mp htask]
        exact ⟨_, answer, rfl, hanswer⟩

/-- The requests wait for different jobs, all of which were submitted. -/
theorem tickets_ordered (h : Begins p s tasks m) :
    (tasks.flatMap Task.tickets).Pairwise (· < ·) ∧
      ∀ t ∈ tasks.flatMap Task.tickets, t < m.1.jobs.length := by
  induction h with
  | start => exact ⟨.nil, by simp⟩
  | move _ move ih =>
      exact ⟨ih.1, fun t ht => Nat.lt_of_lt_of_le (ih.2 t ht) move.keeps.jobs.length_le⟩
  | @request tasks m q a _ accepted ih =>
      obtain ⟨jobs, answer, rfl, -⟩ := FanOut.exists_queued accepted
      have hnew : (undertake p m (.queued jobs answer)).2.tickets =
          (List.range jobs.length).map (m.1.jobs.length + ·) := rfl
      have hmore : (undertake p m (.queued jobs answer)).1.1.jobs.length =
          m.1.jobs.length + jobs.length := List.length_append
      rw [List.flatMap_append, List.flatMap_singleton, hnew, hmore]
      constructor
      · refine List.pairwise_append.mpr ⟨ih.1, ?_, ?_⟩
        · refine List.pairwise_map.mpr (List.pairwise_lt_range.imp fun hlt => ?_)
          omega
        · intro t ht u hu
          obtain ⟨i, -, rfl⟩ := List.mem_map.mp hu
          have hlt := ih.2 t ht
          omega
      · intro t ht
        rcases List.mem_append.mp ht with ht | ht
        · have hlt := ih.2 t ht
          omega
        · obtain ⟨i, hi, rfl⟩ := List.mem_map.mp ht
          have hlt := List.mem_range.mp hi
          omega

end Begins

/-! ### Their results -/

/-- The results of a request are the reports of its jobs. -/
theorem Lists.reports {f : Floor} {task : Task} {rs : List Report} (h : f.Lists task rs)
    (hq : OfQueue task) : f.reports? task.tickets = some rs := by
  obtain ⟨tickets, answer, rfl, hanswer⟩ := hq
  obtain ⟨r, hr, hrs⟩ := h
  obtain ⟨reports, hreports, rfl⟩ := Option.map_eq_some_iff.mp hr
  rw [hanswer] at hrs
  cases hrs
  exact hreports

theorem reports_zip {f : Floor} {ts : List Nat} {rs : List Report}
    (h : f.reports? ts = some rs) :
    (ts.zip rs).map Prod.fst = ts ∧ ∀ x ∈ ts.zip rs, f.report? x.1 = some x.2 := by
  have hmap : ts.map f.report? = rs.map some := Fallible.mapM_eq_some.mp h
  have hlen : ts.length = rs.length := by simpa using congrArg List.length hmap
  refine ⟨List.map_fst_zip (Nat.le_of_eq hlen), fun x hx => ?_⟩
  obtain ⟨i, hi, rfl⟩ := List.mem_iff_getElem.mp hx
  have hat := congrArg (·[i]?) hmap
  rw [List.length_zip] at hi
  have hts : i < ts.length := by omega
  have hrs : i < rs.length := by omega
  simpa [hts, hrs] using hat

/-- The results of requests are the reports of all their jobs, one for each. -/
theorem tagged_reports {f : Floor} {tasks : List Task} {results : List (List Report)}
    (hq : ∀ task ∈ tasks, OfQueue task) (h : List.Forall₂ f.Lists tasks results) :
    (tagged tasks results).map Prod.fst = tasks.flatMap Task.tickets ∧
      ∀ x ∈ tagged tasks results, f.report? x.1 = some x.2 := by
  induction h with
  | nil => exact ⟨rfl, by simp [tagged]⟩
  | @cons task rs tasks results hlists _ ih =>
      obtain ⟨hfst, hmem⟩ := reports_zip (hlists.reports (hq task List.mem_cons_self))
      obtain ⟨hfst', hmem'⟩ := ih fun task ht => hq task (List.mem_cons_of_mem _ ht)
      have hcons : tagged (task :: tasks) (rs :: results) =
          task.tickets.zip rs ++ tagged tasks results := rfl
      rw [hcons, List.map_append, hfst, hfst', List.flatMap_cons]
      refine ⟨rfl, fun x hx => ?_⟩
      rcases List.mem_append.mp hx with hx | hx
      · exact hmem x hx
      · exact hmem' x hx

/-! ### What a clearing means for them -/

/-- What the results of requests tell of a clearing of `m`, once they are all there on `s'`. -/
structure TellsOfClear (p : Performer) (m s' : Next) (told : List (Nat × Report)) : Prop where
  /-- The one who asked is told the number of discarded jobs. -/
  response : ∃ status, (undertake p m .clear).2 =
    .answered (.control { action := "clear", discarded := m.1.clear.2, status })
  /-- So many of the results tell of jobs that this clearing has discarded. -/
  count : told.countP (fun x =>
    decide (x.1 ∈ m.1.queue.unsettled ∧ x.2.error = some discardMessage)) = m.1.clear.2
  /-- The results of the discarded jobs are failures that say so. -/
  removed : ∀ x ∈ told, x.1 ∈ m.1.queue.unsettled →
    x.2.success = false ∧ x.2.error = some discardMessage
  /-- Whoever says so as well was discarded by another clearing, or has ended so. -/
  others : ∀ x ∈ told, x.2.error = some discardMessage → x.1 ∈ m.1.queue.unsettled ∨
    m.1.queue.outcome? x.1 = some .discarded ∨ Discards p (undertake p m .clear).1 s' x.1 ∨
    s'.1.queue.outcome? x.1 = some (.ended x.2)

theorem report?_discardMessage {f : Floor} {t : Nat} {x : Report} (h : f.report? t = some x)
    (herror : x.error = some discardMessage) :
    f.queue.outcome? t = some .discarded ∨ f.queue.outcome? t = some (.ended x) := by
  unfold report? at h
  split at h
  · cases h
  · rename_i o ho
    cases h
    exact .inr ho
  · rename_i ho
    exact .inl ho
  · obtain ⟨j, -, rfl⟩ := Option.map_eq_some_iff.mp h
    have hother : some "Unexpected error: " ≠ some discardMessage := by decide
    exact absurd herror hother

theorem Begins.tellsOfClear {s m s' : Next} {tasks : List Task} (begins : Begins p s tasks m)
    (hs : (standing s).1.Seated (standing s).2)
    (howned : ∀ t ∈ m.1.queue.unsettled, ∃ task ∈ tasks, t ∈ task.tickets)
    (run : Leads p (undertake p m .clear).1 s') {results : List (List Report)}
    (hresults : List.Forall₂ s'.1.Lists tasks results) :
    TellsOfClear p m s' (tagged tasks results) := by
  have hm := hs.leads begins.leads
  have hclear : Leads p m (undertake p m .clear).1 := .single (.begin m.1 m.2 .clear)
  obtain ⟨hfst, hreports⟩ := tagged_reports begins.ofQueue hresults
  obtain ⟨hordered, hknown⟩ := begins.tickets_ordered
  have hremoved : ∀ x ∈ tagged tasks results, x.1 ∈ m.1.queue.unsettled →
      x.2.success = false ∧ x.2.error = some discardMessage := by
    intro x hx hwaits
    have hmem : x.1 ∈ tasks.flatMap Task.tickets := hfst ▸ List.mem_map_of_mem hx
    have hj := (Leads.keeps (hclear.trans run)).job (List.getElem?_eq_getElem (hknown _ hmem))
    have hreport := hreports x hx
    rw [hm.report_of_clear hwaits run hj] at hreport
    rw [← Option.some.inj hreport]
    exact ⟨rfl, rfl⟩
  refine ⟨⟨_, rfl⟩, ?_, hremoved, ?_⟩
  -- each waiting job is found once among the jobs of the requests
  · have hsame : (tagged tasks results).countP (fun x =>
          decide (x.1 ∈ m.1.queue.unsettled ∧ x.2.error = some discardMessage)) =
        (tasks.flatMap Task.tickets).countP fun t => t ∈ m.1.queue.unsettled := by
      rw [← hfst, List.countP_map]
      refine List.countP_congr fun x hx => ?_
      simp only [Function.comp_apply, decide_eq_true_eq]
      exact ⟨fun h => h.1, fun h => ⟨h, (hremoved x hx h).2⟩⟩
    have hperm : ((tasks.flatMap Task.tickets).filter fun t => t ∈ m.1.queue.unsettled).Perm
        m.1.queue.unsettled := by
      refine (List.perm_ext_iff_of_nodup ((hordered.imp Nat.ne_of_lt).filter _) ?_).mpr ?_
      · have hpending := (List.nodup_append.mp hm.orderly.nodup).2.1
        exact hpending.filter _
      · intro t
        simp only [List.mem_filter, decide_eq_true_eq]
        exact ⟨fun h => h.2, fun h => ⟨List.mem_flatMap.mpr (howned t h), h⟩⟩
    rw [hsame, List.countP_eq_length_filter, hperm.length_eq]
    rfl
  · intro x hx herror
    rcases report?_discardMessage (hreports x hx) herror with hdiscarded | hended
    · by_cases hwaits : x.1 ∈ m.1.queue.unsettled
      · exact .inl hwaits
      by_cases hbefore : m.1.queue.outcome? x.1 = some .discarded
      · exact .inr (.inl hbefore)
      refine .inr (.inr (.inl (discards_of_leads run ?_ hdiscarded)))
      show m.1.queue.clear.1.outcome? x.1 ≠ some .discarded
      rw [Queue.clear_outcome?, if_neg]
      · exact hbefore
      · exact fun hc => hwaits (Queue.mem_unsettledIn.mpr ⟨hc.1, hc.2.2⟩)
    · exact .inr (.inr (.inr hended))

/-- Whatever was begun, a run leads to where all requests have their responses. -/
theorem Begins.answered {s m : Next} {tasks : List Task} (begins : Begins p s tasks m)
    (hs : Tended s) : ∃ s' results, Leads p (undertake p m .clear).1 s' ∧
      List.Forall₂ s'.1.Lists tasks results := by
  have hm := hs.leads begins.leads
  obtain ⟨s', hgo, hrest, hpaused⟩ :=
    exists_atRest p (undertake p (undertake p m .clear).1 .resume).1
  have hresume : Leads p (undertake p m .clear).1
      (undertake p (undertake p m .clear).1 .resume).1 := .single (.begin _ _ .resume)
  have hclear : Leads p m (undertake p m .clear).1 := .single (.begin m.1 m.2 .clear)
  have run : Leads p (undertake p m .clear).1 s' := hresume.trans hgo.leads
  have hopen : s'.1.queue.paused = false := hpaused.trans (Queue.resume_paused _)
  have hs' := hm.leads (hclear.trans run)
  have hlists : ∀ task ∈ tasks, ∃ rs, s'.1.Lists task rs := by
    intro task htask
    obtain ⟨tickets, answer, rfl, hanswer⟩ := begins.ofQueue task htask
    have hreports : ∃ rs, s'.1.reports? tickets = some rs := by
      refine Fallible.exists_mapM_eq_some.mpr fun t ht => ?_
      have hlt := begins.tickets_ordered.2 t (List.mem_flatMap.mpr ⟨_, htask, ht⟩)
      have hj := (Leads.keeps (hclear.trans run)).job (List.getElem?_eq_getElem hlt)
      have hknown := (List.getElem?_eq_some_iff.mp hj).1
      exact (exists_report?_iff hj).mpr (hs'.isSettled_of_atRest hrest hopen hknown)
    obtain ⟨rs, hrs⟩ := hreports
    exact ⟨rs, answer rs, by simp [response?, hrs], hanswer rs⟩
  obtain ⟨results, hresults⟩ : ∃ results, List.Forall₂ s'.1.Lists tasks results := by
    clear begins
    induction tasks with
    | nil => exact ⟨[], .nil⟩
    | cons task tasks ih =>
        obtain ⟨rs, hrs⟩ := hlists task List.mem_cons_self
        obtain ⟨results, hresults⟩ := ih fun task ht => hlists task (List.mem_cons_of_mem _ ht)
        exact ⟨rs :: results, .cons hrs hresults⟩
  exact ⟨s', results, run, hresults⟩

/-- A clearing discards the jobs that wait unsettled and tells how many they are. Nothing else is
changed by it, none of them is ever taken, and the queue goes on as one that never held them. If
they belong to requests for several jobs, then as many of the results of these requests tell of
the clearing, and a run leads to where all the results are there. -/
theorem clear_discards_waiting :
    (∀ {α : Type} {limit : Int} {q : Queue α} {es : List (Queue.Happening α)}
        {w : Queue.Watch α}, Queue.ofLimit? limit = some q →
        Queue.Watch.Run { queue := q } es w →
        w.Cleared ∧ Queue.Watch.NeverHeld w.queue.unsettled q es w) ∧
    ∀ {p : Performer} {limit : Int} {s m : Next} {tasks : List Task},
      Reached p limit s → Begins p s tasks m →
      (∀ t ∈ m.1.queue.unsettled, ∃ task ∈ tasks, t ∈ task.tickets) →
      (∃ s' results, Leads p (undertake p m .clear).1 s' ∧
        List.Forall₂ s'.1.Lists tasks results) ∧
      ∀ s' results, Leads p (undertake p m .clear).1 s' →
        List.Forall₂ s'.1.Lists tasks results →
        TellsOfClear p m s' (tagged tasks results) :=
  ⟨fun hq run => ⟨(run.sound (Queue.Watch.sound_fresh hq)).cleared, run.neverHeld hq⟩,
    fun hs begins howned => ⟨begins.answered hs.tended,
      fun _ _ run hresults => begins.tellsOfClear hs.seated howned run hresults⟩⟩

theorem soundsBegun_begins :
    Begins mutePerformer (narrowFloor, []) [soundsBegun.2] soundsCalling :=
  .move (.request (q := .batch soundsBatch) .start rfl) (.turn _ [] (.enter 0) [])

/-- On a queue a job runs, and of three that wait one is cancelled: two are discarded. On a floor
the second of two sounds waits, and its result alone tells that it was discarded. -/
theorem clear_discards_two_and_one :
    (∃ w : Queue.Watch String, w.Cleared ∧ w.queue.clear.2 = 2 ∧ w.queue.unsettled = [1, 3] ∧
      Queue.Watch.NeverHeld [1, 3] { limit := 1, limit_pos := Nat.zero_lt_one }
        [.submit, .submit, .submit, .submit, .begin 0, .cancel 2] w) ∧
    ∃ s' results, Leads mutePerformer soundsCleared s' ∧
      List.Forall₂ s'.1.Lists [soundsBegun.2] results ∧
      TellsOfClear mutePerformer soundsCalling s' (tagged [soundsBegun.2] results) ∧
      soundsCalling.1.clear.2 = 1 := by
  have hrun := Queue.Watch.run_of_allowsAll
    ({ queue := { limit := 1, limit_pos := Nat.zero_lt_one } } : Queue.Watch String)
    [.submit, .submit, .submit, .submit, .begin 0, .cancel 2] (by decide)
  have hlimit : Queue.ofLimit? 1 = some (⟨1, Nat.zero_lt_one, _, _, _, _⟩ : Queue String) := rfl
  obtain ⟨hcleared, hnever⟩ := clear_discards_waiting.1 hlimit hrun
  have howned : ∀ t ∈ soundsCalling.1.queue.unsettled,
      ∃ task ∈ [soundsBegun.2], t ∈ task.tickets := by
    have hwaits : soundsCalling.1.queue.unsettled = [1] := by decide +kernel
    have htickets : soundsBegun.2.tickets = [0, 1] := by decide
    simp [hwaits, htickets]
  obtain ⟨⟨s', results, run, hresults⟩, htells⟩ := clear_discards_waiting.2
    (narrowFloor_reached mutePerformer) soundsBegun_begins howned
  exact ⟨⟨_, hcleared, by decide, by decide, hnever⟩, s', results, run, hresults,
    htells s' results run hresults, by decide +kernel⟩

end Floor

end Soundworks
