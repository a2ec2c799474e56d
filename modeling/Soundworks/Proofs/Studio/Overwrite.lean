import Soundworks.Proofs.Studio.Invariant
import Soundworks.Proofs.Studio.Results
/-!
Jobs that may not replace their outputs. A job looks for its output before it calls the engine, and
the engine writes only later. So of the jobs of one batch two can succeed with the same output,
and they do exactly when their calls wait at the same time at some moment.
-/

namespace Soundworks

namespace Floor

/-- A job of the queue has a call for a path that waits, or has made the file there. -/
def Aims (f : Floor) (t : Nat) (path : String) : Prop :=
  (∃ c, f.Calls t c ∧ c.output = path) ∨
    ∃ x, f.queue.outcome? t = some (.ended x) ∧ x.success = true ∧ x.outputPath = path

/-- Two jobs of the queue wait at the same time with calls for one path. -/
def Collide (f : Floor) (t u : Nat) (path : String) : Prop :=
  ∃ c d, f.Calls t c ∧ f.Calls u d ∧ c.output = path ∧ d.output = path

/-- A job of the queue makes a call; if it may not replace its output, no file is there. -/
structure Starts (f f' : Floor) (t : Nat) (c : EngineCall) : Prop where
  calling : ∃ j, f'.calling = f.calling ++ [(.queued t, j, c)]
  queue : f'.queue = f.queue
  vacant : ∀ j, f.jobs[t]? = some j → j.overwrite = false → f.tree.isFile c.output = false

/-- Nobody aims at a path who has not done so before. -/
def Quiet (f f' : Floor) : Prop := ∀ t path, f'.Aims t path → f.Aims t path

/-! ### Who aims at a path -/

theorem quiet_of {f f' : Floor} (hcalls : ∀ t c, f'.Calls t c → f.Calls t c)
    (hends : ∀ t x, f'.queue.outcome? t = some (.ended x) → x.success = true →
      f.queue.outcome? t = some (.ended x) ∨ ∃ c, f.Calls t c ∧ c.output = x.outputPath) :
    f.Quiet f' := by
  rintro t path (⟨c, hc, hpath⟩ | ⟨x, hx, hsuccess, hpath⟩)
  · exact .inl ⟨c, hcalls t c hc, hpath⟩
  · rcases hends t x hx hsuccess with hx | ⟨c, hc, hc'⟩
    · exact .inr ⟨x, hx, hsuccess, hpath⟩
    · exact .inl ⟨c, hc, hc'.trans hpath⟩

theorem Holds.quiet_answer {f : Floor} {running : List Nat} (h : f.Holds running)
    (hout : ∀ t ∈ f.outstanding, t ∈ running) (p : Performer) {r : Seat} {j : Job}
    {c : EngineCall} (hc : (r, j, c) ∈ f.calling) : f.Quiet (f.answer p r j c).1 := by
  rw [answer_eq]
  refine quiet_of ?_ ?_
  · rintro t c' ⟨j', hmem⟩
    rw [finish_calling] at hmem
    exact ⟨j', (List.mem_filter.mp hmem).1⟩
  · intro t x hx hsuccess
    have hr : ∀ s, r = .queued s → s ∈ running := by
      rintro s rfl
      exact hout s (mem_outstanding.mpr ⟨c, j, hc⟩)
    rcases ended_of_finish hx h.orderly hr with ⟨rfl, rfl⟩ | hx
    · exact .inr ⟨c, ⟨j, hc⟩, (outputPath_conclude ..).symm⟩
    · exact .inl hx

/-- A job that starts makes a call, or does not change who aims at what. -/
theorem Holds.enter_effect {p : Performer} (hp : p.Suspends) {f : Floor} {running : List Nat}
    (h : f.Holds running) {r : Seat} {j : Job}
    (hr : ∀ t, r = .queued t → t ∈ running ∧ f.jobs[t]? = some j) :
    f.Quiet (f.enter p r j).1 ∨ ∃ t c, Starts f (f.enter p r j).1 t c := by
  rcases enter_cases hp h.shut r j with ⟨e, tree, -, heq⟩ |
    ⟨c, tree, gates, most, hprep, -, heq⟩
  -- over at once, and without success
  · refine .inl (quiet_of ?_ ?_)
    · rintro t c ⟨j', hmem⟩
      rw [heq, finish_calling] at hmem
      exact ⟨j', hmem⟩
    · intro t x hx hsuccess
      rw [heq] at hx
      rcases ended_of_finish hx h.orderly fun s hs => (hr s hs).1 with ⟨-, rfl⟩ | hx
      · simp [Job.failed, Job.report] at hsuccess
      · exact .inl hx
  · cases r with
    | single n =>
        refine .inl (quiet_of ?_ ?_)
        · rintro t c' ⟨j', hmem⟩
          rw [heq] at hmem
          refine ⟨j', ?_⟩
          simpa using hmem
        · intro t x hx _
          rw [heq] at hx
          exact .inl hx
    | queued t =>
        refine .inr ⟨t, c, ⟨j, by rw [heq]⟩, by rw [heq], ?_⟩
        intro j' hj' hover
        -- a file at the output would have been seen
        have hsame := (hr t rfl).2
        rw [hj'] at hsame
        obtain rfl : j' = j := Option.some.inj hsame
        obtain ⟨hpath, hvacant⟩ := Job.output_of_prepare hprep
        have hgrows := j'.grows_prepare f.studio f.tree
        rw [hprep] at hgrows
        have habs := f.studio.place.isAbsolute_resolve j'.output
        rw [← hpath] at habs
        by_contra hfile
        have hfile' := hgrows.isFile ((Bool.not_eq_false _).mp hfile)
        have hpresent := (hgrows.grounded h.grounded).present_of_isFile habs hfile'
          f.studio.place.directory
        rw [hvacant hover] at hpresent
        cases hpresent

theorem quiet_submit (f : Floor) (jobs : List Job) : f.Quiet (f.submit jobs).1 := by
  refine quiet_of (fun _ _ hc => hc) fun t x hx _ => .inl ?_
  exact (Queue.submitMany_outcome? f.queue jobs.length t).symm.trans hx

theorem quiet_resume (f : Floor) : f.Quiet f.resume.1 := by
  refine quiet_of (fun _ _ hc => hc) fun t x hx _ => .inl ?_
  exact (Queue.resume_outcome? f.queue t).symm.trans hx

theorem quiet_clear (f : Floor) : f.Quiet f.clear.1 := by
  refine quiet_of (fun _ _ hc => hc) fun t x hx _ => .inl ?_
  exact (Queue.clear_outcome?_iff (by simp)).mp hx

theorem Sound.begin_effect {p : Performer} (hp : p.Suspends) {f : Floor} {turns : List Turn}
    (h : Sound (f, turns)) (a : Action) :
    f.Quiet (f.begin p a).1.1 ∨ ∃ t c, Starts f (f.begin p a).1.1 t c := by
  cases a with
  | reply r => exact .inl fun _ _ ha => ha
  | status => exact .inl fun _ _ ha => ha
  | pause => exact .inl fun _ _ ha => ha
  | queued jobs answer => exact .inl (quiet_submit f jobs)
  | resume => exact .inl (quiet_resume f)
  | clear => exact .inl (quiet_clear f)
  | single j answer =>
      have h' : f.Holds (entering turns ++ f.outstanding) := h
      have hseat : ∀ t, Seat.single f.singles.length = .queued t →
          t ∈ entering turns ++ f.outstanding ∧ f.jobs[t]? = some j := fun t ht => by cases ht
      rcases (h'.onSingles (f.singles ++ [none])).enter_effect hp hseat with hq | ⟨t, c, hst⟩
      · exact .inl hq
      · exact .inr ⟨t, c, hst.calling, hst.queue, hst.vacant⟩

/-- A move makes one call for a job of the queue, or does not change who aims at what. -/
theorem Sound.effect {p : Performer} (hp : p.Suspends) {s s' : Next} (h : Sound s)
    (m : Move p s s') : s.1.Quiet s'.1 ∨ ∃ t c, Starts s.1 s'.1 t c := by
  cases m with
  | begin f turns a => exact h.begin_effect hp a
  | wake f turns r waiting => exact .inl fun _ _ ha => ha
  | turn f before i after =>
      have h' : f.Holds (entering (before ++ i :: after) ++ f.outstanding) := h
      cases i with
      | enter t =>
          have ht : t ∈ entering (before ++ .enter t :: after) ++ f.outstanding := by
            simp [entering_cons, Turn.ticket?]
          obtain ⟨j, hj⟩ := h'.job_of_mem ht
          rw [step_enter hj]
          refine h'.enter_effect hp fun s hs => ?_
          cases hs
          exact ⟨ht, hj⟩
      | answer r =>
          rcases step_answer_cases p f r with ⟨j, c, hc, heq⟩ | heq
          · rw [heq]
            exact .inl (h'.quiet_answer (fun t ht => List.mem_append_right _ ht) p hc)
          · rw [heq]
            exact .inl fun _ _ ha => ha

/-! ### Two jobs with one output -/

theorem Starts.aims {f f' : Floor} {a : Nat} {c : EngineCall} (h : Starts f f' a c) {t : Nat}
    {path : String} (ht : f'.Aims t path) : f.Aims t path ∨ t = a ∧ c.output = path := by
  obtain ⟨j, hcalling⟩ := h.calling
  rcases ht with ⟨d, ⟨j', hmem⟩, hpath⟩ | ⟨x, hx, hx'⟩
  · rw [hcalling, List.mem_append, List.mem_singleton] at hmem
    rcases hmem with hmem | heq
    · exact .inl (.inl ⟨d, ⟨j', hmem⟩, hpath⟩)
    · cases heq
      exact .inr ⟨rfl, hpath⟩
  · rw [h.queue] at hx
    exact .inl (.inr ⟨x, hx, hx'⟩)

/-- Whoever aims at the path of a call that starts waits with a call of its own. -/
theorem Starts.collide {f f' : Floor} {a : Nat} {c : EngineCall} (h : Starts f f' a c)
    {running : List Nat} (hf : f.Holds running) {j : Job} (hj : f.jobs[a]? = some j)
    (hover : j.overwrite = false) {u : Nat} (hu : f.Aims u c.output) :
    f'.Collide a u c.output := by
  obtain ⟨j', hcalling⟩ := h.calling
  have hcall : f'.Calls a c := ⟨j', by simp [hcalling]⟩
  rcases hu with ⟨d, ⟨j'', hmem⟩, hpath⟩ | ⟨x, hx, hsuccess, hpath⟩
  · exact ⟨c, d, hcall, ⟨j'', by simp [hcalling, hmem]⟩, rfl, hpath⟩
  · obtain ⟨-, -, -, hfile⟩ := hf.made u x hx hsuccess
    rw [hpath, h.vacant j hj hover] at hfile
    cases hfile

theorem Collide.symm {f : Floor} {t u : Nat} {path : String} (h : f.Collide t u path) :
    f.Collide u t path := by
  obtain ⟨c, d, hc, hd, hc', hd'⟩ := h
  exact ⟨d, c, hd, hc, hd', hc'⟩

/-- A job of the queue that may not replace its output. -/
def Guarded (f : Floor) (t : Nat) : Prop := ∃ j, f.jobs[t]? = some j ∧ j.overwrite = false

theorem Guarded.leads {p : Performer} {s s' : Next} {t : Nat} (h : s.1.Guarded t)
    (run : Leads p s s') : s'.1.Guarded t := by
  obtain ⟨j, hj, hover⟩ := h
  exact ⟨j, (Leads.keeps run).job hj, hover⟩

/-- Two jobs come to aim at one path in a move only if they wait at the same time after it. -/
theorem Sound.collide_of_move {p : Performer} (hp : p.Suspends) {s s' : Next} (h : Sound s)
    (m : Move p s s') {t u : Nat} (htu : t ≠ u) (hgt : s.1.Guarded t) (hgu : s.1.Guarded u)
    {path : String} (ht : s'.1.Aims t path) (hu : s'.1.Aims u path) :
    s.1.Aims t path ∧ s.1.Aims u path ∨ s'.1.Collide t u path := by
  obtain ⟨jt, hjt, hot⟩ := hgt
  obtain ⟨ju, hju, hou⟩ := hgu
  rcases h.effect hp m with hq | ⟨a, c, hst⟩
  · exact .inl ⟨hq t path ht, hq u path hu⟩
  · rcases hst.aims ht with ht' | ⟨rfl, rfl⟩
    · rcases hst.aims hu with hu' | ⟨rfl, rfl⟩
      · exact .inl ⟨ht', hu'⟩
      -- `u` makes the call, and `t` was there before
      · exact .inr (hst.collide h hju hou ht').symm
    · rcases hst.aims hu with hu' | ⟨rfl, -⟩
      -- `t` makes the call, and `u` was there before
      · exact .inr (hst.collide h hjt hot hu')
      · exact absurd rfl htu

/-- Two jobs that come to aim at one path wait at the same time at some moment of the run. -/
theorem Sound.collide_of_leads {p : Performer} (hp : p.Suspends) (hl : p.Lasting) {s s' : Next}
    (h : Sound s) (run : Leads p s s') {t u : Nat} (htu : t ≠ u) (hgt : s.1.Guarded t)
    (hgu : s.1.Guarded u) {path : String} (hfree : ¬s.1.Aims t path) (ht : s'.1.Aims t path)
    (hu : s'.1.Aims u path) :
    ∃ m, Leads p s m ∧ Leads p m s' ∧ m.1.Collide t u path := by
  induction run with
  | refl => exact absurd ht hfree
  | @tail b s' hb move ih =>
      rcases (h.leads hl hb).collide_of_move hp move htu (hgt.leads hb) (hgu.leads hb) ht hu
        with ⟨ht', hu'⟩ | hc
      · obtain ⟨m, h₁, h₂, hc⟩ := ih ht' hu'
        exact ⟨m, h₁, h₂.tail move, hc⟩
      · exact ⟨s', hb.tail move, .refl, hc⟩

theorem Sound.outputPath_of_job {p : Performer} {s s' : Next} (h' : Sound s')
    (run : Leads p s s') {t : Nat} {j : Job} (hj : s.1.jobs[t]? = some j) {x : Report}
    (hx : s'.1.queue.outcome? t = some (.ended x)) (hsuccess : x.success = true) :
    x.outputPath = s.1.studio.place.resolve j.output := by
  obtain ⟨j', hj', hpath, -⟩ := h'.made t x hx hsuccess
  have hkeeps := Leads.keeps run
  have hsame := hkeeps.job hj
  rw [hj'] at hsame
  obtain rfl : j' = j := Option.some.inj hsame
  rw [hpath, hkeeps.studio]

theorem Sound.outputPath_of_calls {p : Performer} {s s' : Next} (h : Sound s) (h' : Sound s')
    (run : Leads p s s') {t : Nat} {c : EngineCall} (hc : s.1.Calls t c) {x : Report}
    (hx : s'.1.queue.outcome? t = some (.ended x)) (hsuccess : x.success = true) :
    x.outputPath = c.output := by
  obtain ⟨j, hmem⟩ := hc
  rw [h'.outputPath_of_job run (h.seated t j c hmem) hx hsuccess]
  exact (h.addressed _ hmem).symm

/-- Two jobs succeed with the same output exactly when they have waited for it together. -/
theorem Sound.same_output_iff {p : Performer} (hp : p.Suspends) (hl : p.Lasting) {s s' : Next}
    (h : Sound s) (run : Leads p s s') {t u : Nat} (htu : t ≠ u) (hgt : s.1.Guarded t)
    (hgu : s.1.Guarded u) (hfree : ∀ path, ¬s.1.Aims t path) {x y : Report}
    (hx : s'.1.queue.outcome? t = some (.ended x)) (hxs : x.success = true)
    (hy : s'.1.queue.outcome? u = some (.ended y)) (hys : y.success = true) :
    x.outputPath = y.outputPath ↔
      ∃ m, Leads p s m ∧ Leads p m s' ∧ m.1.Collide t u x.outputPath := by
  constructor
  · intro hpath
    exact h.collide_of_leads hp hl run htu hgt hgu (hfree _) (.inr ⟨x, hx, hxs, rfl⟩)
      (.inr ⟨y, hy, hys, hpath.symm⟩)
  · rintro ⟨m, h₁, h₂, c, d, -, hd, -, hpath⟩
    rw [(h.leads hl h₁).outputPath_of_calls (h.leads hl run) h₂ hd hy hys, hpath]

/-- Calls that wait at the same time need a queue with room for both. -/
theorem Sound.two_le_limit {s : Next} (h : Sound s) {t u : Nat} (htu : t ≠ u) {path : String}
    (hc : s.1.Collide t u path) : 2 ≤ s.1.queue.limit := by
  obtain ⟨c, d, hct, hdu, -, -⟩ := hc
  have hsub : [t, u].Subperm (entering s.2 ++ s.1.outstanding) := by
    refine List.subperm_of_subset (by simpa using htu) fun v hv => List.mem_append_right _ ?_
    simp only [List.mem_cons, List.not_mem_nil, or_false] at hv
    rcases hv with rfl | rfl
    · exact mem_outstanding.mpr ⟨c, hct⟩
    · exact mem_outstanding.mpr ⟨d, hdu⟩
  have hlen := hsub.length_le
  have hactive := h.orderly.active_eq
  have hbounded := h.orderly.bounded
  simp only [List.length_cons, List.length_nil] at hlen
  omega

/-! ### The results of a batch -/

theorem overwrite_of_batch {b : Batch} {w : Workplace} {t : FileTree} {jobs : List Job}
    (h : b.jobs w t = .ok jobs) {j : Job} (hj : j ∈ jobs) : j.overwrite = b.overwrite := by
  obtain ⟨files, destination, -, -, rfl⟩ := Batch.jobs_eq_ok.mp h
  obtain ⟨path, -, rfl⟩ := List.mem_map.mp hj
  rfl

theorem ended_of_report {f : Floor} {t : Nat} {x : Report} (h : f.report? t = some x)
    (hsuccess : x.success = true) : f.queue.outcome? t = some (.ended x) := by
  rcases report?_cases h with hended | ⟨j, error, -, rfl⟩
  · exact hended
  · simp [Job.report] at hsuccess

theorem report_of_response {p : Performer} {s : Next} {jobs : List Job} {f : Floor}
    {r : BatchReport}
    (h : f.response? (undertake p s (.ofBatch jobs)).2 = some (.batch r)) {i : Nat} {x : Report}
    (hx : r.results[i]? = some x) :
    i < jobs.length ∧ f.report? (s.1.jobs.length + i) = some x := by
  obtain ⟨results, hr, hlen, hreports⟩ := reports_of_response h
  cases hr
  obtain ⟨hlt, -⟩ := List.getElem?_eq_some_iff.mp hx
  have hi : i < jobs.length := hlen ▸ hlt
  exact ⟨hi, (hreports i hi).trans hx⟩

theorem Sound.not_aims {s : Next} (h : Sound s) {t : Nat} (ht : s.1.jobs.length ≤ t)
    (path : String) : ¬s.1.Aims t path := by
  rw [← h.numbered] at ht
  rintro (⟨c, hc, -⟩ | ⟨x, hx, -⟩)
  · have hmem := List.mem_append_right (entering s.2) (mem_outstanding.mpr ⟨c, hc⟩)
    exact absurd (h.orderly.lt_nextTicket hmem) (Nat.not_lt.mpr ht)
  · exact absurd (Queue.lt_nextTicket_of_outcome? hx) (Nat.not_lt.mpr ht)

/-! ### Two sounds of one stem -/

def stemPair : FileTree :=
  ((FileTree.empty.put ["in"] .directory).put ["in", "a.mp3"] (.file "RIFF" 0o644)).put
    ["in", "a.wav"] (.file "RIFF" 0o644)

/-- A studio with room for two jobs at a time. -/
def stemPairFloor : Floor where
  studio := ⟨⟨"/", "/root", {}⟩, .basic⟩
  queue := { limit := 2, limit_pos := Nat.zero_lt_two }
  tree := stemPair

/-- The batch that makes both sounds into sounds of one format. -/
def stemPairBatch : Batch where
  inputDirectory := some "/in"
  outputDirectory := some "/out"
  extension := some "ogg"
  operations := {}

def stemPairJob (input : String) : Job where
  inputs := [input]
  output := "/out/a_processed.ogg"
  operations := {}

def stemPairReport (input : String) : Report :=
  (stemPairJob input).report "/out/a_processed.ogg" none

/-- The batch is begun; every call is going to wait before it is answered. -/
def stemPairStart : Next × Task :=
  undertake (Performer.rehearsed [] []).patient (stemPairFloor, [])
    (.ofBatch [stemPairJob "/in/a.mp3", stemPairJob "/in/a.wav"])

theorem stemPair_grounded : stemPair.Grounded := FileTree.grounded_of_entries (by decide)

theorem stemPair_reached (p : Performer) : Reached p 2 (stemPairFloor, []) :=
  ⟨_, _, _, stemPair_grounded, rfl, .refl⟩

theorem stemPair_jobs :
    stemPairBatch.jobs stemPairFloor.studio.place stemPairFloor.tree =
      .ok [stemPairJob "/in/a.mp3", stemPairJob "/in/a.wav"] := by
  rfl

theorem stemPair_response :
    (complete (Performer.rehearsed [] []).patient stemPairStart.1).response? stemPairStart.2 =
      some (.batch (.ofResults [stemPairReport "/in/a.mp3", stemPairReport "/in/a.wav"])) := by
  decide +kernel

/-! ### Which jobs share an output -/

/-- A job of a batch that succeeds tells the absolute path of its output. If no output may be
replaced, two jobs succeed with the same one exactly when at some moment of the run the calls of
both wait for it. So no two do if only one job runs at a time. -/
theorem same_output_iff_calls_overlap {p : Performer} (hp : p.Suspends) (hl : p.Lasting)
    {limit : Int} {s : Next} (hr : Reached p limit s) {b : Batch} (hb : b.overwrite = false)
    {jobs : List Job} (hjobs : b.jobs s.1.studio.place s.1.tree = .ok jobs) {s' : Next}
    (run : Leads p (undertake p s (.ofBatch jobs)).1 s') {r : BatchReport}
    (hresp : s'.1.response? (undertake p s (.ofBatch jobs)).2 = some (.batch r)) :
    (∀ (i : Nat) (x : Report), r.results[i]? = some x → x.success = true →
      ∃ j, jobs[i]? = some j ∧ x.outputPath = s.1.studio.place.resolve j.output) ∧
      (∀ i k x y, i ≠ k → r.results[i]? = some x → r.results[k]? = some y →
        x.success = true → y.success = true →
        (x.outputPath = y.outputPath ↔
          ∃ m, Leads p (undertake p s (.ofBatch jobs)).1 m ∧ Leads p m s' ∧
            m.1.Collide (s.1.jobs.length + i) (s.1.jobs.length + k) x.outputPath)) ∧
      (limit = 1 → r.results.Pairwise fun x y =>
        x.success = true → y.success = true → x.outputPath ≠ y.outputPath) := by
  have hs := hr.sound hl
  have hbegin : Leads p s (undertake p s (.ofBatch jobs)).1 := .single (.begin s.1 s.2 _)
  have hstart := hs.leads hl hbegin
  have hguarded : ∀ i < jobs.length,
      (undertake p s (.ofBatch jobs)).1.1.Guarded (s.1.jobs.length + i) := by
    intro i hi
    have hover := (overwrite_of_batch hjobs (List.getElem_mem hi)).trans hb
    exact ⟨jobs[i], job_of_undertake p s _ (List.getElem?_eq_getElem hi), hover⟩
  have hpaths : ∀ (i : Nat) (x : Report), r.results[i]? = some x → x.success = true →
      ∃ j, jobs[i]? = some j ∧ x.outputPath = s.1.studio.place.resolve j.output := by
    intro i x hx hxs
    obtain ⟨hi, hrx⟩ := report_of_response hresp hx
    refine ⟨jobs[i], List.getElem?_eq_getElem hi, ?_⟩
    exact (hstart.leads hl run).outputPath_of_job run
      (job_of_undertake p s _ (List.getElem?_eq_getElem hi)) (ended_of_report hrx hxs) hxs
  have hiff : ∀ i k x y, i ≠ k → r.results[i]? = some x → r.results[k]? = some y →
      x.success = true → y.success = true →
      (x.outputPath = y.outputPath ↔
        ∃ m, Leads p (undertake p s (.ofBatch jobs)).1 m ∧ Leads p m s' ∧
          m.1.Collide (s.1.jobs.length + i) (s.1.jobs.length + k) x.outputPath) := by
    intro i k x y hik hx hy hxs hys
    obtain ⟨hi, hrx⟩ := report_of_response hresp hx
    obtain ⟨hk, hry⟩ := report_of_response hresp hy
    refine hstart.same_output_iff hp hl run (by omega) (hguarded i hi) (hguarded k hk) ?_
      (ended_of_report hrx hxs) hxs (ended_of_report hry hys) hys
    intro path haims
    exact hs.not_aims (Nat.le_add_right _ i) path (quiet_submit s.1 jobs _ _ haims)
  refine ⟨hpaths, hiff, fun hone => List.pairwise_iff_getElem.mpr ?_⟩
  intro i k hi hk hik hxs hys hpath
  obtain ⟨m, h₁, -, hc⟩ := (hiff i k _ _ (Nat.ne_of_lt hik) (List.getElem?_eq_getElem hi)
    (List.getElem?_eq_getElem hk) hxs hys).mp hpath
  have htwo := (hstart.leads hl h₁).two_le_limit (by omega) hc
  have hkeeps := Leads.keeps (hbegin.trans h₁)
  have hlimit := hr.limit_eq
  rw [hkeeps.limit] at htwo
  omega

/-- Both jobs succeed with one output, and at some moment the calls of both wait for it. -/
theorem calls_overlap_of_stemPair :
    ∃ s' x y, Leads (Performer.rehearsed [] []).patient stemPairStart.1 s' ∧
      s'.1.response? stemPairStart.2 = some (.batch (.ofResults [x, y])) ∧
      x.success = true ∧ y.success = true ∧ x.outputPath = y.outputPath ∧
      ∃ m, Leads (Performer.rehearsed [] []).patient stemPairStart.1 m ∧
        Leads (Performer.rehearsed [] []).patient m s' ∧
        m.1.Collide 0 1 "/out/a_processed.ogg" := by
  obtain ⟨rest, run⟩ := leads_complete (Performer.rehearsed [] []).patient stemPairStart.1
  have hiff := (same_output_iff_calls_overlap (Performer.suspends_patient _)
    (Performer.lasting_rehearsed [] []).patient (stemPair_reached _) (b := stemPairBatch) rfl
    stemPair_jobs run stemPair_response).2.1 0 1 (stemPairReport "/in/a.mp3")
    (stemPairReport "/in/a.wav") Nat.zero_ne_one rfl rfl rfl rfl
  exact ⟨_, _, _, run, stemPair_response, rfl, rfl, rfl, hiff.mp rfl⟩

/-- Jobs that may not replace their outputs can both succeed with one output. -/
theorem not_distinct_outputs :
    ¬∀ (p : Performer) (limit : Int) (s s' : Next) (b : Batch) (jobs : List Job)
      (r : BatchReport), p.Suspends → p.Lasting → Reached p limit s → b.overwrite = false →
      b.jobs s.1.studio.place s.1.tree = .ok jobs →
      Leads p (undertake p s (.ofBatch jobs)).1 s' →
      s'.1.response? (undertake p s (.ofBatch jobs)).2 = some (.batch r) →
      r.results.Pairwise fun x y =>
        x.success = true → y.success = true → x.outputPath ≠ y.outputPath := by
  intro h
  obtain ⟨rest, run⟩ := leads_complete (Performer.rehearsed [] []).patient stemPairStart.1
  have hdistinct := h _ 2 (stemPairFloor, []) (_, rest) stemPairBatch _ _
    (Performer.suspends_patient _) (Performer.lasting_rehearsed [] []).patient
    (stemPair_reached _) rfl stemPair_jobs run stemPair_response
  exact List.rel_of_pairwise_cons hdistinct (List.mem_singleton_self _) rfl rfl rfl

end Floor

end Soundworks
