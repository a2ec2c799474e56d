import Soundworks.Proofs.Studio.FanOut
import Soundworks.Proofs.Studio.Rest
import Soundworks.Proofs.Tool.Results
/-!
Requests that are refused. A tool looks at all that can be wrong before it begins anything, so
whoever is refused has had no effect: no call, no job, and the files and the queue as before.
Whoever is not refused gets a result of the tool. Only reading a request rejects it; what is put
together from it is accepted.
-/

namespace Soundworks

/-! ### Where requests are rejected -/

/-- Reads the request of a tool, and forgets what it says. -/
def Tool.reading (t : Tool) (v : Argument) : Except Fault Unit :=
  match t with
  | .processFile => (ProcessRequest.form.request v).map fun _ => ()
  | .batchProcess => (BatchRequest.form.request v).map fun _ => ()
  | .applyPreset => (PresetRequest.form.request v).map fun _ => ()
  | .generateVariations => (VariationsRequest.form.request v).map fun _ => ()
  | .createHarmonics => (HarmonicsRequest.form.request v).map fun _ => ()
  | .advancedProcess => (AdvancedRequest.form.request v).map fun _ => ()
  | .layerSounds => (LayerRequest.form.request v).map fun _ => ()
  | _ => .ok ()

theorem Refusal.eq_rejected {e : Refusal} {x : Rejection} (h : e.fault = .rejected x) :
    e = .rejected x := by
  cases e <;> simp [fault] at h ⊢
  exact h

theorem Tool.withRequest_rejected {α : Type} {t : Tool} {f : Form α} {a : Option Argument}
    {k : α → Except Refusal Action} {x : Rejection}
    (hk : ∀ v r, f.request v = .ok r → k r ≠ .error (.rejected x))
    (h : t.withRequest f a k = .error (.rejected x)) :
    ∃ v, a = some v ∧ (f.request v).map (fun _ => ()) = .error (.rejected x) := by
  cases a with
  | none => cases h
  | some v =>
      refine ⟨v, rfl, Fallible.map_eq_error.mpr ?_⟩
      rcases Fallible.bind_eq_error.mp h with hread | ⟨r, hread, hfails⟩
      · exact hread
      · obtain ⟨e, he, hfault⟩ := Fallible.mapError_eq_error.mp hfails
        rw [Refusal.eq_rejected hfault] at he
        exact absurd he (hk v r hread)

theorem Tool.without_ne_rejected {t : Tool} {a : Option Argument} {y : Action} {x : Rejection} :
    t.without a y ≠ .error (.rejected x) := by
  cases a <;> exact nofun

theorem Batch.jobs_ne_rejected {b : Batch} {w : Workplace} {tree : FileTree} {x : Rejection} :
    b.jobs w tree ≠ .error (.rejected x) := by
  have hfiles : b.files w tree ≠ .error (.rejected x) := by
    unfold files
    split
    · exact nofun
    · split <;> exact nofun
    · exact nofun
  have hdestination : b.destination ≠ .error (.rejected x) := by
    unfold destination
    split <;> exact nofun
  intro h
  simp only [jobs, Fallible.bind_eq_error] at h
  rcases h with h | ⟨files, -, h | ⟨destination, -, h⟩⟩
  · exact hfiles h
  · exact hdestination h
  · cases h

namespace Studio

variable {s : Studio} {tree : FileTree} {input directory : String} {overwrite : Bool}
  {x : Rejection}

theorem require_ne_rejected {feature : String} : s.require feature ≠ .error (.rejected x) := by
  unfold require
  split <;> exact nofun

theorem input_ne_rejected :
    (tree.input s.place input).mapError Refusal.input ≠ .error (.rejected x) := by
  intro h
  obtain ⟨e, -, he⟩ := Fallible.mapError_eq_error.mp h
  cases he

theorem variations_ne_rejected {seed : Int} {ranges : VariationRanges} {base : OperationSet}
    (hranges : ranges.Valid) (hbase : base.Valid) :
    s.variations tree seed input directory ranges base overwrite ≠ .error (.rejected x) := by
  obtain ⟨sets, hsets, -, -⟩ := hranges.exists_generate hbase seed
  intro h
  simp only [variations, Fallible.bind_eq_error] at h
  rcases h with h | ⟨-, -, h | ⟨-, -, h | ⟨sets, -, h⟩⟩⟩
  · exact require_ne_rejected h
  · exact input_ne_rejected h
  · rw [hsets] at h
    cases h
  · cases h

theorem harmonics_ne_rejected {h : Harmonics} (hv : h.Valid) :
    s.harmonics tree input directory h overwrite ≠ .error (.rejected x) := by
  intro hfails
  simp only [harmonics, harmonicJobs_eq input directory overwrite hv,
    Fallible.bind_eq_error] at hfails
  rcases hfails with hfails | ⟨-, -, hfails | ⟨-, -, hfails⟩⟩
  · exact require_ne_rejected hfails
  · exact input_ne_rejected hfails
  · split at hfails <;> cases hfails

theorem layered_ne_rejected {inputs : List String} {output : String} {l : Layering} :
    s.layered inputs output l overwrite ≠ .error (.rejected x) := by
  intro h
  simp only [layered, Fallible.bind_eq_error] at h
  rcases h with h | ⟨-, -, h⟩
  · exact require_ne_rejected h
  · split at h
    · cases h
    · split at h <;> cases h

end Studio

/-- A tool rejects only what it reads. -/
theorem Tool.rejected_of_action {t : Tool} {s : Studio} {tree : FileTree} {seed : Int}
    {a : Option Argument} {x : Rejection} (h : t.action s tree seed a = .error (.rejected x)) :
    ∃ v, a = some v ∧ t.reading v = .error (.rejected x) := by
  cases t with
  | processFile =>
      refine withRequest_rejected (fun _ _ _ hk => ?_) h
      cases hk
  | batchProcess =>
      exact withRequest_rejected
        (fun _ _ _ hk => Batch.jobs_ne_rejected (Fallible.map_eq_error.mp hk)) h
  | applyPreset =>
      refine withRequest_rejected (fun _ r _ => ?_) h
      unfold PresetRequest.action
      split <;> exact nofun
  | listPresets => cases h
  | queueStatus => exact absurd h without_ne_rejected
  | pauseQueue => exact absurd h without_ne_rejected
  | resumeQueue => exact absurd h without_ne_rejected
  | clearQueue => exact absurd h without_ne_rejected
  | generateVariations =>
      refine withRequest_rejected (fun _ _ hr hk => ?_) h
      have hvalid := Form.valid_of_request VariationsRequest.form_exact hr
      exact Studio.variations_ne_rejected hvalid.ranges hvalid.base_getD
        (Fallible.map_eq_error.mp hk)
  | createHarmonics =>
      refine withRequest_rejected (fun _ _ hr hk => ?_) h
      have hvalid := Form.valid_of_request HarmonicsRequest.form_exact hr
      exact Studio.harmonics_ne_rejected hvalid.harmonics (Fallible.map_eq_error.mp hk)
  | advancedProcess =>
      refine withRequest_rejected (fun _ _ _ hk => ?_) h
      rcases Fallible.bind_eq_error.mp hk with hk | ⟨-, -, hk⟩
      · exact Studio.require_ne_rejected hk
      · cases hk
  | layerSounds =>
      exact withRequest_rejected
        (fun _ _ _ hk => Studio.layered_ne_rejected (Fallible.map_eq_error.mp hk)) h

/-! ### What a tool is asked for -/

theorem Report.Of.valid {x : Report} {j : Job} (h : x.Of j) (hj : j.operations.Valid) :
    x.Valid := by
  obtain ⟨output, error, rfl⟩ := h
  exact ⟨Int.le_refl _, hj⟩

theorem Report.valid_of_forall₂ {results : List Report} {jobs : List Job}
    (h : List.Forall₂ Report.Of results jobs) (hj : ∀ j ∈ jobs, j.operations.Valid) :
    ∀ x ∈ results, x.Valid := by
  induction h with
  | nil => exact fun x hx => absurd hx List.not_mem_nil
  | cons hof _ ih =>
      intro x hx
      rcases List.mem_cons.mp hx with rfl | hx
      · exact hof.valid (hj _ List.mem_cons_self)
      · exact ih (fun j hmem => hj j (List.mem_cons_of_mem _ hmem)) x hx

namespace Floor

/-- Asks a tool for something while other things are ready. -/
def entrust (p : Performer) (s : Next) (t : Tool) (seed : Int) (a : Option Argument) :
    Next × Task :=
  (((s.1.ask p t seed a).1.1, s.2 ++ (s.1.ask p t seed a).1.2), (s.1.ask p t seed a).2)

/-- A floor that can be reached, with any files in the place of those that are there. -/
def Possible (p : Performer) (limit : Int) (s : Next) : Prop :=
  ∃ s₀ tree, Reached p limit s₀ ∧ s = ({ s₀.1 with tree }, s₀.2)

variable {p : Performer} {s s' : Next} {t : Tool} {seed : Int} {a : Option Argument}

theorem Possible.tended {limit : Int} (h : Possible p limit s) : Tended s := by
  obtain ⟨s₀, tree, hr, rfl⟩ := h
  exact hr.tended.onTree tree

theorem entrust_of_ok {x : Action} (h : t.action s.1.studio s.1.tree seed a = .ok x) :
    entrust p s t seed a = undertake p s x := by
  simp [entrust, undertake, ask, h]

theorem entrust_of_error {fault : Fault}
    (h : t.action s.1.studio s.1.tree seed a = .error fault) :
    entrust p s t seed a = (s, .answered (.failed t.name fault)) := by
  simp [entrust, ask, h]

/-- The response to an action that serves a tool is a result of the tool. -/
theorem Tended.returns (h : Tended s) {x : Action} (hx : x.Serves t)
    (run : Leads p (undertake p s x).1 s') {r : Response}
    (hr : s'.1.response? (undertake p s x).2 = some r) : t.Returns r := by
  have hcontrol : ∀ (f : Floor) (action : String) (discarded : Nat),
      (Response.control { action, discarded, status := f.queue.status }).Accepted :=
    fun f _ _ => Form.accept_eq_ok QueueControl.form_exact
      ⟨Int.natCast_nonneg _, f.queue.valid_status⟩
  cases x with
  | reply r' =>
      cases hr
      exact hx
  | single j answer =>
      obtain ⟨x, hof, rfl⟩ := h.single_response run hr
      exact hx.2 x (hof.valid hx.1)
  | queued jobs answer =>
      obtain ⟨results, hall, rfl⟩ := h.queued_response run hr
      exact hx.2.2 results (Report.valid_of_forall₂ hall hx.2.1)
  | pause =>
      obtain rfl : t = .pauseQueue := hx
      cases hr
      exact ⟨.pauseQueue _, hcontrol _ _ _⟩
  | resume =>
      obtain rfl : t = .resumeQueue := hx
      cases hr
      exact ⟨.resumeQueue _, hcontrol _ _ _⟩
  | clear =>
      obtain rfl : t = .clearQueue := hx
      cases hr
      exact ⟨.clearQueue _, hcontrol _ _ _⟩
  | status =>
      obtain rfl : t = .queueStatus := hx
      cases hr
      exact ⟨.queueStatus _, Form.accept_eq_ok QueueStatus.form_exact s.1.queue.valid_status⟩

/-- Whatever has happened since, an action that serves a tool comes to its response if things go
on, after the queue was resumed if the jobs wait in a queue that is paused. -/
theorem Tended.comes_to_response (h : Tended s) {x : Action} (hx : x.Serves t)
    (run : Leads p (undertake p s x).1 s') :
    ∃ m s'', (m = s' ∨ t ∈ Tool.fansOut ∧ s'.1.queue.paused = true ∧
        m = (undertake p s' .resume).1) ∧ GoesOn p m s'' ∧
      ∃ r, s''.1.response? (undertake p s x).2 = some r := by
  by_cases hwaits : t ∈ Tool.fansOut ∧ s'.1.queue.paused = true
  · have hresumed : (undertake p s' .resume).1.1.queue.paused = false :=
      Queue.resume_paused s'.1.queue
    obtain ⟨s'', hgo, hr⟩ := h.responds (run.tail (.begin s'.1 s'.2 .resume)) fun _ _ _ => hresumed
    exact ⟨_, s'', .inr ⟨hwaits.1, hwaits.2, rfl⟩, hgo, hr⟩
  · obtain ⟨s'', hgo, hr⟩ := h.responds run fun jobs answer hq => by
      subst hq
      exact Bool.eq_false_iff.mpr fun hpaused => hwaits ⟨hx.1, hpaused⟩
    exact ⟨_, s'', .inl rfl, hgo, hr⟩

/-- Whatever a tool is asked for, it comes to a response: a result of the tool, or a failure that
names the tool. Either passes its own check. If it is a failure, then asking has changed nothing:
no call was made, no job was added, and the files and the queue are as before. A request is
rejected only where it is read, and what is put together from it passes its own checks. -/
theorem refused_without_effect {p : Performer} {limit : Int} {s : Next} (hs : Possible p limit s)
    (t : Tool) (seed : Int) (a : Option Argument) {s' : Next}
    (run : Leads p (entrust p s t seed a).1 s') :
    (∀ r, s'.1.response? (entrust p s t seed a).2 = some r → r.Accepted ∧
      (t.Gives r ∨ ∃ fault, r = .failed t.name fault ∧ (entrust p s t seed a).1 = s)) ∧
    (∃ m s'', (m = s' ∨ t ∈ Tool.fansOut ∧ s'.1.queue.paused = true ∧
        m = (undertake p s' .resume).1) ∧ GoesOn p m s'' ∧
      ∃ r, s''.1.response? (entrust p s t seed a).2 = some r) ∧
    (∀ x, t.action s.1.studio s.1.tree seed a = .error (.rejected x) →
      ∃ v, a = some v ∧ t.reading v = .error (.rejected x)) ∧
    ∀ v, a = some v → v.Composes := by
  refine ⟨?_, ?_, fun x => Tool.rejected_of_action, fun v _ => v.composes⟩
  · intro r hr
    cases haction : t.action s.1.studio s.1.tree seed a with
    | error fault =>
        rw [entrust_of_error haction] at hr ⊢
        cases hr
        exact ⟨fault.accepted t.name, .inr ⟨fault, rfl, rfl⟩⟩
    | ok x =>
        rw [entrust_of_ok haction] at run hr
        have hreturns := hs.tended.returns (Tool.serves_of_action haction) run hr
        exact ⟨hreturns.accepted, .inl hreturns.kind⟩
  · cases haction : t.action s.1.studio s.1.tree seed a with
    | error fault =>
        rw [entrust_of_error haction]
        exact ⟨s', s', .inl rfl, .refl, _, rfl⟩
    | ok x =>
        rw [entrust_of_ok haction] at run ⊢
        exact hs.tended.comes_to_response (Tool.serves_of_action haction) run

/-! ### Nothing found while a batch is under way -/

/-- Asks for all files of a kind that is not there. -/
def missingSounds : Argument :=
  .value (.object [("input_directory", .text "/in"), ("output_directory", .text "/out"),
    ("file_pattern", .text "*.ogg")])

/-- A second batch is asked for while the call of the first one waits. -/
def missingAsked : Next × Task :=
  entrust mutePerformer soundsCalling .batchProcess 0 (some missingSounds)

theorem soundsCalling_possible : Possible mutePerformer 1 soundsCalling :=
  ⟨soundsCalling, soundsCalling.1.tree,
    (narrowFloor_reached _).leads (.head (.begin _ _ (.ofBatch soundsJobs)) soundsBegun_calling),
    rfl⟩

theorem soundsCalling_over : (complete mutePerformer soundsCalling).queue.active = 0 := by
  decide +kernel

theorem missingSounds_refused : Tool.batchProcess.action soundsCalling.1.studio
    soundsCalling.1.tree 0 (some missingSounds) =
      .error (.refused "no_files_found: No files match '*.ogg' in /in") := by
  rfl

/-- The second batch finds no files, and this is its answer also when the first one has gone on to
its end. Asking has left the first one as it was, with a call that waits and a job in the queue. -/
theorem no_effect_of_missing_sounds :
    Possible mutePerformer 1 soundsCalling ∧
      ∃ s', Leads mutePerformer missingAsked.1 s' ∧ s'.1.queue.active = 0 ∧
        s'.1.response? missingAsked.2 = some (.failed "batch_process_audio"
          (.refused "no_files_found: No files match '*.ogg' in /in")) ∧
        missingAsked.1 = soundsCalling ∧ missingAsked.1.1.calling.length = 1 ∧
        missingAsked.1.1.queue.pending = [1] := by
  unfold missingAsked
  obtain ⟨rest, run⟩ := leads_complete mutePerformer
    (entrust mutePerformer soundsCalling .batchProcess 0 (some missingSounds)).1
  have htask := congrArg Prod.snd (entrust_of_error (p := mutePerformer) missingSounds_refused)
  have hresponse : ∀ f : Floor, f.response?
      (entrust mutePerformer soundsCalling .batchProcess 0 (some missingSounds)).2 =
        some (.failed "batch_process_audio"
          (.refused "no_files_found: No files match '*.ogg' in /in")) := by
    intro f
    rw [htask]
    rfl
  have hresult := (refused_without_effect soundsCalling_possible .batchProcess 0
    (some missingSounds) run).1 _ (hresponse _)
  rcases hresult.2 with hgives | ⟨fault, -, hsame⟩
  · cases hgives
  · refine ⟨soundsCalling_possible, _, run, ?_, hresponse _, hsame, ?_, ?_⟩
    · simp only [hsame, soundsCalling_over]
    · rw [hsame]
      rfl
    · rw [hsame]
      rfl

end Floor

end Soundworks
