import Soundworks.Proofs.Json.Printed
import Soundworks.Proofs.Settings.Usable
import Soundworks.Proofs.Studio.Single
import Soundworks.Proofs.Studio.Together
/-!
What an exit code tells. A command that does jobs is declined before its first job, or it writes
one document about all of them; whoever sees its exit code knows which of the two it was, and
whether all jobs have succeeded. The document tells of the operations as well, and is one for
everybody only if their numbers are finite. A command that lacks the place of its output has no
exit code, unless it is declined.
-/

namespace Soundworks

def Invocation.source? : Invocation → Option OperationSource
  | .process _ _ source _ => some source
  | .batch _ _ _ _ _ _ source _ => some source
  | .presets _ => none
  | .check => none

namespace CommandLine

def jobOf (input output : String) (overwrite : Bool) (operations : OperationSet) : Job :=
  { inputs := [input], output, operations, overwrite }

def batchOf (inputDirectory : String) (outputDirectory pattern : Option String) (suffix : String)
    (extension : Option String) (overwrite : Bool) (operations : OperationSet) : Batch :=
  { inputDirectory := some inputDirectory
    outputDirectory, pattern, suffix, extension, operations, overwrite }

theorem carryOut_process (s : Surroundings) (p : Performer) (input : String)
    (output : Option String) (source : OperationSource) (overwrite : Bool) :
    carryOut s p (.process input output source overwrite) =
      withOperations s source none fun f operations =>
        output.elim (.error (.result withoutOutput))
          fun output => .ok (process p f (jobOf input output overwrite operations)) := by
  cases output <;> rfl

theorem carryOut_batch (s : Surroundings) (p : Performer) (inputDirectory : String)
    (outputDirectory pattern : Option String) (suffix : String) (extension : Option String)
    (concurrency : Option Int) (source : OperationSource) (overwrite : Bool) :
    carryOut s p (.batch inputDirectory outputDirectory pattern suffix extension concurrency source
        overwrite) =
      withOperations s source concurrency fun f operations => .ok (batch p f
        (batchOf inputDirectory outputDirectory pattern suffix extension overwrite operations)) :=
  rfl

/-! ### When a command is declined -/

/-- A batch has no files: a directory is not named, the one of the inputs is not there, or nothing
in it matches. -/
def NoFiles (s : Surroundings) (inputDirectory : String)
    (outputDirectory pattern : Option String) : Prop :=
  inputDirectory = "" ∨ outputDirectory.getD "" = "" ∨
    s.tree.isDirectory (s.studio.place.resolve inputDirectory) = false ∨
    s.tree.discover s.studio.place inputDirectory pattern = .ok []

/-- Why a command that does jobs is declined. -/
inductive Declines (s : Surroundings) : Invocation → Prop
  | operations {i : Invocation} {source : OperationSource} {e : LoadError} :
      i.source? = some source → source.load s.tree s.rights s.directory = .error e →
      Declines s i
  | concurrency {inputDirectory suffix : String}
      {outputDirectory pattern extension : Option String} {bound : Int} {source : OperationSource}
      {overwrite : Bool} : bound < 1 →
      Declines s (.batch inputDirectory outputDirectory pattern suffix extension (some bound)
        source overwrite)
  | noFiles {inputDirectory suffix : String} {outputDirectory pattern extension : Option String}
      {concurrency : Option Int} {source : OperationSource} {overwrite : Bool} :
      NoFiles s inputDirectory outputDirectory pattern →
      Declines s (.batch inputDirectory outputDirectory pattern suffix extension concurrency
        source overwrite)

section

variable {s : Surroundings} {inputDirectory suffix : String}
  {outputDirectory pattern extension : Option String} {overwrite : Bool}
  {operations : OperationSet}

theorem given_some (text : String) :
    Batch.given (some text) = if text = "" then none else some text := by
  by_cases h : text = "" <;> simp [Batch.given, Option.filter, h]

theorem exists_files_iff : (∃ files, (batchOf inputDirectory outputDirectory pattern suffix
      extension overwrite operations).files s.studio.place s.tree = .ok files) ↔
    inputDirectory ≠ "" ∧ s.tree.isDirectory (s.studio.place.resolve inputDirectory) = true ∧
      s.tree.discover s.studio.place inputDirectory pattern ≠ .ok [] := by
  have hnone : Batch.given none = none := rfl
  by_cases hinput : inputDirectory = ""
  · simp [Batch.files, batchOf, hnone, given_some, hinput]
  · simp only [Batch.files, batchOf, hnone, given_some, hinput, if_false]
    cases hroot : s.tree.isDirectory (s.studio.place.resolve inputDirectory) with
    | false => simp [FileTree.discover, hroot]
    | true =>
        obtain ⟨files, hfiles⟩ := FileTree.exists_discover_of_isDirectory hroot pattern
        cases files <;> simp [hfiles, hinput]

theorem exists_destination_iff : (∃ destination, (batchOf inputDirectory outputDirectory pattern
      suffix extension overwrite operations).destination = .ok destination) ↔
    outputDirectory.getD "" ≠ "" := by
  have hnone : Batch.given none = none := rfl
  cases outputDirectory with
  | none => simp [Batch.destination, batchOf, hnone]
  | some name =>
      by_cases hname : name = "" <;> simp [Batch.destination, batchOf, hnone, given_some, hname]

/-- A batch is refused if it has no files, and for no other reason. -/
theorem exists_jobs_iff : (∃ jobs, (batchOf inputDirectory outputDirectory pattern suffix
      extension overwrite operations).jobs s.studio.place s.tree = .ok jobs) ↔
    ¬NoFiles s inputDirectory outputDirectory pattern := by
  simp only [Batch.jobs_eq_ok]
  constructor
  · rintro ⟨_, files, destination, hfiles, hdestination, -⟩
    obtain ⟨hinput, hroot, hfound⟩ := exists_files_iff.mp ⟨files, hfiles⟩
    rintro (h | h | h | h)
    · exact hinput h
    · exact exists_destination_iff.mp ⟨destination, hdestination⟩ h
    · rw [hroot] at h
      cases h
    · exact hfound h
  · intro h
    simp only [NoFiles, not_or, Bool.not_eq_false] at h
    obtain ⟨hinput, houtput, hroot, hfound⟩ := h
    obtain ⟨files, hfiles⟩ := exists_files_iff.mpr ⟨hinput, hroot, hfound⟩
    obtain ⟨destination, hdestination⟩ := exists_destination_iff.mpr houtput
    exact ⟨_, files, destination, hfiles, hdestination, rfl⟩

theorem noFiles_of_error {refusal : Refusal}
    (h : (batchOf inputDirectory outputDirectory pattern suffix extension overwrite
      operations).jobs s.studio.place s.tree = .error refusal) :
    NoFiles s inputDirectory outputDirectory pattern := by
  by_contra hsome
  obtain ⟨jobs, hjobs⟩ := exists_jobs_iff.mpr hsome
  rw [h] at hjobs
  cases hjobs

end

/-! ### What a command does -/

/-- The jobs of a command, their reports, the floor that is left when they are done, and what is
written about them. -/
inductive Does (p : Performer) (s : Surroundings) :
    Invocation → List Job → List Report → Floor → Value → Prop
  | process {input output : String} {source : OperationSource} {overwrite : Bool}
      {operations : OperationSet} {f : Floor} {x : Report} :
      source.load s.tree s.rights s.directory = .ok operations →
      s.floor? s.settings.concurrency = some f →
      (f.runSingle p (jobOf input output overwrite operations) |> Floor.complete p).singles =
        [some x] →
      Does p s (.process input (some output) source overwrite)
        [jobOf input output overwrite operations] [x]
        (f.runSingle p (jobOf input output overwrite operations) |> Floor.complete p)
        (Report.form.dump x)
  | batch {inputDirectory suffix : String} {outputDirectory pattern extension : Option String}
      {concurrency : Option Int} {source : OperationSource} {overwrite : Bool}
      {operations : OperationSet} {f : Floor} {jobs : List Job} {results : List Report} :
      source.load s.tree s.rights s.directory = .ok operations →
      s.floor? (concurrency.getD s.settings.concurrency) = some f →
      (batchOf inputDirectory outputDirectory pattern suffix extension overwrite operations).jobs
        s.studio.place s.tree = .ok jobs →
      (f.submit jobs |> Floor.complete p).reports? (List.range jobs.length) = some results →
      Does p s (.batch inputDirectory outputDirectory pattern suffix extension concurrency source
        overwrite) jobs results (f.submit jobs |> Floor.complete p)
        (BatchReport.form.dump (.ofResults results))

/-- A command has its operations, but no place for its output. -/
inductive Misplaces (s : Surroundings) : Invocation → Prop
  | process {input : String} {source : OperationSource} {overwrite : Bool}
      {operations : OperationSet} : source.load s.tree s.rights s.directory = .ok operations →
      Misplaces s (.process input none source overwrite)

/-- What a command leaves behind is what its exit code says. What it writes is one document for
every reader, but for readers without words for numbers that are not finite, if its operations
have such a number. -/
structure Truthful (p : Performer) (s : Surroundings) (i : Invocation) (finish : Finish) :
    Prop where
  code : finish.code ≤ 2
  declined : finish.code = 2 ↔ Declines s i
  silent : finish.code = 2 → finish.output = "" ∧ finish.calls = [] ∧ finish.tree = s.tree
  told : finish.code ≠ 2 → ∃ jobs results f v, Does p s i jobs results f v ∧
    List.Forall₂ (fun j x => j.EndsWith p s.studio f.calls x) jobs results ∧
    finish.output = document v ∧ finish.calls = f.calls ∧ finish.tree = f.tree ∧
    (∀ words w, Json.Denotes words finish.output w ↔ (words = true ∨ v.Finite) ∧ w = v) ∧
    (v.Finite ↔ ∀ j ∈ jobs, (OperationSet.form.dump j.operations).Finite) ∧
    (finish.code = 0 ↔ ∀ x ∈ results, x.success = true)

/-! ### What is written -/

theorem dump_report (x : Report) : Report.form.dump x = .object
    ([("success", .bool x.success), ("input_path", .text x.inputPath),
      ("output_path", .text x.outputPath), ("processing_time_ms", .integer x.elapsedMs),
      ("operations", OperationSet.form.dump x.operations)] ++
      (x.error.map fun e => ("error", Value.text e)).toList) := by
  obtain ⟨_, _, _, _, _, error⟩ := x
  cases error <;> rfl

theorem finite_dump_report {x : Report} :
    (Report.form.dump x).Finite ↔ (OperationSet.form.dump x.operations).Finite := by
  rw [dump_report, Value.finite_object_iff]
  cases x.error <;> simp [Value.Finite.bool, Value.Finite.text, Value.Finite.integer]

theorem dump_batchReport (b : BatchReport) : BatchReport.form.dump b = .object
    [("total_files", .integer b.total), ("successful_files", .integer b.successful),
      ("failed_files", .integer b.failed), ("results", .list (b.results.map Report.form.dump)),
      ("total_processing_time_ms", .integer b.elapsedMs)] := rfl

theorem finite_dump_batchReport {b : BatchReport} : (BatchReport.form.dump b).Finite ↔
    ∀ x ∈ b.results, (OperationSet.form.dump x.operations).Finite := by
  rw [dump_batchReport, Value.finite_object_iff]
  simp [Value.Finite.integer, Value.finite_list_iff, finite_dump_report]

theorem operations_of_endsWith {p : Performer} {s : Studio} {calls : List EngineCall} {j : Job}
    {x : Report} (h : j.EndsWith p s calls x) : x.operations = j.operations := by
  cases h with
  | failed hprep => rfl
  | answered tree hprep hc => cases (p.perform _ tree).1 <;> rfl

/-- A document has a number that is not finite only if its jobs have one. -/
theorem finite_iff_of_does {p : Performer} {s : Surroundings} {i : Invocation} {jobs : List Job}
    {results : List Report} {f : Floor} {v : Value} (hdoes : Does p s i jobs results f v)
    (hends : List.Forall₂ (fun j x => j.EndsWith p s.studio f.calls x) jobs results) :
    v.Finite ↔ ∀ j ∈ jobs, (OperationSet.form.dump j.operations).Finite := by
  have hresults : v.Finite ↔ ∀ x ∈ results, (OperationSet.form.dump x.operations).Finite := by
    cases hdoes with
    | process => rw [finite_dump_report, List.forall_mem_singleton]
    | batch => exact finite_dump_batchReport
  rw [hresults]
  clear hresults hdoes
  induction hends with
  | nil => simp
  | cons h _ ih =>
      rw [List.forall_mem_cons, List.forall_mem_cons, operations_of_endsWith h]
      exact and_congr_right' ih

section

variable {p : Performer} {s : Surroundings} {i : Invocation}

theorem jobCode_le (successful : Bool) : jobCode successful ≤ 1 := by cases successful <;> decide

theorem jobCode_eq_zero_iff {successful : Bool} : jobCode successful = 0 ↔ successful = true := by
  cases successful <;> decide

theorem truthful_refuse (h : Declines s i) (complaint : String) :
    Truthful p s i (refuse s.tree complaint) where
  code := Nat.le_refl 2
  declined := iff_of_true rfl h
  silent := fun _ => ⟨rfl, rfl, rfl⟩
  told := fun hno => absurd rfl hno

theorem truthful_of_does (hno : ¬Declines s i) {jobs : List Job} {results : List Report}
    {f : Floor} {v : Value} (hdoes : Does p s i jobs results f v)
    (hends : List.Forall₂ (fun j x => j.EndsWith p s.studio f.calls x) jobs results)
    {successful : Bool} (hsuccess : successful = true ↔ ∀ x ∈ results, x.success = true) :
    Truthful p s i { code := jobCode successful, output := document v, tree := f.tree,
                     calls := f.calls } where
  code := (jobCode_le successful).trans (Nat.le_succ 1)
  declined := iff_of_false (Nat.ne_of_lt (Nat.lt_succ_of_le (jobCode_le successful))) hno
  silent := fun htwo => absurd htwo (Nat.ne_of_lt (Nat.lt_succ_of_le (jobCode_le successful)))
  told := fun _ => ⟨jobs, results, f, v, hdoes, hends, rfl, rfl, rfl,
    fun _ _ => Json.denotes_pretty_iff, finite_iff_of_does hdoes hends,
    jobCode_eq_zero_iff.trans hsuccess⟩

theorem failed_ofResults_iff {results : List Report} :
    (BatchReport.ofResults results).failed = 0 ↔ ∀ x ∈ results, x.success = true := by
  rw [← List.countP_eq_length]
  show (results.length : Int) - results.countP Report.success = 0 ↔ _
  omega

/-- With a bound on the jobs at once of at least one, a command whose operations are loaded goes
on. -/
theorem withOperations_of_ok {source : OperationSource} {concurrency : Option Int}
    {operations : OperationSet} (hload : source.load s.tree s.rights s.directory = .ok operations)
    (hbound : ∀ n ∈ concurrency, 1 ≤ n) (k : Floor → OperationSet → Except Halt Finish) :
    ∃ queue, Queue.ofLimit? (concurrency.getD s.settings.concurrency) = some queue ∧
      s.floor? (concurrency.getD s.settings.concurrency) =
        some { studio := s.studio, queue, tree := s.tree } ∧
      withOperations s source concurrency k =
        k { studio := s.studio, queue, tree := s.tree } operations := by
  have hone : 1 ≤ concurrency.getD (s.settings.concurrency : Int) := by
    cases concurrency with
    | none => exact Int.ofNat_le.mpr (Settings.usable_ofEnvironment s.environment).concurrency
    | some n => exact hbound n rfl
  have hany : concurrency.any (· < 1) = false := by
    cases concurrency with
    | none => rfl
    | some n => simpa using hbound n rfl
  obtain ⟨queue, hqueue, hfloor⟩ := s.exists_floor hone
  refine ⟨queue, hqueue, hfloor, ?_⟩
  unfold withOperations
  rw [hload]
  dsimp only
  rw [hany, hfloor]
  rfl

theorem process_of_singles {f : Floor} {j : Job} {x : Report}
    (h : (Floor.complete p (f.runSingle p j)).singles = [some x]) :
    process p f j =
      { code := jobCode x.success, output := document (Report.form.dump x)
        tree := (Floor.complete p (f.runSingle p j)).tree
        calls := (Floor.complete p (f.runSingle p j)).calls } := by
  simp [process, h]

theorem batch_of_error {f : Floor} {b : Batch} {refusal : Refusal}
    (h : b.jobs f.studio.place f.tree = .error refusal) :
    batch p f b = refuse f.tree refusal.message := by
  simp only [batch, h]

theorem batch_of_reports {f : Floor} {b : Batch} {jobs : List Job} {results : List Report}
    (hjobs : b.jobs f.studio.place f.tree = .ok jobs)
    (h : (Floor.complete p (f.submit jobs)).reports? (List.range jobs.length) = some results) :
    batch p f b =
      { code := jobCode ((BatchReport.ofResults results).failed = 0)
        output := document (BatchReport.form.dump (.ofResults results))
        tree := (Floor.complete p (f.submit jobs)).tree
        calls := (Floor.complete p (f.submit jobs)).calls } := by
  simp [batch, hjobs, h]

theorem withOperations_of_error {source : OperationSource} {e : LoadError}
    (h : source.load s.tree s.rights s.directory = .error e) (concurrency : Option Int)
    (k : Floor → OperationSet → Except Halt Finish) :
    ∃ complaint, withOperations s source concurrency k = .ok (refuse s.tree complaint) := by
  unfold withOperations
  rw [h]
  exact ⟨_, rfl⟩

theorem withOperations_of_bound {source : OperationSource} {operations : OperationSet}
    (hload : source.load s.tree s.rights s.directory = .ok operations) {bound : Int} (h : bound < 1)
    (k : Floor → OperationSet → Except Halt Finish) :
    ∃ complaint, withOperations s source (some bound) k = .ok (refuse s.tree complaint) := by
  unfold withOperations
  rw [hload]
  exact ⟨_, if_pos (by simpa using h)⟩

theorem not_declines_process {input : String} {output : Option String}
    {source : OperationSource} {overwrite : Bool} {operations : OperationSet}
    (hload : source.load s.tree s.rights s.directory = .ok operations) :
    ¬Declines s (.process input output source overwrite) := by
  intro h
  cases h with
  | operations hsource hfails =>
      cases hsource
      rw [hload] at hfails
      cases hfails

theorem declines_batch_iff {inputDirectory suffix : String}
    {outputDirectory pattern extension : Option String} {concurrency : Option Int}
    {source : OperationSource} {overwrite : Bool} {operations : OperationSet}
    (hload : source.load s.tree s.rights s.directory = .ok operations)
    (hbound : ∀ n ∈ concurrency, 1 ≤ n) :
    Declines s (.batch inputDirectory outputDirectory pattern suffix extension concurrency source
      overwrite) ↔ NoFiles s inputDirectory outputDirectory pattern := by
  refine ⟨fun h => ?_, .noFiles⟩
  cases h with
  | operations hsource hfails =>
      cases hsource
      rw [hload] at hfails
      cases hfails
  | concurrency hlow => exact absurd (hbound _ rfl) (Int.not_le.mpr hlow)
  | noFiles hnone => exact hnone

/-- What a command comes to. It breaks off if its output has no place, and else it is truthful. -/
inductive ComesTo (p : Performer) (s : Surroundings) (i : Invocation) : Except Halt Finish → Prop
  | broken : Misplaces s i → ComesTo p s i
      (.error (.result ⟨"ProcessingResult", [⟨[.key "output_path"], .notText⟩]⟩))
  | ended {finish : Finish} : ¬Misplaces s i → Truthful p s i finish → ComesTo p s i (.ok finish)

theorem comesTo_process (p : Performer) (s : Surroundings) (input : String)
    (output : Option String) (source : OperationSource) (overwrite : Bool) :
    ComesTo p s (.process input output source overwrite)
      (carryOut s p (.process input output source overwrite)) := by
  cases hload : source.load s.tree s.rights s.directory with
  | error e =>
      have hplaced : ¬Misplaces s (.process input output source overwrite) := by
        rintro ⟨h⟩
        rw [hload] at h
        cases h
      obtain ⟨complaint, heq⟩ := withOperations_of_error hload none _
      rw [carryOut_process, heq]
      exact .ended hplaced (truthful_refuse (.operations rfl hload) complaint)
  | ok operations =>
      have hnone : ∀ n ∈ (none : Option Int), 1 ≤ n := by simp
      obtain ⟨queue, -, hfloor, hgoes⟩ := withOperations_of_ok hload hnone fun f operations =>
        output.elim (.error (.result withoutOutput))
          fun output => .ok (process p f (jobOf input output overwrite operations))
      rw [carryOut_process, hgoes]
      cases output with
      | none => exact .broken (.process hload)
      | some output =>
          obtain ⟨hsingles, hcalls, -⟩ := Floor.alone_eq_run p s.studio queue s.tree
            (jobOf input output overwrite operations)
          have hends := (jobOf input output overwrite operations).endsWith_run p s.studio s.tree
          rw [← hcalls] at hends
          rw [Option.elim_some, process_of_singles hsingles]
          exact .ended nofun (truthful_of_does (not_declines_process hload)
            (.process hload hfloor hsingles) (.cons hends .nil) (by simp))

theorem comesTo_batch (p : Performer) (s : Surroundings) (inputDirectory : String)
    (outputDirectory pattern : Option String) (suffix : String) (extension : Option String)
    (concurrency : Option Int) (source : OperationSource) (overwrite : Bool) :
    ComesTo p s
      (.batch inputDirectory outputDirectory pattern suffix extension concurrency source overwrite)
      (carryOut s p (.batch inputDirectory outputDirectory pattern suffix extension concurrency
        source overwrite)) := by
  cases hload : source.load s.tree s.rights s.directory with
  | error e =>
      obtain ⟨complaint, heq⟩ := withOperations_of_error hload concurrency _
      rw [carryOut_batch, heq]
      exact .ended nofun (truthful_refuse (.operations rfl hload) complaint)
  | ok operations =>
      by_cases hbound : ∀ n ∈ concurrency, 1 ≤ n
      case neg =>
        simp only [not_forall, Int.not_le, exists_prop] at hbound
        obtain ⟨bound, rfl, hlow⟩ := hbound
        obtain ⟨complaint, heq⟩ := withOperations_of_bound hload hlow _
        rw [carryOut_batch, heq]
        exact .ended nofun (truthful_refuse (.concurrency hlow) complaint)
      obtain ⟨queue, hqueue, hfloor, hgoes⟩ := withOperations_of_ok hload hbound
        fun f operations => .ok (batch p f (batchOf inputDirectory outputDirectory pattern suffix
          extension overwrite operations))
      rw [carryOut_batch, hgoes]
      cases hjobs : (batchOf inputDirectory outputDirectory pattern suffix extension overwrite
          operations).jobs s.studio.place s.tree with
      | error refusal =>
          rw [batch_of_error (f := { studio := s.studio, queue, tree := s.tree }) hjobs]
          exact .ended nofun (truthful_refuse (.noFiles (noFiles_of_error hjobs)) _)
      | ok jobs =>
          have hsome := exists_jobs_iff.mp ⟨jobs, hjobs⟩
          obtain ⟨results, hreports, hends⟩ :=
            Floor.reports_complete_submit p s.studio s.tree hqueue jobs
          have hdoes := Does.batch (p := p) hload hfloor hjobs hreports
          rw [batch_of_reports (f := { studio := s.studio, queue, tree := s.tree }) hjobs hreports]
          exact .ended nofun (truthful_of_does ((declines_batch_iff hload hbound).not.mpr hsome)
            hdoes hends (decide_eq_true_iff.trans failed_ofResults_iff))

end

theorem runWith_eq (performer : Surroundings → Performer) {s s' : Surroundings}
    {args : List String} {i : Invocation} (h : parse args = .ok i)
    (hvariables : s.withVariables Surroundings.variableFile = .ok s') :
    runWith performer s args = carryOut s' (performer s') i := by
  simp only [runWith, h, hvariables]
  rfl

/-- Whatever the surroundings and the engine are, a command line that asks for jobs breaks off if it
leaves the place of its output open, and else comes to an end with an exit code that tells the
truth. -/
theorem runWith_truthful (performer : Surroundings → Performer) {s s' : Surroundings}
    {args : List String} {i : Invocation} (h : parse args = .ok i) (hjobs : i.source? ≠ none)
    (hvariables : s.withVariables Surroundings.variableFile = .ok s') :
    ComesTo (performer s') s' i (runWith performer s args) := by
  rw [runWith_eq performer h hvariables]
  cases i with
  | process input output source overwrite => exact comesTo_process _ _ _ _ _ _
  | batch => exact comesTo_batch _ _ _ _ _ _ _ _ _ _
  | presets category => exact absurd rfl hjobs
  | check => exact absurd rfl hjobs

/-- A single file whose operations are loaded is written of, for every reader if the numbers of the
operations are finite. -/
theorem ComesTo.denotes {p : Performer} {s : Surroundings} {input output : String}
    {source : OperationSource} {overwrite : Bool} {operations : OperationSet}
    {result : Except Halt Finish}
    (h : ComesTo p s (.process input (some output) source overwrite) result)
    (hload : source.load s.tree s.rights s.directory = .ok operations) :
    ∃ finish v, result = .ok finish ∧ ∀ words w, Json.Denotes words finish.output w ↔
      (words = true ∨ (OperationSet.form.dump operations).Finite) ∧ w = v := by
  cases h with
  | broken h => cases h
  | @ended finish _ h =>
      have hcode : finish.code ≠ 2 := h.declined.not.mpr (not_declines_process hload)
      obtain ⟨jobs, results, f, v, hdoes, -, -, -, -, hdenotes, hfinite, -⟩ := h.told hcode
      refine ⟨finish, v, rfl, fun words w => ?_⟩
      rw [hdenotes, hfinite]
      cases hdoes with
      | process hloaded =>
          obtain rfl := Except.ok.inj (hloaded.symm.trans hload)
          simp [jobOf]

def oneRecording : Surroundings where
  directory := "/"
  environment := []
  tree := (FileTree.empty.put ["in"] .directory).put ["in", "a.wav"] (.file "RIFF" 0o644)

/-- A recording is processed and written of in one document for every reader; a batch without a
directory for its inputs is declined. -/
theorem code_of_oneRecording :
    (∃ finish v, runWith (fun _ => .rehearsed [] []) oneRecording
        ["process", "in/a.wav", "a.wav"] = .ok finish ∧ finish.code = 0 ∧
        ∀ words, Json.Denotes words finish.output v) ∧
      ∃ finish, runWith (fun _ => .rehearsed [] []) oneRecording ["batch", "on", "out"] =
        .ok finish ∧ finish.code = 2 ∧ finish.output = "" ∧ finish.calls = [] := by
  have hvariables : oneRecording.withVariables Surroundings.variableFile = .ok oneRecording := rfl
  constructor
  · have hparse : parse ["process", "in/a.wav", "a.wav"] =
        .ok (.process "in/a.wav" (some "a.wav") ⟨none, none⟩ false) := by decide +kernel
    have hzero : (runWith (fun _ => .rehearsed [] []) oneRecording
        ["process", "in/a.wav", "a.wav"]).toOption.map (·.code) = some 0 := by decide +kernel
    obtain ⟨finish, v, hrun, hdenotes⟩ :=
      (runWith_truthful (fun _ => .rehearsed [] []) hparse (by decide) hvariables).denotes rfl
    rw [hrun] at hzero
    have hdump : OperationSet.form.dump {} = .object [] := rfl
    have hnone : (OperationSet.form.dump {}).Finite := hdump ▸ .object nofun
    exact ⟨finish, v, hrun, Option.some.inj hzero,
      fun words => (hdenotes words v).mpr ⟨.inr hnone, rfl⟩⟩
  · have hparse : parse ["batch", "on", "out"] =
        .ok (.batch "on" (some "out") none "_processed" none none ⟨none, none⟩ false) := by
      decide +kernel
    have hcomes := runWith_truthful (fun _ => .rehearsed [] []) hparse (by decide) hvariables
    generalize runWith _ _ _ = result at hcomes
    cases hcomes with
    | broken h => cases h
    | @ended finish _ h =>
        have hcode : finish.code = 2 :=
          h.declined.mpr (.noFiles (.inr (.inr (.inl (by decide +kernel)))))
        obtain ⟨houtput, hcalls, -⟩ := h.silent hcode
        exact ⟨finish, rfl, hcode, houtput, hcalls⟩

def undefinedLoudness : String :=
  "\x7b\"volume\": \x7b\"normalize\": true, \"target_lufs\": \"nan\"\x7d\x7d"

/-- A recording is processed with success, and what is written of it is no document for a reader
without words for numbers that are not finite. -/
theorem not_denotes_undefinedLoudness : ∃ finish,
    runWith (fun _ => .rehearsed [] []) oneRecording
        ["process", "in/a.wav", "a.wav", "--operations", undefinedLoudness] = .ok finish ∧
      finish.code = 0 ∧ ∀ v, ¬Json.Denotes false finish.output v := by
  have hvariables : oneRecording.withVariables Surroundings.variableFile = .ok oneRecording := rfl
  have hparse : parse ["process", "in/a.wav", "a.wav", "--operations", undefinedLoudness] =
      .ok (.process "in/a.wav" (some "a.wav") ⟨none, some undefinedLoudness⟩ false) := by
    decide +kernel
  have hload : OperationSource.load ⟨none, some undefinedLoudness⟩ oneRecording.tree
      oneRecording.rights oneRecording.directory =
        .ok { volume := some { normalize := some true, targetLufs := some .nan } } := by
    decide +kernel
  have hzero : (runWith (fun _ => .rehearsed [] []) oneRecording
      ["process", "in/a.wav", "a.wav", "--operations", undefinedLoudness]).toOption.map (·.code) =
        some 0 := by decide +kernel
  rw [runWith_eq _ hparse hvariables] at hzero ⊢
  obtain ⟨finish, v, hrun, hdenotes⟩ := (comesTo_process _ _ _ _ _ _).denotes hload
  rw [hrun] at hzero ⊢
  refine ⟨finish, rfl, Option.some.inj hzero, fun w hw => ?_⟩
  rcases (hdenotes false w).mp hw with ⟨h | h, -⟩
  · cases h
  · have hdump : OperationSet.form.dump
          { volume := some { normalize := some true, targetLufs := some .nan } } =
        .object [("volume", .object [("normalize", .bool true), ("target_lufs", .number .nan)])] :=
      rfl
    simp only [hdump, Value.finite_object_iff, List.forall_mem_cons] at h
    obtain ⟨⟨-, hnan, -⟩, -⟩ := h
    cases hnan with
    | number hfinite => cases hfinite

-- a single file that is not there is no reason to decline a command, but its job fails
example : (runWith (fun _ => .rehearsed [] []) oneRecording ["process", "in/b.wav", "a.wav"]
    ).toOption.map (·.code) = some 1 := by decide +kernel

-- a double dash after the first one leaves the place open
example : (runWith (fun _ => .rehearsed [] []) oneRecording ["process", "in/a.wav", "--", "--"]
    ).toOption = none := by decide +kernel

end CommandLine

end Soundworks
