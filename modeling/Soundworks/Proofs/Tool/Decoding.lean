import Soundworks.Proofs.Tool.Rejection
/-!
The codes of errors. A message that is a code, a colon and a detail is taken apart again where it
was put together, whatever the detail holds; any other message is left as it is. What goes wrong
below a tool is answered in this way, and by nothing else.
-/

namespace Soundworks

/-- A lower-case letter, and then lower-case letters, digits and underscores. -/
def IsCode (s : String) : Prop :=
  ∃ c cs, s.toList = c :: cs ∧ ('a' ≤ c ∧ c ≤ 'z') ∧
    ∀ d ∈ cs, ('a' ≤ d ∧ d ≤ 'z') ∨ ('0' ≤ d ∧ d ≤ '9') ∨ d = '_'

/-- A text that does not start with a blank. -/
def Flush (s : String) : Prop := ∀ c ∈ s.toList.head?, Text.isBlank c = false

/-- A message that is a code, a colon, all blanks that follow, and a detail. -/
def Coded (message code detail : String) : Prop :=
  IsCode code ∧ Flush detail ∧ ∃ blanks, (∀ c ∈ blanks, Text.isBlank c = true) ∧
    message.toList = code.toList ++ ':' :: (blanks ++ detail.toList)

namespace Fault

theorem startsCode_iff {c : Char} : startsCode c = true ↔ 'a' ≤ c ∧ c ≤ 'z' := by
  simp [startsCode]

theorem continuesCode_iff {c : Char} : continuesCode c = true ↔
    ('a' ≤ c ∧ c ≤ 'z') ∨ ('0' ≤ c ∧ c ≤ '9') ∨ c = '_' := by
  have hdigit : c.isDigit = true ↔ '0' ≤ c ∧ c ≤ '9' := by
    simp [Char.isDigit, Char.le_def]
  simp [continuesCode, startsCode_iff, hdigit, or_assoc]

theorem isCode_iff {s : String} : IsCode s ↔
    (∀ c ∈ s.toList, continuesCode c = true) ∧ ∃ c ∈ s.toList.head?, startsCode c = true := by
  constructor
  · rintro ⟨c, cs, hs, hc, hcs⟩
    rw [hs]
    refine ⟨List.forall_mem_cons.mpr ⟨continuesCode_iff.mpr (.inl hc), fun d hd => ?_⟩,
      c, rfl, startsCode_iff.mpr hc⟩
    exact continuesCode_iff.mpr (hcs d hd)
  · rintro ⟨hall, c, hc, hstart⟩
    obtain ⟨cs, hs⟩ := List.head?_eq_some_iff.mp hc
    refine ⟨c, cs, hs, startsCode_iff.mp hstart, fun d hd => continuesCode_iff.mp (hall d ?_)⟩
    rw [hs]
    exact List.mem_cons_of_mem c hd

/-- A message is taken apart exactly as it was put together. -/
theorem splitCode?_eq_some_iff {message code detail : String} :
    splitCode? message = some (code, detail) ↔ Coded message code detail := by
  constructor
  · intro h
    simp only [splitCode?] at h
    split at h
    · rename_i c rest behind hcode hbehind
      split at h
      · rename_i hstart
        cases h
        refine ⟨isCode_iff.mpr ⟨?_, ?_⟩, ?_, behind.takeWhile Text.isBlank, ?_, ?_⟩
        · rw [String.toList_ofList]
          exact fun c hc => List.mem_takeWhile_imp hc
        · rw [String.toList_ofList, hcode]
          exact ⟨c, rfl, hstart⟩
        · intro d hd
          rw [String.toList_ofList] at hd
          have hhead := List.head?_dropWhile_not Text.isBlank behind
          rw [hd] at hhead
          simpa using hhead
        · exact fun c hc => List.mem_takeWhile_imp hc
        · rw [String.toList_ofList, String.toList_ofList, List.takeWhile_append_dropWhile,
            ← hbehind, List.takeWhile_append_dropWhile]
      · cases h
    · cases h
  · rintro ⟨hcode, hflush, blanks, hblanks, hmessage⟩
    obtain ⟨hall, c, hc, hstart⟩ := isCode_iff.mp hcode
    obtain ⟨cs, hcs⟩ := List.head?_eq_some_iff.mp hc
    have htake : message.toList.takeWhile continuesCode = code.toList := by
      rw [hmessage, List.takeWhile_append_of_pos hall, List.takeWhile_cons_of_neg (by decide),
        List.append_nil]
    have hdrop : message.toList.dropWhile continuesCode = ':' :: (blanks ++ detail.toList) := by
      rw [hmessage, List.dropWhile_append_of_pos hall, List.dropWhile_cons_of_neg (by decide)]
    have hdetail : (blanks ++ detail.toList).dropWhile Text.isBlank = detail.toList := by
      rw [List.dropWhile_append_of_pos hblanks]
      cases hd : detail.toList with
      | nil => rfl
      | cons d ds =>
          rw [List.dropWhile_cons_of_neg (by simpa using hflush d (by rw [hd]; rfl))]
    simp only [splitCode?, htake, hdrop, hdetail, hcs, hstart, if_true]
    rw [← hcs, String.ofList_toList, String.ofList_toList]

theorem describe_refused_iff {s code message : String} :
    (refused s).describe = (code, message) ↔
      (∃ detail, Coded s code detail ∧ message = if detail = "" then code else detail) ∨
        (∀ c d, ¬Coded s c d) ∧ code = "invalid_request" ∧ message = s := by
  simp only [← splitCode?_eq_some_iff, describe]
  cases splitCode? s with
  | none => simp [eq_comm]
  | some cd =>
      obtain ⟨c, d⟩ := cd
      simp only [Option.some.injEq, Prod.mk.injEq]
      constructor
      · rintro ⟨rfl, rfl⟩
        exact .inl ⟨d, ⟨rfl, rfl⟩, rfl⟩
      · rintro (⟨detail, ⟨rfl, rfl⟩, rfl⟩ | ⟨hnone, -⟩)
        · exact ⟨rfl, rfl⟩
        · exact absurd ⟨rfl, rfl⟩ (hnone c d)

/-- A code and a detail are found again in the message that they make. -/
theorem describe_code_append {code detail : String} (hcode : IsCode code) (hflush : Flush detail)
    (hne : detail ≠ "") : (refused (code ++ ": " ++ detail)).describe = (code, detail) := by
  refine describe_refused_iff.mpr (.inl ⟨detail, ⟨hcode, hflush, [' '], ?_, ?_⟩, ?_⟩)
  · simpa using (by decide : Text.isBlank ' ' = true)
  · simp
  · rw [if_neg hne]

/-- What is not expected has a name. -/
def Named : Fault → Prop
  | .unexpected name _ => name ≠ ""
  | _ => True

theorem describe_unexpected {name message : String} (h : (unexpected name message).Named) :
    ∃ text, text ≠ "" ∧
      (unexpected name message).describe = ("tool_execution_failed", text) := by
  refine ⟨_, ?_, rfl⟩
  split
  · exact h
  · assumption

end Fault

/-! ### What goes wrong below a tool -/

theorem Refusal.named_fault (e : Refusal) : e.fault.Named := by
  cases e <;> exact trivial

theorem Form.named_of_request {α : Type} {f : Form α} {v : Argument} {fault : Fault}
    (h : f.request v = .error fault) : fault.Named := by
  unfold request at h
  split at h
  · obtain ⟨x, -, rfl⟩ := Fallible.mapError_eq_error.mp h
    exact trivial
  · split at h
    · obtain ⟨x, -, rfl⟩ := Fallible.mapError_eq_error.mp h
      exact trivial
    · cases h
      exact trivial

namespace Tool

theorem named_of_withRequest {α : Type} {t : Tool} {f : Form α} {a : Option Argument}
    {k : α → Except Refusal Action} {fault : Fault} (h : t.withRequest f a k = .error fault) :
    fault.Named := by
  cases a with
  | none =>
      cases h
      exact (by decide : "TypeError" ≠ "")
  | some v =>
      rcases Fallible.bind_eq_error.mp h with hread | ⟨r, -, hfails⟩
      · exact Form.named_of_request hread
      · obtain ⟨e, -, rfl⟩ := Fallible.mapError_eq_error.mp hfails
        exact e.named_fault

theorem named_of_without {t : Tool} {a : Option Argument} {x : Action} {fault : Fault}
    (h : t.without a x = .error fault) : fault.Named := by
  cases a with
  | none => cases h
  | some v =>
      cases h
      exact (by decide : "TypeError" ≠ "")

/-- Whatever goes wrong below a tool has a name, unless it is a refusal or a rejection. -/
theorem named_of_action {t : Tool} {s : Studio} {tree : FileTree} {seed : Int}
    {a : Option Argument} {fault : Fault} (h : t.action s tree seed a = .error fault) :
    fault.Named := by
  cases t with
  | listPresets => cases h
  | queueStatus | pauseQueue | resumeQueue | clearQueue => exact named_of_without h
  | _ => exact named_of_withRequest h

end Tool

/-- The error that a tool answers with, if it failed. -/
def Response.error? : Response → Option ToolError
  | .failed tool fault => some (fault.toolError tool)
  | _ => none

/-- The error of a message that is a code, a colon, blanks and a detail has this code and this
detail, or the code again if there is no detail; any other message has no code, and is not changed.
So a code and a detail that were put together are told apart again. What is rejected never has a
code of its own, and what is not expected neither. All that goes wrong below a tool is answered
so. -/
theorem errors_decoded :
    (∀ tool s code message, (Fault.refused s).toolError tool = ⟨code, message, tool⟩ ↔
      (∃ detail, Coded s code detail ∧ message = if detail = "" then code else detail) ∨
        (∀ c d, ¬Coded s c d) ∧ code = "invalid_request" ∧ message = s) ∧
    (∀ tool code detail, IsCode code → Flush detail → detail ≠ "" →
      (Fault.refused (code ++ ": " ++ detail)).toolError tool = ⟨code, detail, tool⟩) ∧
    (∀ tool x, (Fault.rejected x).toolError tool = ⟨"invalid_arguments", x.headline, tool⟩) ∧
    (∀ tool name message, name ≠ "" → ∃ text, text ≠ "" ∧
      (Fault.unexpected name message).toolError tool = ⟨"tool_execution_failed", text, tool⟩) ∧
    ∀ (p : Performer) (f : Floor) (t : Tool) seed a fault,
      t.action f.studio f.tree seed a = .error fault →
        (∃ r, f.ask p t seed a = ((f, []), .answered r) ∧
          r.error? = some (fault.toolError t.name)) ∧
        ∀ name message, fault = .unexpected name message → name ≠ "" := by
  have htool : ∀ {fault : Fault} {tool code message : String},
      fault.toolError tool = ⟨code, message, tool⟩ ↔ fault.describe = (code, message) := by
    intro fault tool code message
    simp [Fault.toolError, Prod.ext_iff]
  refine ⟨fun tool s code message => htool.trans Fault.describe_refused_iff,
    fun tool code detail hcode hflush hne =>
      htool.mpr (Fault.describe_code_append hcode hflush hne),
    fun tool x => rfl, fun tool name message hname => ?_, fun p f t seed a fault h => ⟨?_, ?_⟩⟩
  · obtain ⟨text, hne, htext⟩ := Fault.describe_unexpected hname
    exact ⟨text, hne, htool.mpr htext⟩
  · exact ⟨.failed t.name fault, by rw [Floor.ask, h], rfl⟩
  · rintro name message rfl
    exact Tool.named_of_action h

/-- A detail of two lines that holds colons, a batch that finds no files, and an error without a
message. -/
theorem errors_of_missing_sounds :
    (Fault.refused "take_2: a: b\n:").toolError "apply_preset" =
      ⟨"take_2", "a: b\n:", "apply_preset"⟩ ∧
    (∃ r, Floor.soundsCalling.1.ask Floor.mutePerformer .batchProcess 0 (some Floor.missingSounds) =
        ((Floor.soundsCalling.1, []), .answered r) ∧
      r.error? = some ⟨"no_files_found", "No files match '*.ogg' in /in", "batch_process_audio"⟩) ∧
    ∃ text, text ≠ "" ∧ (Fault.unexpected "RuntimeError" "").toolError "apply_preset" =
      ⟨"tool_execution_failed", text, "apply_preset"⟩ := by
  obtain ⟨-, hcoded, -, hnamed, hasked⟩ := errors_decoded
  have hletters : ∀ {s : String}, s.toList.all Fault.continuesCode = true →
      s.toList.head?.any Fault.startsCode = true → IsCode s := fun hall hhead => by
    obtain ⟨c, hc, hstart⟩ := (Option.any_eq_true _ _).mp hhead
    exact Fault.isCode_iff.mpr ⟨List.all_eq_true.mp hall, c, hc, hstart⟩
  refine ⟨?_, ?_, hnamed "apply_preset" "RuntimeError" "" (by decide)⟩
  · exact hcoded "apply_preset" "take_2" "a: b\n:" (hletters (by decide) (by decide))
      (by simp [Flush]; decide) (by decide)
  · obtain ⟨r, hr, herror⟩ := (hasked Floor.mutePerformer _ _ 0 _ _ Floor.missingSounds_refused).1
    refine ⟨r, hr, herror.trans (congrArg some ?_)⟩
    exact hcoded "batch_process_audio" "no_files_found" "No files match '*.ogg' in /in"
      (hletters (by decide) (by decide)) (by simp [Flush]; decide) (by decide)

end Soundworks
