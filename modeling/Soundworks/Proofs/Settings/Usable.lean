import Soundworks.CommandLine.Run
import Soundworks.Proofs.Decimal.Loose
import Soundworks.Proofs.Queue.Operations
/-!
What the settings of an environment are. A variable is honoured if its text denotes a value of its
setting, and ignored otherwise; which texts do is said by the grammar of numbers and by lists of
words, not by the readers. Whatever the environment holds, the settings can be used as they are.
-/

namespace Soundworks

theorem Binary64.isNaN_of_lt {x y : Binary64} (h : x < y) : y.isNaN = false := by
  cases y with
  | nan =>
      have hnone : Binary64.compare? x .nan = none := by cases x <;> rfl
      change Binary64.lt x .nan = true at h
      simp [Binary64.lt, hnone] at h
  | infinite => rfl
  | finite => rfl

namespace Settings

open Decimal (IntegerText NumberText)

/-! ### One variable -/

/-- The value of a setting: what the text of its variable denotes, or the default if there is no
text or it denotes nothing. -/
inductive Honours {α : Type} (denotes : String → α → Prop) (default : α) : Option String → α → Prop
  | unset : Honours denotes default none default
  | honoured {text : String} {x : α} : denotes text x → Honours denotes default (some text) x
  | ignored {text : String} :
      (∀ x, ¬denotes text x) → Honours denotes default (some text) default

/-- A reader that accepts the texts that denote something makes a setting that honours them. -/
theorem honours_getD {α : Type} {denotes : String → α → Prop} {read : String → Option α}
    (h : ∀ text x, read text = some x ↔ denotes text x) (default : α) (value : Option String) :
    Honours denotes default value ((value.bind read).getD default) := by
  cases value with
  | none => exact .unset
  | some text =>
      cases hread : read text with
      | none =>
          simp only [Option.bind_some, hread, Option.getD_none]
          refine .ignored fun x hx => ?_
          rw [(h text x).mpr hx] at hread
          cases hread
      | some x =>
          simp only [Option.bind_some, hread, Option.getD_some]
          exact .honoured ((h text x).mp hread)

def wordsFor : Bool → List String
  | true => ["1", "true", "yes", "on"]
  | false => ["0", "false", "no", "off"]

/-- A text that is a word for a truth value, in any case and with blanks around it. -/
def TruthText (text : String) (b : Bool) : Prop := Text.lower (Text.strip text) ∈ wordsFor b

/-- A text that is the name of a transport, in any case and with blanks around it. -/
def TransportText (text : String) (t : Transport) : Prop :=
  Text.lower (Text.strip text) = t.name

/-- A text that denotes a bound on the jobs at once: an integer, raised to one if it is smaller. -/
def BoundText (text : String) (bound : Nat) : Prop :=
  ∃ n, IntegerText text n ∧ (bound : Int) = max 1 n

/-- A text that denotes a limit of time or that there is none: a number, dropped if it is not
positive. -/
def LimitText (text : String) (limit : Option Binary64) : Prop :=
  ∃ x, NumberText text x ∧ limit = if 0 < x then some x else none

theorem honours_integerOf (value : Option String) (default : Int) :
    Honours IntegerText default value (integerOf value default) :=
  honours_getD (fun _ _ => Decimal.looseInteger?_eq_some_iff) default value

theorem honours_bound (value : Option String) :
    Honours BoundText 2 value (max 1 (integerOf value 2)).toNat := by
  have h := honours_integerOf value 2
  generalize integerOf value 2 = n at h ⊢
  cases h with
  | unset => exact .unset
  | honoured h => exact .honoured ⟨n, h, by omega⟩
  | ignored h => exact .ignored fun _ ⟨k, hk, _⟩ => h k hk

theorem honours_positiveOf (value : Option String) :
    Honours LimitText none value (positiveOf value) := by
  cases value with
  | none => exact .unset
  | some text =>
      simp only [positiveOf, Option.bind_some]
      cases hread : Decimal.looseNumber? text with
      | none =>
          refine .ignored fun limit ⟨x, hx, _⟩ => ?_
          rw [Decimal.looseNumber?_eq_some_iff.mpr hx] at hread
          cases hread
      | some x =>
          refine .honoured ⟨x, Decimal.looseNumber?_eq_some_iff.mp hread, ?_⟩
          simp [Option.filter]

theorem honours_boolOf (value : Option String) (default : Bool) :
    Honours TruthText default value (boolOf value default) := by
  cases value with
  | none => exact .unset
  | some text =>
      simp only [boolOf, Option.map_some]
      split
      · rename_i h
        exact .honoured h
      · rename_i htrue
        split
        · rename_i h
          exact .honoured h
        · rename_i hfalse
          refine .ignored fun b => ?_
          cases b with
          | true => exact htrue
          | false => exact hfalse

theorem honours_transportOf (value : Option String) :
    Honours TransportText .stdio value (transportOf value) := by
  cases value with
  | none => exact .unset
  | some text =>
      simp only [transportOf, Option.map_some]
      split
      · rename_i h
        exact .honoured (Option.some.inj h)
      · rename_i hhttp
        by_cases hstdio : Text.lower (Text.strip text) = "stdio"
        · exact .honoured hstdio
        · refine .ignored fun t => ?_
          cases t with
          | stdio => exact hstdio
          | http => exact fun h => hhttp (congrArg some h)

/-! ### All of them -/

/-- Settings that a program can work with. -/
structure Usable (s : Settings) : Prop where
  concurrency : 1 ≤ s.concurrency
  engineTimeout : ∀ x ∈ s.engineTimeout, 0 < x ∧ x.isNaN = false
  transport : s.transport.name = "stdio" ∨ s.transport.name = "http"

/-- The settings honour the numbers, truth values and transports of an environment. -/
structure ReadFrom (env : Environment) (s : Settings) : Prop where
  concurrency : Honours BoundText 2 (env.get? "AUDIO_TWEAKER_CONCURRENCY") s.concurrency
  engineTimeout :
    Honours LimitText none (env.get? "AUDIO_TWEAKER_ENGINE_TIMEOUT") s.engineTimeout
  port : Honours IntegerText 8080 (env.get? "PORT") s.port
  advanced : Honours TruthText true (env.get? "AUDIO_TWEAKER_ENABLE_ADVANCED") s.advanced
  transport : Honours TransportText .stdio (env.get? "AUDIO_TWEAKER_TRANSPORT") s.transport

theorem usable_ofEnvironment (env : Environment) : (ofEnvironment env).Usable where
  concurrency := by
    simp only [ofEnvironment]
    omega
  engineTimeout := by
    intro x hx
    have hpos : 0 < x := by simpa using (Option.mem_filter_iff.mp hx).2
    exact ⟨hpos, Binary64.isNaN_of_lt hpos⟩
  transport := by
    cases (ofEnvironment env).transport with
    | stdio => exact .inl rfl
    | http => exact .inr rfl

theorem readFrom_ofEnvironment (env : Environment) : ReadFrom env (ofEnvironment env) where
  concurrency := honours_bound _
  engineTimeout := honours_positiveOf _
  port := honours_integerOf _ _
  advanced := honours_boolOf _ _
  transport := honours_transportOf _

/-- One of the settings. -/
inductive Setting where
  | logLevel
  | enginePath
  | engineTimeout
  | concurrency
  | advanced
  | transport
  | host
  | port

namespace Setting

def name : Setting → String
  | logLevel => "AUDIO_TWEAKER_LOG_LEVEL"
  | enginePath => "AUDIO_TWEAKER_FFMPEG_PATH"
  | engineTimeout => "AUDIO_TWEAKER_ENGINE_TIMEOUT"
  | concurrency => "AUDIO_TWEAKER_CONCURRENCY"
  | advanced => "AUDIO_TWEAKER_ENABLE_ADVANCED"
  | transport => "AUDIO_TWEAKER_TRANSPORT"
  | host => "HOST"
  | port => "PORT"

/-- Two settings agree in one of their parts. -/
def Agrees (s t : Settings) : Setting → Prop
  | logLevel => s.logLevel = t.logLevel
  | enginePath => s.enginePath = t.enginePath
  | engineTimeout => s.engineTimeout = t.engineTimeout
  | concurrency => s.concurrency = t.concurrency
  | advanced => s.advanced = t.advanced
  | transport => s.transport = t.transport
  | host => s.host = t.host
  | port => s.port = t.port

/-- A setting depends on its own variable only. -/
theorem agrees_ofEnvironment {env env' : Environment} {x : Setting}
    (h : env.get? x.name = env'.get? x.name) :
    x.Agrees (ofEnvironment env) (ofEnvironment env') := by
  cases x <;> simp only [name] at h <;> simp only [Agrees, ofEnvironment, h]

end Setting

end Settings

namespace Surroundings

/-- A studio can be opened for at least one job at once. -/
theorem exists_floor (s : Surroundings) {limit : Int} (h : 1 ≤ limit) :
    ∃ queue, Queue.ofLimit? limit = some queue ∧
      s.floor? limit = some { studio := s.studio, queue, tree := s.tree } := by
  have hpos : 0 < limit.toNat := by omega
  have hqueue : (Queue.ofLimit? limit : Option (Queue Report)) =
      some { limit := limit.toNat, limit_pos := hpos } := dif_pos hpos
  exact ⟨_, hqueue, by rw [floor?, hqueue]; rfl⟩

/-- Every setting is one that a program can work with, as its own variable has it or as the default
has it, and a studio can be opened with them. -/
theorem settings_usable (s : Surroundings) :
    s.settings.Usable ∧ Settings.ReadFrom s.environment s.settings ∧
      (∃ f, s.floor? s.settings.concurrency = some f ∧ f.queue.limit = s.settings.concurrency) ∧
      ∀ (x : Settings.Setting) (env : Environment),
        env.get? x.name = s.environment.get? x.name →
          x.Agrees (Settings.ofEnvironment env) s.settings := by
  have husable := Settings.usable_ofEnvironment s.environment
  refine ⟨husable, Settings.readFrom_ofEnvironment _, ?_, fun x env => x.agrees_ofEnvironment⟩
  have hbound := husable.concurrency
  obtain ⟨queue, hqueue, hfloor⟩ := s.exists_floor (Int.ofNat_le.mpr hbound)
  exact ⟨_, hfloor, by exact_mod_cast Queue.limit_of_ofLimit? hqueue⟩

end Surroundings

end Soundworks
