import Soundworks.Decimal.Loose
import Soundworks.Binary64.Arithmetic
import Soundworks.Settings.Environment
import Soundworks.Text.Case
/-!
Settings, read from an environment. Each one depends on a variable of its own and falls back to
its default if the variable holds something else.
-/

namespace Soundworks

/-- How a server is reached. -/
inductive Transport where
  | stdio
  | http
  deriving DecidableEq

def Transport.name : Transport → String
  | .stdio => "stdio"
  | .http => "http"

structure Settings where
  logLevel : String := "INFO"
  enginePath : Option String := none
  engineTimeout : Option Binary64 := none
  concurrency : Nat := 2
  advanced : Bool := true
  transport : Transport := .stdio
  host : String := "0.0.0.0"
  port : Int := 8080
  deriving DecidableEq

namespace Settings

/-- The integer of a variable, or a default. -/
def integerOf (value : Option String) (default : Int) : Int :=
  (value.bind Decimal.looseInteger?).getD default

def positiveOf (value : Option String) : Option Binary64 :=
  (value.bind Decimal.looseNumber?).filter fun x => decide (0 < x)

/-- The truth value of a variable, or a default. -/
def boolOf (value : Option String) (default : Bool) : Bool :=
  match value.map fun v => Text.lower (Text.strip v) with
  | some word =>
    if word ∈ ["1", "true", "yes", "on"] then true
    else if word ∈ ["0", "false", "no", "off"] then false
    else default
  | none => default

def transportOf (value : Option String) : Transport :=
  match value.map fun v => Text.lower (Text.strip v) with
  | some "http" => .http
  | _ => .stdio

/-- The level of a variable, in upper case. -/
def levelOf (value : Option String) : String :=
  match value.map fun v => Text.upper (Text.strip v) with
  | some "" => "INFO"
  | some level => level
  | none => "INFO"

def ofEnvironment (env : Environment) : Settings where
  logLevel := levelOf (env.get? "AUDIO_TWEAKER_LOG_LEVEL")
  enginePath := (env.get? "AUDIO_TWEAKER_FFMPEG_PATH").filter (· ≠ "")
  engineTimeout := positiveOf (env.get? "AUDIO_TWEAKER_ENGINE_TIMEOUT")
  concurrency := (max 1 (integerOf (env.get? "AUDIO_TWEAKER_CONCURRENCY") 2)).toNat
  advanced := boolOf (env.get? "AUDIO_TWEAKER_ENABLE_ADVANCED") true
  transport := transportOf (env.get? "AUDIO_TWEAKER_TRANSPORT")
  host := (env.get? "HOST").getD "0.0.0.0"
  port := integerOf (env.get? "PORT") 8080

def levels : List (String × Nat) :=
  [("CRITICAL", 50), ("FATAL", 50), ("ERROR", 40), ("WARN", 30), ("WARNING", 30), ("INFO", 20),
    ("DEBUG", 10), ("NOTSET", 0)]

/-- The least level of the records that are kept; an unknown name stands for `INFO`. -/
def levelNumber (name : String) : Nat := (levels.lookup (Text.upper name)).getD 20

end Settings

end Soundworks
