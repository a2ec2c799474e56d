import Soundworks.Validation.Schema
/-!
Operations on the dynamic range. Thresholds are in decibels, times in milliseconds.
-/

namespace Soundworks

structure Compressor where
  threshold : Binary64
  ratio : Binary64
  attack : Binary64
  release : Binary64
  knee : Option Binary64 := none
  deriving DecidableEq

def Compressor.form : Form Compressor :=
  .ofFields "CompressorSettings" <|
    (Fields.build Compressor.mk).field
      (.required "threshold" (.number (.between (-60) 0)) (·.threshold)) |>.field
      (.required "ratio" (.number (.between 1 20)) (·.ratio)) |>.field
      (.required "attack" (.number (.between 0.01 2000)) (·.attack)) |>.field
      (.required "release" (.number (.between 0.01 9000)) (·.release)) |>.field
      (.optional "knee" (.number (.between 0 40)) (·.knee))

structure Gate where
  threshold : Binary64
  ratio : Binary64
  attack : Option Binary64 := none
  release : Option Binary64 := none
  deriving DecidableEq

def Gate.form : Form Gate :=
  .ofFields "GateSettings" <|
    (Fields.build Gate.mk).field
      (.required "threshold" (.number (.between (-80) 0)) (·.threshold)) |>.field
      (.required "ratio" (.number (.between 1 20)) (·.ratio)) |>.field
      (.optional "attack" (.number (.between 0 9000)) (·.attack)) |>.field
      (.optional "release" (.number (.between 0 9000)) (·.release))

structure Limiter where
  threshold : Binary64
  release : Option Binary64 := none
  deriving DecidableEq

def Limiter.form : Form Limiter :=
  .ofFields "LimiterSettings" <|
    (Fields.build Limiter.mk).field
      (.required "threshold" (.number (.between (-30) 0)) (·.threshold)) |>.field
      (.optional "release" (.number (.between 0 8000)) (·.release))

structure Dynamics where
  compressor : Option Compressor := none
  gate : Option Gate := none
  limiter : Option Limiter := none
  deriving DecidableEq

def Dynamics.form : Form Dynamics :=
  .ofFields "DynamicsOperation" <|
    (Fields.build Dynamics.mk).field
      (.optional "compressor" Compressor.form.toSchema (·.compressor)) |>.field
      (.optional "gate" Gate.form.toSchema (·.gate)) |>.field
      (.optional "limiter" Limiter.form.toSchema (·.limiter))

end Soundworks
