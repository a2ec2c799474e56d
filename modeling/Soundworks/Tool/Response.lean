import Soundworks.Preset.Basic
import Soundworks.Report
/-!
The responses of the tools.
-/

namespace Soundworks

/-- A tool that failed, with a stable code. -/
structure ToolError where
  code : String
  message : String
  toolName : String
  deriving DecidableEq

def ToolError.form : Form ToolError :=
  .ofFields "ToolErrorOut" <|
    (Fields.build ToolError.mk).field
      (.required "code" .text (·.code)) |>.field
      (.required "message" .text (·.message)) |>.field
      (.required "tool_name" .text (·.toolName))

/-- The result of a preset. -/
structure PresetReport where
  result : Report
  presetUsed : String
  presetDescription : String
  deriving DecidableEq

def PresetReport.form : Form PresetReport :=
  .ofFields "PresetResultOut" <|
    (Fields.build PresetReport.mk).field
      (.required "result" Report.form.toSchema (·.result)) |>.field
      (.required "preset_used" .text (·.presetUsed)) |>.field
      (.required "preset_description" .text (·.presetDescription))

/-- A list of presets. -/
structure PresetList where
  count : Int
  presets : List Preset
  deriving DecidableEq

def PresetList.form : Form PresetList :=
  .ofFields "PresetsOut" <|
    (Fields.build PresetList.mk).field
      (.required "count" tally (·.count)) |>.field
      (.required "presets" (.list Preset.form.toSchema) (·.presets))

/-- The results of a set of variations, with the seed that yields them again. -/
structure VariationsReport where
  seed : Int
  results : List Report
  deriving DecidableEq

def VariationsReport.form : Form VariationsReport :=
  .ofFields "VariationsOut" <|
    (Fields.build VariationsReport.mk).field
      (.required "seed" (.integer .unlimited) (·.seed)) |>.field
      (.required "results" (.list Report.form.toSchema) (·.results))

/-- The results of a set of harmonics. -/
structure HarmonicsReport where
  results : List Report
  deriving DecidableEq

def HarmonicsReport.form : Form HarmonicsReport :=
  .ofFields "HarmonicsOut" <|
    (Fields.build HarmonicsReport.mk).field
      (.required "results" (.list Report.form.toSchema) (·.results))

/-- The queue after it was paused, resumed or cleared. -/
structure QueueControl where
  action : String
  discarded : Int := 0
  status : QueueStatus
  deriving DecidableEq

def QueueControl.form : Form QueueControl :=
  .ofFields "QueueControlOut" <|
    (Fields.build QueueControl.mk).field
      (.required "action" .text (·.action)) |>.field
      (.withDefault "discarded" tally (·.discarded) 0) |>.field
      (.required "status" QueueStatus.form.toSchema (·.status))

end Soundworks
