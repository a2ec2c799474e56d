import Soundworks.Studio.Floor
import Soundworks.Studio.Request
import Soundworks.Tool.Response
/-!
The tools. A request becomes an action, or is refused before anything has happened; an action is
then carried out by a studio, and its response is known once all its jobs are over.
-/

namespace Soundworks

/-- What a studio can be asked for. -/
inductive Tool where
  | processFile
  | batchProcess
  | applyPreset
  | listPresets
  | queueStatus
  | pauseQueue
  | resumeQueue
  | clearQueue
  | generateVariations
  | createHarmonics
  | advancedProcess
  | layerSounds
  deriving DecidableEq

namespace Tool

def all : List Tool :=
  [.processFile, .batchProcess, .applyPreset, .listPresets, .queueStatus, .pauseQueue,
    .resumeQueue, .clearQueue, .generateVariations, .createHarmonics, .advancedProcess,
    .layerSounds]

def name : Tool → String
  | .processFile => "process_audio_file"
  | .batchProcess => "batch_process_audio"
  | .applyPreset => "apply_preset"
  | .listPresets => "list_presets"
  | .queueStatus => "get_queue_status"
  | .pauseQueue => "pause_queue"
  | .resumeQueue => "resume_queue"
  | .clearQueue => "clear_queue"
  | .generateVariations => "generate_variations"
  | .createHarmonics => "create_harmonics"
  | .advancedProcess => "advanced_process"
  | .layerSounds => "layer_sounds"

def ofName? (s : String) : Option Tool := all.find? fun t => t.name = s

end Tool

/-- What a tool answers. -/
inductive Response where
  | report (r : Report)
  | batch (r : BatchReport)
  | preset (r : PresetReport)
  | presets (r : PresetList)
  | variations (r : VariationsReport)
  | harmonics (r : HarmonicsReport)
  | control (r : QueueControl)
  | status (r : QueueStatus)
  | failed (toolName : String) (f : Fault)
  deriving DecidableEq

/-- What is to be done for a request. -/
inductive Action where
  | reply (r : Response)
  | single (job : Job) (answer : Report → Response)
  | queued (jobs : List Job) (answer : List Report → Response)
  | pause
  | resume
  | clear
  | status

namespace Action

def ofJob (j : Job) : Action := .single j .report

def ofBatch (jobs : List Job) : Action := .queued jobs fun rs => .batch (.ofResults rs)

def ofVariations (set : Int × List Job) : Action :=
  .queued set.2 fun rs => .variations { seed := set.1, results := rs }

def ofHarmonics (jobs : List Job) : Action := .queued jobs fun rs => .harmonics { results := rs }

end Action

/-- What a tool is given: a value, or a record that was read before as one of a title. -/
inductive Argument where
  | value (v : Value)
  | record (title : String) (v : Value)

/-- Reads a request. An empty value stands for a request without fields; a record of another
kind is no request. -/
def Form.request {α : Type} (f : Form α) : Argument → Except Fault α
  | .value v => (f.validate (if v.isEmpty then .object [] else v)).mapError Fault.rejected
  | .record title v =>
    if title = f.title then (f.validate v).mapError Fault.rejected
    else .error (.rejected ⟨f.title, [⟨[], .notObject f.title .value⟩]⟩)

namespace ProcessRequest

def job (r : ProcessRequest) : Job where
  inputs := [r.inputPath]
  output := r.outputPath
  operations := r.operations
  overwrite := r.overwrite

end ProcessRequest

namespace BatchRequest

def batch (r : BatchRequest) : Batch where
  inputDirectory := some r.inputDirectory
  pattern := r.filePattern
  outputDirectory := some r.outputDirectory
  suffix := r.suffix
  extension := r.container.map Container.name
  operations := r.operations
  overwrite := r.overwrite

end BatchRequest

namespace PresetRequest

def action (r : PresetRequest) : Except Refusal Action :=
  match Preset.find? r.presetName with
  | none => .error (.unknownPreset r.presetName)
  | some p => .ok <| .single
      { inputs := [r.inputPath], output := r.outputPath, operations := p.operations
        overwrite := r.overwrite }
      fun report => .preset
        { result := report, presetUsed := p.name, presetDescription := p.description }

end PresetRequest

def presetList (presets : List Preset) : Response :=
  .presets { count := presets.length, presets := presets }

namespace Tool

/-- Why a tool that needs a request cannot do without one. -/
def missingArgument (t : Tool) : Fault :=
  .unexpected "TypeError"
    ("ToolDispatcher." ++ t.name ++ "() missing 1 required positional argument: 'req'")

/-- Why a tool that takes no request cannot do with one. -/
def surplusArgument (t : Tool) : Fault :=
  .unexpected "TypeError"
    ("ToolDispatcher." ++ t.name ++ "() takes 1 positional argument but 2 were given")

def withRequest {α : Type} (t : Tool) (f : Form α) (a : Option Argument)
    (k : α → Except Refusal Action) : Except Fault Action :=
  match a with
  | none => .error t.missingArgument
  | some a => do (k (← f.request a)).mapError Refusal.fault

def without (t : Tool) (a : Option Argument) (action : Action) : Except Fault Action :=
  match a with
  | none => .ok action
  | some _ => .error t.surplusArgument

def action (t : Tool) (s : Studio) (files : FileTree) (chosenSeed : Int) (a : Option Argument) :
    Except Fault Action :=
  match t with
  | .processFile => t.withRequest ProcessRequest.form a fun r => .ok (.ofJob r.job)
  | .batchProcess => t.withRequest BatchRequest.form a fun r =>
      (r.batch.jobs s.place files).map .ofBatch
  | .applyPreset => t.withRequest PresetRequest.form a fun r => r.action
  | .listPresets =>
    .ok <| .reply <| presetList <|
      match a with
      | none | some (.value .null) => Preset.inCategory none
      | some (.value (.text c)) => Preset.inCategory (some c)
      | some _ => []
  | .queueStatus => t.without a .status
  | .pauseQueue => t.without a .pause
  | .resumeQueue => t.without a .resume
  | .clearQueue => t.without a .clear
  | .generateVariations => t.withRequest VariationsRequest.form a fun r =>
      (s.variations files chosenSeed r.inputPath r.outputDirectory r.ranges (r.base.getD {})
        r.overwrite).map .ofVariations
  | .createHarmonics => t.withRequest HarmonicsRequest.form a fun r =>
      (s.harmonics files r.inputPath r.outputDirectory r.harmonics r.overwrite).map .ofHarmonics
  | .advancedProcess => t.withRequest AdvancedRequest.form a fun r => do
      s.require "advanced_process"
      pure <| .ofJob
        { inputs := [r.inputPath], output := r.outputPath, operations := r.operations
          overwrite := r.overwrite }
  | .layerSounds => t.withRequest LayerRequest.form a fun r =>
      (s.layered r.inputPaths r.outputPath { layers := r.layers } r.overwrite).map .ofJob

end Tool

/-- A request that is being dealt with. -/
inductive Task where
  | answered (r : Response)
  | single (number : Nat) (answer : Report → Response)
  | queued (tickets : List Nat) (answer : List Report → Response)

namespace Floor

/-- The response to a request, once it is known. -/
def response? (f : Floor) : Task → Option Response
  | .answered r => some r
  | .single n answer => (f.singles[n]?.join).map answer
  | .queued tickets answer => (f.reports? tickets).map answer

def controlled (f : Floor) (action : String) (discarded : Nat := 0) : Task :=
  .answered (.control { action, discarded, status := f.queue.status })

def begin (p : Performer) (f : Floor) : Action → Next × Task
  | .reply r => ((f, []), .answered r)
  | .single j answer => (f.runSingle p j, .single f.singles.length answer)
  | .queued jobs answer =>
    (f.submit jobs, .queued ((List.range jobs.length).map (f.jobs.length + ·)) answer)
  | .pause =>
    let f := f.pause
    ((f, []), f.controlled "pause")
  | .resume =>
    let (f, turns) := f.resume
    ((f, turns), f.controlled "resume")
  | .clear =>
    let (f, count) := f.clear
    ((f, []), f.controlled "clear" count)
  | .status => ((f, []), .answered (.status f.queue.status))

/-- Begins what a tool is asked for; a request that is refused changes nothing. -/
def ask (p : Performer) (f : Floor) (t : Tool) (chosenSeed : Int) (a : Option Argument) :
    Next × Task :=
  match t.action f.studio f.tree chosenSeed a with
  | .ok action => f.begin p action
  | .error fault => ((f, []), .answered (.failed t.name fault))

end Floor

end Soundworks
