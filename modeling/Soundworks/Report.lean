import Soundworks.Operation.Set
/-!
Reports: the result of one job, of a batch of jobs, and the state of the queue.
-/

namespace Soundworks

def tally : Schema Int := .integer (.atLeast 0)

/-- The result of a job. Several inputs are named in one text, separated by commas. -/
structure Report where
  success : Bool
  inputPath : String
  outputPath : String
  elapsedMs : Int
  operations : OperationSet
  error : Option String := none
  deriving DecidableEq

def Report.form : Form Report :=
  .ofFields "ProcessingResult" <|
    (Fields.build Report.mk).field
      (.required "success" .bool (·.success)) |>.field
      (.required "input_path" .text (·.inputPath)) |>.field
      (.required "output_path" .text (·.outputPath)) |>.field
      (.required "processing_time_ms" tally (·.elapsedMs)) |>.field
      (.required "operations" OperationSet.form.toSchema (·.operations)) |>.field
      (.optional "error" .text (·.error))

/-- The result of a batch. -/
structure BatchReport where
  total : Int
  successful : Int
  failed : Int
  results : List Report
  elapsedMs : Int
  deriving DecidableEq

namespace BatchReport

/-- Every file of a batch either succeeds or fails. -/
def review (b : BatchReport) : List Reason :=
  if b.successful + b.failed = b.total then [] else [.countMismatch]

def form : Form BatchReport :=
  .ofFields "BatchResult"
    ((Fields.build BatchReport.mk).field
      (.required "total_files" (.integer .unlimited) (·.total)) |>.field
      (.required "successful_files" (.integer .unlimited) (·.successful)) |>.field
      (.required "failed_files" (.integer .unlimited) (·.failed)) |>.field
      (.required "results" (.list Report.form.toSchema) (·.results)) |>.field
      (.required "total_processing_time_ms" (.integer .unlimited) (·.elapsedMs)))
    review

def ofResults (results : List Report) : BatchReport :=
  let successful := results.countP (·.success)
  { total := results.length
    successful := successful
    failed := (results.length : Int) - successful
    results := results
    elapsedMs := 0 }

end BatchReport

/-- The state of the queue. -/
structure QueueStatus where
  pending : Int
  active : Int
  paused : Bool
  concurrency : Int
  deriving DecidableEq

def QueueStatus.form : Form QueueStatus :=
  .ofFields "QueueStatus" <|
    (Fields.build QueueStatus.mk).field
      (.required "pending" tally (·.pending)) |>.field
      (.required "active" tally (·.active)) |>.field
      (.required "paused" .bool (·.paused)) |>.field
      (.required "concurrency" (.integer (.atLeast 1)) (·.concurrency))

end Soundworks
