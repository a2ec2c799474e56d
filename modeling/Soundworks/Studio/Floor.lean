import Soundworks.Job.Basic
import Soundworks.Queue.Ready
/-!
A studio at work. Jobs run either through the queue or on their own. A job that calls the engine
may have to wait before its call is answered; meanwhile others go on. What is ready is taken in
the order in which it became ready.
-/

namespace Soundworks

/-- How calls of the engine are answered: at which gate a call waits, if it waits at all, and
what becomes of it and of the files. -/
structure Performer where
  gate? : EngineCall → Option String
  perform : EngineCall → FileTree → Except Failure Unit × FileTree

/-- The seat of a job on the floor: in the queue, or on its own. -/
inductive Seat where
  | queued (ticket : Nat)
  | single (number : Nat)
  deriving DecidableEq

/-- What is ready: a job that may start, or one whose call may be answered. -/
inductive Turn where
  | enter (ticket : Nat)
  | answer (seat : Seat)
  deriving DecidableEq

/-- A studio at work: the jobs of the queue in the order of their tickets, the reports of the
jobs on their own, the calls that wait for an answer, and all calls that were made. -/
structure Floor where
  studio : Studio
  queue : Queue Report
  tree : FileTree
  jobs : List Job := []
  singles : List (Option Report) := []
  gates : Gates Seat := {}
  calling : List (Seat × Job × EngineCall) := []
  calls : List EngineCall := []
  mostCalling : Nat := 0

namespace Floor

abbrev Next := Floor × List Turn

def starting (f : Floor) (s : Queue Report × List Nat) : Next :=
  ({ f with queue := s.1 }, s.2.map Turn.enter)

def finish (f : Floor) (r : Seat) (report : Report) : Next :=
  match r with
  | .queued ticket => f.starting (f.queue.finish ticket (some report))
  | .single n => ({ f with singles := f.singles.set n (some report) }, [])

def answer (p : Performer) (f : Floor) (r : Seat) (j : Job) (c : EngineCall) : Next :=
  let (result, tree) := p.perform c f.tree
  finish { f with tree := tree, calling := f.calling.filter fun x => x.1 ≠ r } r
    (j.conclude c result)

def enter (p : Performer) (f : Floor) (r : Seat) (j : Job) : Next :=
  match j.prepare f.studio f.tree with
  | (.error s, tree) => finish { f with tree := tree } r (j.failed s)
  | (.ok c, tree) =>
    let calling := f.calling ++ [(r, j, c)]
    let f := { f with
      tree := tree
      calling := calling
      calls := f.calls ++ [c]
      mostCalling := max f.mostCalling calling.length }
    match (p.gate? c).filter fun gate => !f.gates.isOpen gate with
    | some gate => ({ f with gates := f.gates.wait gate r }, [])
    | none => f.answer p r j c

def step (p : Performer) (f : Floor) : Turn → Next
  | .enter ticket => (f.jobs[ticket]?).elim (f, []) (f.enter p (.queued ticket))
  | .answer r =>
    match f.calling.find? fun x => x.1 = r with
    | some (_, j, c) => f.answer p r j c
    | none => (f, [])

/-- The most turns that the jobs can take: each one starts once and is answered at most once. -/
def turnBound (f : Floor) : Nat := 2 * (f.jobs.length + f.singles.length)

def settle (p : Performer) (s : Next) : Floor := runReady (step p) s.1.turnBound s.1 s.2

def submit (f : Floor) (jobs : List Job) : Next :=
  starting { f with jobs := f.jobs ++ jobs } (f.queue.submitMany jobs.length)

def runSingle (p : Performer) (f : Floor) (j : Job) : Next :=
  enter p { f with singles := f.singles ++ [none] } (.single f.singles.length) j

def pause (f : Floor) : Floor := { f with queue := f.queue.pause }

def resume (f : Floor) : Next := f.starting f.queue.resume

/-- Discards the waiting jobs, and tells how many there were. -/
def clear (f : Floor) : Floor × Nat :=
  let (queue, count) := f.queue.clear
  ({ f with queue }, count)

/-- Opens gates, one after the other. -/
def release (f : Floor) : List String → Next
  | [] => (f, [])
  | gate :: rest =>
    let (gates, woken) := f.gates.release gate
    let (f, more) := release { f with gates } rest
    (f, woken.map Turn.answer ++ more)

/-- Answers the call that has waited longest, again and again, for at most the given count of
times. -/
def answerInOrder (p : Performer) : Nat → Floor → Floor
  | 0, f => f
  | n + 1, f =>
    if f.gates.waiting.isEmpty then f
    else
      let (gates, woken) := f.gates.releaseFirst
      answerInOrder p n (settle p ({ f with gates }, woken.map Turn.answer))

/-- Lets the jobs go on until no call is waiting. -/
def complete (p : Performer) (s : Next) : Floor :=
  let f := settle p s
  f.answerInOrder p f.turnBound

/-- The report of a job of the queue, once it is settled. -/
def report? (f : Floor) (ticket : Nat) : Option Report :=
  match f.queue.outcome? ticket with
  | none => none
  | some (.ended r) => some r
  | some .discarded => (f.jobs[ticket]?).map Job.discarded
  | some .cancelled => (f.jobs[ticket]?).map fun j => j.report j.output (some "Unexpected error: ")

/-- The reports of jobs of the queue, once all of them are settled. -/
def reports? (f : Floor) (tickets : List Nat) : Option (List Report) := tickets.mapM f.report?

end Floor

end Soundworks
