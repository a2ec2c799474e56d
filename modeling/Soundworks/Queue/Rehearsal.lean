import Soundworks.Queue.Basic
import Soundworks.Queue.Ready
/-!
Rehearsals of a queue with jobs of known behaviour. A job may wait at a gate of its own name,
then submit another job, control the queue, and end with a result or be broken off.
-/

namespace Soundworks

/-- What a job may do to the queue it runs in. -/
inductive QueueCommand where
  | pause
  | resume
  | clear
  deriving DecidableEq

/-- A job of known behaviour. Without a result it is broken off. -/
structure Part (α : Type) where
  name : String
  waits : Bool
  next : Option (Part α)
  command : Option QueueCommand
  result : Option α

/-- The count of jobs that a job may bring into the queue, itself included. -/
def Part.size {α : Type} : Part α → Nat
  | ⟨_, _, none, _, _⟩ => 1
  | ⟨_, _, some p, _, _⟩ => p.size + 1

/-- What is ready: a job that may start, or one that waited. -/
inductive Cue where
  | enter (ticket : Nat)
  | goOn (ticket : Nat)
  deriving DecidableEq

/-- A rehearsal: the queue, the jobs in the order of their tickets, and what has happened. -/
structure Rehearsal (α : Type) where
  queue : Queue α
  parts : List (Part α) := []
  gates : Gates Nat := {}
  started : List String := []
  finished : List String := []
  running : Nat := 0
  most : Nat := 0

/-- What is done to a rehearsal from outside. -/
inductive Direction (α : Type) where
  | submit (p : Part α)
  | release (name : String)
  | cancel (name : String)
  | command (c : QueueCommand)
  | status

/-- What an action returns. -/
inductive Returned where
  | nothing
  | truth (b : Bool)
  | count (n : Nat)
  deriving DecidableEq

namespace Rehearsal

variable {α : Type}

abbrev Cued (α : Type) := Rehearsal α × List Cue

def starting (r : Rehearsal α) (s : Queue α × List Nat) : Cued α :=
  ({ r with queue := s.1 }, s.2.map Cue.enter)

def submit (r : Rehearsal α) (p : Part α) : Cued α :=
  starting { r with parts := r.parts ++ [p] } r.queue.submit

/-- Controls the queue, and tells how many jobs were discarded. -/
def control (r : Rehearsal α) : QueueCommand → Cued α × Returned
  | .pause => (({ r with queue := r.queue.pause }, []), .nothing)
  | .resume => (r.starting r.queue.resume, .nothing)
  | .clear =>
    let (queue, count) := r.queue.clear
    (({ r with queue }, []), .count count)

/-- A job goes on to its end. -/
def complete (r : Rehearsal α) (ticket : Nat) (p : Part α) : Cued α :=
  let (r, submitted) := p.next.elim (r, []) r.submit
  let (r, controlled) := p.command.elim (r, []) fun c => (r.control c).1
  let r := { r with finished := r.finished ++ [p.name], running := r.running - 1 }
  let (r, started) := r.starting (r.queue.finish ticket p.result)
  (r, submitted ++ controlled ++ started)

/-- A job starts, and waits if it has to. -/
def enter (r : Rehearsal α) (ticket : Nat) (p : Part α) : Cued α :=
  let running := r.running + 1
  let r := { r with
    started := r.started ++ [p.name]
    running := running
    most := max r.most running }
  if p.waits ∧ !r.gates.isOpen p.name then ({ r with gates := r.gates.wait p.name ticket }, [])
  else r.complete ticket p

def step (r : Rehearsal α) : Cue → Cued α
  | .enter ticket => (r.parts[ticket]?).elim (r, []) (r.enter ticket)
  | .goOn ticket => (r.parts[ticket]?).elim (r, []) (r.complete ticket)

/-- The ticket of the job of a name; of several, the last one. -/
def ticketOf? (r : Rehearsal α) (name : String) : Option Nat :=
  (r.parts.zipIdx.reverse.find? fun p => p.1.name = name).map (·.2)

def direct (r : Rehearsal α) : Direction α → Cued α × Returned
  | .submit p => (r.submit p, .nothing)
  | .release name =>
    let (gates, woken) := r.gates.release name
    (({ r with gates }, woken.map Cue.goOn), .nothing)
  | .cancel name =>
    match r.ticketOf? name with
    | some ticket =>
      (({ r with queue := r.queue.cancel ticket }, []), .truth (!r.queue.isSettled ticket))
    | none => ((r, []), .nothing)
  | .command c => r.control c
  | .status => ((r, []), .nothing)

/-- Carries out several actions before anything that is ready, and notes what each one returned
and the state of the queue after it. -/
def directAll (r : Rehearsal α) :
    List (Direction α) → Cued α × List (Returned × QueueStatus)
  | [] => ((r, []), [])
  | d :: ds =>
    let ((r, cues), returned) := r.direct d
    let ((s, more), rest) := directAll r ds
    ((s, cues ++ more), (returned, r.queue.status) :: rest)

/-- The most steps that the jobs can take: each one starts once and goes on at most once. -/
def stepBound (r : Rehearsal α) : Nat := 2 * r.parts.foldr (fun p n => p.size + n) 0

/-- Carries out several actions and then everything that is ready. -/
def perform (r : Rehearsal α) (ds : List (Direction α)) :
    Rehearsal α × List (Returned × QueueStatus) :=
  let ((r, cues), notes) := r.directAll ds
  (runReady step r.stepBound r cues, notes)

end Rehearsal

end Soundworks
