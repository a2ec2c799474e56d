import Soundworks.Report
/-!
A first-in first-out queue of jobs with a bound on how many are active at once. A job is known by
its ticket, the number of jobs submitted before it. The queue tells which jobs are to start; what
they do is not its concern. Once a job is settled, its outcome does not change.
-/

namespace Soundworks

/-- How a job was settled: with its own result, by being discarded before its start, or by being
cancelled from outside. -/
inductive Outcome (α : Type) where
  | ended (result : α)
  | discarded
  | cancelled
  deriving DecidableEq

def discardMessage : String := "Job removed from queue before it started"

/-- A queue of jobs whose results have type `α`. The outcomes are in the order of the tickets. -/
structure Queue (α : Type) where
  limit : Nat
  limit_pos : 0 < limit
  paused : Bool := false
  active : Nat := 0
  pending : List Nat := []
  outcomes : List (Option (Outcome α)) := []

def concurrencyMessage : String := "invalid_concurrency: concurrency must be at least 1."

namespace Queue

variable {α : Type}

def ofLimit? (limit : Int) : Option (Queue α) :=
  if h : 0 < limit.toNat then some { limit := limit.toNat, limit_pos := h } else none

/-- The outcome of a job, once it is settled. -/
def outcome? (q : Queue α) (ticket : Nat) : Option (Outcome α) := q.outcomes[ticket]?.join

def isSettled (q : Queue α) (ticket : Nat) : Bool := (q.outcome? ticket).isSome

/-- Settles a job, unless it is settled. -/
def settle (q : Queue α) (ticket : Nat) (o : Outcome α) : Queue α :=
  if q.isSettled ticket then q else { q with outcomes := q.outcomes.set ticket (some o) }

def isOpen (q : Queue α) : Bool := !q.paused && decide (q.active < q.limit)

/-- Takes jobs from a list of waiting ones as long as the queue is open. Settled jobs are left
out. -/
def drainFrom (q : Queue α) : List Nat → Queue α × List Nat
  | [] => ({ q with pending := [] }, [])
  | ticket :: rest =>
    if !q.isOpen then ({ q with pending := ticket :: rest }, [])
    else if q.isSettled ticket then drainFrom q rest
    else
      let (q, started) := drainFrom { q with active := q.active + 1 } rest
      (q, ticket :: started)

/-- Takes waiting jobs as long as the queue is open; they are to start in this order. -/
def drain (q : Queue α) : Queue α × List Nat := q.drainFrom q.pending

def nextTicket (q : Queue α) : Nat := q.outcomes.length

def submit (q : Queue α) : Queue α × List Nat :=
  drain { q with
    pending := q.pending ++ [q.nextTicket]
    outcomes := q.outcomes ++ [none] }

/-- Adds several jobs, one after the other. -/
def submitMany (q : Queue α) : Nat → Queue α × List Nat
  | 0 => (q, [])
  | n + 1 =>
    let (q, started) := q.submit
    let (q, more) := submitMany q n
    (q, started ++ more)

/-- A job that was started is over. One that was broken off has no result and stays unsettled. -/
def finish (q : Queue α) (ticket : Nat) (result : Option α) : Queue α × List Nat :=
  let q := result.elim q fun a => q.settle ticket (.ended a)
  drain { q with active := q.active - 1 }

/-- Cancels a job from outside, unless it is settled. A job that was started goes on. -/
def cancel (q : Queue α) (ticket : Nat) : Queue α := q.settle ticket .cancelled

/-- Holds back the start of further jobs. -/
def pause (q : Queue α) : Queue α := { q with paused := true }

/-- Lets jobs start again. -/
def resume (q : Queue α) : Queue α × List Nat := drain { q with paused := false }

def unsettled (q : Queue α) : List Nat := q.pending.filter fun t => !q.isSettled t

/-- Discards all waiting jobs, and tells how many of them were not settled. -/
def clear (q : Queue α) : Queue α × Nat :=
  ({ q.pending.foldl (fun q t => q.settle t .discarded) q with pending := [] },
    q.unsettled.length)

def status (q : Queue α) : QueueStatus where
  pending := q.pending.length
  active := q.active
  paused := q.paused
  concurrency := q.limit

end Queue

end Soundworks
