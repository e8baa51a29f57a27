import Mathlib.Algebra.GroupWithZero.Nat
import Mathlib.Data.List.Basic
import Atperson.Runs.Guarded

/-!
# The worker pool

One owner and its workers share a queue under one lock. A step is what one of them does
while it holds the lock: the owner enters a call or looks again after it was woken, a worker
looks for a task, or ends the one it ran. Whoever sleeps on a condition is woken by a
notification, or for no reason.

A task is whatever was submitted; whether it throws is for the step that ends it.
-/
namespace Atperson.Worker

/-- `WorkerPool::Config` after its clamps. -/
structure Config where
  threadCount : ℕ
  maxQueue : ℕ
  threads_pos : 0 < threadCount
  queue_pos : 0 < maxQueue

def Config.clamp (threadCount maxQueue : ℕ) : Config where
  threadCount := max threadCount 1
  maxQueue := max maxQueue 1
  threads_pos := Nat.lt_of_lt_of_le Nat.one_pos (Nat.le_max_right _ _)
  queue_pos := Nat.lt_of_lt_of_le Nat.one_pos (Nat.le_max_right _ _)

/-- Where a worker is in `worker_loop`. -/
inductive Thread (α : Type*) where
  /-- About to take the lock and look for work. -/
  | ready
  /-- On `work_available`. -/
  | asleep
  | running (task : α)
  | exited
  deriving DecidableEq

/-- Where the owner is. -/
inductive Owner (α : Type*) where
  | idle
  /-- In `submit`, on `space_available`. -/
  | submitAsleep (task : α)
  | submitReady (task : α)
  /-- In `wait`, on `work_done`. -/
  | waitAsleep
  | waitReady
  /-- In `shutdown`, joining the workers. -/
  | joining
  deriving DecidableEq

inductive Outcome where
  | submitted
  | waited
  | joined
  | threw (message : String)
  deriving DecidableEq

/-- The pool, with what was submitted, what has ended and how the last call came back. -/
structure Pool (α : Type*) where
  config : Config
  queue : List α
  error : Option String
  shuttingDown : Bool
  pending : ℕ
  workers : List (Thread α)
  owner : Owner α
  last : Option Outcome
  submitted : List α
  ended : List α

section Model
variable {α : Type*}

namespace Thread

def task? : Thread α → Option α
  | running t => some t
  | _ => none

def hasExited : Thread α → Bool
  | exited => true
  | _ => false

/-- Wake one sleeper, the named one if it sleeps. -/
def wakeFirst : List (Thread α) → List (Thread α)
  | [] => []
  | asleep::rest => ready::rest
  | w::rest => w::wakeFirst rest

def notifyOne (named : ℕ) (ws : List (Thread α)) : List (Thread α) :=
  match ws[named]? with
  | some asleep => ws.set named ready
  | _ => wakeFirst ws

def wake : Thread α → Thread α
  | asleep => ready
  | w => w

def notifyAll (ws : List (Thread α)) : List (Thread α) := ws.map wake

end Thread

namespace Owner

/-- A notification on `space_available`. -/
def spaceAvailable : Owner α → Owner α
  | submitAsleep t => submitReady t
  | o => o

/-- A notification on `work_done`. -/
def workDone : Owner α → Owner α
  | waitAsleep => waitReady
  | o => o

end Owner

namespace Pool

def start (config : Config) : Pool α where
  config := config
  queue := []
  error := none
  shuttingDown := false
  pending := 0
  workers := List.replicate config.threadCount .ready
  owner := .idle
  last := none
  submitted := []
  ended := []

/-- The tasks that workers run now. -/
def running (s : Pool α) : List α := s.workers.filterMap Thread.task?

/-- `throw_first_error_locked` with an error stored. -/
def throwFirst (s : Pool α) (message : String) : Pool α :=
  { s with
    error := none
    owner := .idle
    last := some (.threw (if message.isEmpty then "worker task failed" else message)) }

def push (s : Pool α) (named : ℕ) (task : α) : Pool α :=
  { s with
    queue := s.queue++[task]
    pending := s.pending+1
    workers := Thread.notifyOne named s.workers
    owner := .idle
    last := some .submitted
    submitted := s.submitted++[task] }

/-- The loop of `submit` and what follows it. -/
def trySubmit (s : Pool α) (named : ℕ) (task : α) : Pool α :=
  match s.error with
  | some message => s.throwFirst message
  | none =>
      if s.config.maxQueue ≤ s.pending ∧ s.shuttingDown = false then
        { s with owner := .submitAsleep task, last := none }
      else s.push named task

def submit (s : Pool α) (named : ℕ) (task : α) : Pool α :=
  if s.shuttingDown then { s with last := some (.threw "worker pool is shutting down") }
  else s.trySubmit named task

/-- The loop of `wait` and what follows it. -/
def tryWait (s : Pool α) : Pool α :=
  match s.error with
  | some message => s.throwFirst message
  | none =>
      if 0 < s.pending then { s with owner := .waitAsleep, last := none }
      else { s with owner := .idle, last := some .waited }

/-- `shutdown` up to its joins. -/
def shutdown (s : Pool α) : Pool α :=
  { s with
    shuttingDown := true
    workers := Thread.notifyAll s.workers
    owner := .joining
    last := none }

/-- The joins of `shutdown` have come back. -/
def join (s : Pool α) : Pool α := { s with workers := [], owner := .idle, last := some .joined }

/-- One pass of `worker_loop` up to the task. -/
def look (s : Pool α) (i : ℕ) : Pool α :=
  if s.error.isSome ∨ s.shuttingDown then { s with workers := s.workers.set i .exited }
  else match s.queue with
    | [] => { s with workers := s.workers.set i .asleep }
    | t::rest => { s with queue := rest, workers := s.workers.set i (.running t) }

/-- A task no longer counts as pending. -/
def settle (s : Pool α) (t : α) : Pool α :=
  { s with
    pending := s.pending-1
    owner := if s.pending-1 = 0 then s.owner.spaceAvailable.workDone else s.owner.spaceAvailable
    ended := s.ended++[t] }

def finish (s : Pool α) (i : ℕ) (t : α) : Pool α :=
  { s with workers := s.workers.set i .ready }.settle t

/-- The first error is stored and everyone who looks for work or space is woken. -/
def store (s : Pool α) (message : String) : Pool α :=
  if s.error.isSome then s
  else
    { s with
      error := some message
      workers := Thread.notifyAll s.workers
      owner := s.owner.spaceAvailable }

/-- `mark_failed`, and the worker leaves. -/
def markFailed (s : Pool α) (i : ℕ) (t : α) (message : String) : Pool α :=
  ({ s with workers := s.workers.set i .exited }.store message).settle t

end Pool

/-- A step of the owner or of a worker. -/
inductive Action (α : Type*) where
  | submit (named : ℕ) (task : α)
  | wait
  | shutdown
  | join
  /-- The owner looks again after it was woken. -/
  | resume (named : ℕ)
  | look (i : ℕ)
  | finish (i : ℕ)
  /-- A task throws; what is thrown need not be an exception with a text. -/
  | fail (i : ℕ) (what : Option String)
  /-- A sleeper wakes for no reason. -/
  | wakeOwner
  | wakeWorker (i : ℕ)
  deriving DecidableEq

namespace Pool

def failure (what : Option String) : String :=
  what.getD "worker task failed with a non-exception error"

/-- One step; a party that cannot take it stays as it is. -/
def step (s : Pool α) : Action α → Pool α
  | .submit named task =>
      match s.owner with
      | .idle => s.submit named task
      | _ => s
  | .wait =>
      match s.owner with
      | .idle => s.tryWait
      | _ => s
  | .shutdown =>
      match s.owner with
      | .idle => s.shutdown
      | _ => s
  | .join =>
      match s.owner with
      | .joining => if s.workers.all Thread.hasExited then s.join else s
      | _ => s
  | .resume named =>
      match s.owner with
      | .submitReady task => s.trySubmit named task
      | .waitReady => s.tryWait
      | _ => s
  | .look i =>
      match s.workers[i]? with
      | some .ready => s.look i
      | _ => s
  | .finish i =>
      match s.workers[i]? with
      | some (.running t) => s.finish i t
      | _ => s
  | .fail i what =>
      match s.workers[i]? with
      | some (.running t) => s.markFailed i t (failure what)
      | _ => s
  | .wakeOwner => { s with owner := s.owner.spaceAvailable.workDone }
  | .wakeWorker i =>
      match s.workers[i]? with
      | some .asleep => { s with workers := s.workers.set i .ready }
      | _ => s

/-- A worker that holds a task or looks for one. -/
def CanStep (s : Pool α) (i : ℕ) : Prop :=
  ∃ w, s.workers[i]? = some w ∧ w ≠ .asleep ∧ w ≠ .exited

/-- The owner sleeps in a call. -/
def Blocked (s : Pool α) : Prop := s.owner = .waitAsleep ∨ ∃ task, s.owner = .submitAsleep task

end Pool
end Model
end Atperson.Worker
