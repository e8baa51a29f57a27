import Atperson.Sync.Engine

/-!
# The daemon loop

One sync cycle after another, each behind the stop and pause hooks, with the graph saved on a
cadence and once more on a graceful exit. A retryable error is counted and the cycle tried
again; every other exception ends the loop without a save.

The waits between cycles change nothing and are left out, and with them the backoff that
chooses their lengths.
-/
namespace Atperson.Daemon
open Atperson.Core (Graph Utf8proc)
open Atperson.Sync (Thrown Learner SyncEnv SyncLimits SyncResult SyncReply IngestionState runSync)

structure DaemonConfig where
  pagesPerCycle : ℤ
  maxCycles : ℕ
  snapshotEveryCycles : ℕ

/-- `validate_daemon_config`, for the fields of the loop. -/
def DaemonConfig.invalid (c : DaemonConfig) : Option Thrown :=
  if c.pagesPerCycle ≤ 0 then some (.runtime "daemon pages_per_cycle must be positive")
  else if c.snapshotEveryCycles = 0 then
    some (.runtime "daemon snapshot_every_cycles must be positive")
  else none

structure DaemonRunReport where
  cycles : ℕ
  pagesCompleted : ℕ
  observationsSeen : ℕ
  learned : ℕ
  skipped : ℕ
  duplicates : ℕ
  transientFailures : ℕ
  snapshotsSaved : ℕ
  stopped : Bool
  exhausted : Bool
  bounded : Bool

def DaemonRunReport.empty : DaemonRunReport := ⟨0,0,0,0,0,0,0,0,false,false,false⟩

/-- The report after a cycle that returned. -/
def DaemonRunReport.count (report : DaemonRunReport) (r : SyncResult) : DaemonRunReport :=
  {report with
    cycles := report.cycles+1
    pagesCompleted := report.pagesCompleted+r.pagesCompleted
    observationsSeen := report.observationsSeen+r.observationsSeen
    learned := report.learned+r.learned
    skipped := report.skipped+r.skipped
    duplicates := report.duplicates+r.duplicates
    exhausted := r.exhausted}

/-- The loop between two rounds. `snapshot` is what `save_graph` wrote last in this run. -/
structure Daemon where
  learner : Learner
  ingestion : IngestionState
  snapshot : Option Graph
  dirty : Bool
  report : DaemonRunReport

/-- What one round meets: the answers of the hooks and the failures of the callbacks. -/
structure Turn where
  stopBefore : Bool
  ready : Bool
  sync : SyncEnv
  saveIngestion : Option Thrown
  saveGraph : Option Thrown
  onCycle : Option Thrown
  stopAfter : Bool

/-- What the exit meets. -/
structure Exit where
  stop : Bool
  saveIngestion : Option Thrown
  saveGraph : Option Thrown

inductive Control where
  | next
  | leave
  | raised (e : Thrown)

namespace Daemon

def start (w : Learner) (state : IngestionState) : Daemon := ⟨w,state,none,false,.empty⟩

/-- `persistence.save_graph` and what follows it. -/
def saveGraph (fault : Option Thrown) (d : Daemon) : Daemon×Option Thrown :=
  match fault with
  | some e => (d,some e)
  | none =>
      ({d with
          snapshot := some d.learner.graph
          dirty := false
          report := {d.report with snapshotsSaved := d.report.snapshotsSaved+1}},none)

/-- A cycle that returned is counted, and the graph is dirty if it took anything. -/
def count (d : Daemon) (r : SyncResult) : Daemon :=
  {d with
    report := d.report.count r
    dirty := d.dirty || (0 < r.learned || 0 < r.skipped)}

section Loop
variable (U : Utf8proc) (linker : Bool) (config : DaemonConfig) (limits : SyncLimits)

/-- The sync run of one round. -/
def sync (d : Daemon) (t : Turn) : SyncReply :=
  runSync U linker t.sync d.learner d.ingestion {limits with maxPages := config.pagesPerCycle}

/-- The snapshot of a cycle that returned, if it is due. -/
def snapshotDue (d : Daemon) (t : Turn) : Daemon×Option Thrown :=
  if d.dirty ∧ d.report.cycles%config.snapshotEveryCycles = 0 then d.saveGraph t.saveGraph
  else (d,none)

/-- The body of the try block, with the exception it ends with. -/
def cycle (d : Daemon) (t : Turn) : Daemon×Option Thrown :=
  let reply := d.sync U linker config limits t
  let d := {d with learner := reply.learner,ingestion := reply.state}
  match reply.outcome with
  | .error e => (d,some e)
  | .ok r =>
      match t.saveIngestion with
      | some e => (d.count r,some e)
      | none =>
          match (d.count r).snapshotDue config t with
          | (d,some e) => (d,some e)
          | (d,none) => (d,t.onCycle)

def boundReached (d : Daemon) : Prop := config.maxCycles ≠ 0 ∧ config.maxCycles ≤ d.report.cycles

instance (d : Daemon) : Decidable (d.boundReached config) := inferInstanceAs (Decidable (_ ∧ _))

def bounded (d : Daemon) : Daemon := {d with report := {d.report with bounded := true}}

/-- Whether a round gets as far as its cycle. -/
def runs (d : Daemon) (t : Turn) : Prop :=
  t.stopBefore = false ∧ ¬d.boundReached config ∧ t.ready = true

instance (d : Daemon) (t : Turn) : Decidable (d.runs config t) :=
  inferInstanceAs (Decidable (_ ∧ _))

/-- One round of the loop. -/
def turn (d : Daemon) (t : Turn) : Daemon×Control :=
  if t.stopBefore then (d,.leave)
  else if d.boundReached config then (d.bounded,.leave)
  else if ¬t.ready then (d,.next)
  else match d.cycle U linker config limits t with
    | (d,some .retryable) =>
        ({d with report := {d.report with transientFailures := d.report.transientFailures+1}},.next)
    | (d,some e) => (d,.raised e)
    | (d,none) =>
        if t.stopAfter then (d,.leave)
        else if d.boundReached config then (d.bounded,.leave)
        else (d,.next)

/-- The loop over the rounds to come. Where they end the loop is still going. -/
def loop : Daemon → List Turn → Daemon×Control
  | d, [] => (d,.next)
  | d, t::rest => match d.turn U linker config limits t with
      | (d,.next) => loop d rest
      | (d,control) => (d,control)

end Loop

/-- The graceful flush: cursor progress always, the graph if it is dirty. -/
def flush (d : Daemon) (exit : Exit) : Daemon×Option Thrown :=
  let d := {d with report := {d.report with stopped := exit.stop}}
  match exit.saveIngestion with
  | some e => (d,some e)
  | none => if d.dirty then d.saveGraph exit.saveGraph else (d,none)

end Daemon

inductive Ending where
  | running
  | raised (e : Thrown)
  | returned (report : DaemonRunReport)

/-- `run_daemon`. -/
def runDaemon (U : Utf8proc) (linker : Bool) (config : DaemonConfig) (limits : SyncLimits)
    (w : Learner) (state : IngestionState) (turns : List Turn) (exit : Exit) : Daemon×Ending :=
  match config.invalid with
  | some e => (.start w state,.raised e)
  | none =>
      match (Daemon.start w state).loop U linker config limits turns with
      | (d,.next) => (d,.running)
      | (d,.raised e) => (d,.raised e)
      | (d,.leave) =>
          match d.flush exit with
          | (d,some e) => (d,.raised e)
          | (d,none) => (d,.returned d.report)

end Atperson.Daemon
