import Atperson.Journal.Resolve
import Atperson.Scheduler.Execution
import Atperson.Scheduler.Proposals

/-!
# The scheduler cycle

The spool is drained, ended conversations and expectations are written down, the newest contexts
are decided on and proposed, and what is approved of the queue is executed. Beside the run stands a
log of every record put: for which action, against which published texts, under which breaker, and
whether this process held the outbound lock.
-/
namespace Atperson.Scheduler
open Wire Journal Outbound Control
open Intent (IntentConfig IntentSweepReport sweepIntents)
open Atperson.Core (ActionDecision Graph)

structure SchedulerConfig where
  enabled : Bool := false
  maxContexts : ℕ := 4
  maxProposals : ℕ := 1
  maxExecutions : ℕ := 1
  maxCycleMs : ℤ := 0
  drivesEnabled : Bool := false
  intents : IntentConfig
  graduatedLikes : Bool := false
  guard : TextGuardConfig := {}
  breaker : BreakerConfig
  engagement : EngagementMode := .invited
  maxPendingProposals : ℕ := 50

namespace SchedulerConfig

def proposing (config : SchedulerConfig) : ProposalSettings where
  maxProposals := config.maxProposals
  maxPendingProposals := config.maxPendingProposals
  graduatedLikes := config.graduatedLikes
  intentsEnabled := config.intents.enabled
  engagement := config.engagement
  guard := config.guard

def executing (config : SchedulerConfig) : ExecutionSettings where
  maxExecutions := config.maxExecutions
  maxCycleMs := config.maxCycleMs
  intents := config.intents
  engagement := config.engagement
  guard := config.guard
  breaker := config.breaker

end SchedulerConfig

/-- What a cycle reads and does not write. Who is invited is read from the journal. -/
structure CycleView extends ExecutionView where
  items : List Ledger.Item
  graph : Graph
  /-- `action_decide`, which throws where the planner refuses. -/
  decide : Bytes → Except String ActionDecision

/-- One record put. -/
structure CyclePut where
  action : OutboundAction
  recent : List RecentText
  breaker : BreakerState
  locked : Bool

def isPut : NetCall → Bool
  | .put .. => true
  | _ => false

/-- The puts among the calls that a step added, each of them this one. -/
def putsSince (before after : NetWorld) (put : CyclePut) : List CyclePut :=
  ((after.calls.drop before.calls.length).filter isPut).map fun _ => put

/-! ## The drain -/

section Drain
variable (view : ExecutionView)

/-- A replay does not stage what is staged. -/
def replayView : ExecutionView := {view with spoolRoot := false}

/-- `parse_outbound_action` on what an entry holds. -/
def replayAction (entry : SpoolEntry) : Except Bytes OutboundAction :=
  match view.documents.parse entry.actionJson with
  | none => .error (utf8 "spool: not valid JSON")
  | some root => (parseOutboundAction root "spool").mapError utf8

def Executing.withSpool (s : Executing) (change : Spool → Spool) : Executing :=
  {s with net := {s.net with spool := change s.net.spool}}

/-- One turn of the loop of `spool_drain`, with its report. -/
def replayOne (s : Executing) (report : SpoolDrainReport) (entry : SpoolEntry) :
    Executed×SpoolDrainReport :=
  match replayAction view entry with
  | .error e => (.thrown s e,report)
  | .ok action => match attemptAction (replayView view) s action with
      | (.error e,s) => (.thrown s e,report)
      | (.ok result,s) =>
          let s := s.attempted action result
          match result.outcome with
          | .executed => (.next (s.withSpool fun spool => spoolRemove spool entry),
              {report with published := report.published+1})
          | .denied => (.next (s.withSpool fun spool => spoolDeny spool entry),
              {report with denied := report.denied+1})
          | .dryRun | .deferred => (.next s,{report with deferred := report.deferred+1})
          | .failed => (.done s,{report with
              failed := report.failed+1
              transportFailed := true
              failureDetail := text result.detail})

/-- The puts of one turn of the drain, which takes no lock. -/
def replayPuts (s s' : Executing) (entry : SpoolEntry) : List CyclePut :=
  match replayAction view entry with
  | .error _ => []
  | .ok action => putsSince s.net s'.net ⟨action,executedTexts s.journal,s.breaker,false⟩

/-- A drain that came to its end, or threw. -/
structure Drained where
  state : Executing
  thrown : Option Bytes := none
  report : SpoolDrainReport := {}
  puts : List CyclePut := []

/-- The loop of `spool_drain`. -/
def drainFrom : Executing → SpoolDrainReport → List SpoolEntry → Drained
  | s, report, [] => {state := s,report}
  | s, report, entry::rest => match replayOne view s report entry with
      | (.next s',report') =>
          let drained := drainFrom s' report' rest
          {drained with puts := replayPuts view s s' entry++drained.puts}
      | (.done s',report') => {state := s',report := report',puts := replayPuts view s s' entry}
      | (.thrown s' e,report') =>
          {state := s',thrown := some e,report := report',puts := replayPuts view s s' entry}

/-- The drain of a cycle, when a spool is set and the host is online. -/
def drainSpool (s : Executing) : Drained :=
  if view.spoolRoot ∧ ¬view.control.offlineMode then
    match spoolPending s.net.spool with
    | .error e => {state := s,thrown := some (utf8 e)}
    | .ok entries => drainFrom view s {} entries
  else {state := s}

end Drain

/-! ## The pass over the queue, with its puts -/

section Executing
variable (settings : ExecutionSettings) (view : ExecutionView)

/-- The puts of one turn, under the outbound lock. -/
def executePuts (s s' : Executing) (file : ProposalFile) : List CyclePut :=
  match file.document with
  | .error _ => []
  | .ok action =>
      putsSince s.net s'.net ⟨action,(loadTexts s action).texts.getD [],s.breaker,true⟩

def executeLog (gate : BreakerGate) : Executing → List ProposalFile → List CyclePut
  | _, [] => []
  | s, file::rest => match executeOne settings view gate s file with
      | .next s' => executePuts s s' file++executeLog gate s' rest
      | .done s' => executePuts s s' file
      | .thrown s' _ => executePuts s s' file

/-- The puts of an execution pass. -/
def executionPuts (desk : ExecutionDesk) : List CyclePut :=
  let gate := breakerGate desk.savedBreaker view.now
  if 0 < settings.maxExecutions ∧ gate ≠ .opened then
    executeLog settings view gate desk.begin (inOrder desk.queue)
  else []

end Executing

/-! ## The cycle -/

structure CycleReport where
  drained : SpoolDrainReport := {}
  swept : Option IntentSweepReport := none
  resolved : Option ResolutionReport := none
  contextsExamined : ℕ := 0
  proposed : Option ProposalReport := none
  breakerGate : Option BreakerGate := none
  executed : Option ExecutionReport := none

/-- A cycle on its way, with what it attempted and put. -/
structure Cycling where
  desk : ExecutionDesk
  report : CycleReport := {}
  attempts : List (OutboundAction×OutboundExecutionResult) := []
  puts : List CyclePut := []

section Cycle
variable (config : SchedulerConfig) (view : CycleView)

def stamp : Bytes := rfc3339FromUnix view.now

/-- `sweep_intents`, when intents are on. -/
def sweepStage (c : Cycling) : Cycling :=
  if config.intents.enabled then
    let sweep := sweepIntents c.desk.journal.intents view.now (stamp view)
    {c with
      desk := {c.desk with journal := {c.desk.journal with
        intents := c.desk.journal.intents++sweep.lines}}
      report := {c.report with swept := some sweep.report}}
  else c

/-- `resolve_expectations`. -/
def resolveStage (c : Cycling) : Cycling :=
  let resolution := resolveExpectations c.desk.journal view.now (stamp view)
  {c with
    desk := {c.desk with journal := {c.desk.journal with
      resolutions := c.desk.journal.resolutions++resolution.lines}}
    report := {c.report with resolved := some resolution.report}}

/-- The contexts in the order they are decided on. -/
def orderedContexts (journal : JournalContents) (contexts : List ContextCandidate) :
    List ContextCandidate :=
  if config.drivesEnabled then
    (orderCandidates (computeDriveSignals view.unicode view.graph contexts journal view.now)).filterMap
      fun i => contexts[i]?
  else contexts

/-- The view of the execution pass, with who is invited by a journal. -/
def CycleView.execution (journal : JournalContents) : ExecutionView :=
  {view.toExecutionView with invited := invitedAuthors journal}

/-- What the proposals are decided against. -/
def CycleView.proposing (desk : ExecutionDesk) : ProposalView where
  now := view.now
  journal := desk.journal
  invited := invitedAuthors desk.journal
  optedOut := view.optedOut
  decide := view.decide
  queued := fun digest => (desk.queue++desk.quarantine).any fun file =>
    file.name = digest++utf8 ".json"

/-- The texts published, and those queued in files that load. -/
def recentTexts (desk : ExecutionDesk) : List RecentText :=
  executedTexts desk.journal++desk.queue.filterMap fun file =>
    match file.document with
    | .ok action => if action.text ≠ [] then some ⟨action.text,view.now⟩ else none
    | .error _ => none

/-- The file of a proposal, and what loading it will give. -/
def proposalFile (action : OutboundAction) : ProposalFile where
  name := action.digest++utf8 ".json"
  document := match view.documents.parse
      (view.documents.print (serialiseOutboundAction action)) with
    | none => .error "not valid JSON"
    | some root => parseOutboundAction root (text (action.digest++utf8 ".json"))

/-- The decisions and the proposals they leave; with what is thrown. -/
def proposeStage (c : Cycling) : Cycling×Option Bytes :=
  match selectCandidates view.items config.maxContexts with
  | .error _ => (c,some (utf8 "query ledger payload"))
  | .ok contexts =>
      let proposed := proposeFrom config.proposing (view.proposing c.desk)
        ⟨[],c.desk.queue.length,recentTexts view c.desk,{}⟩
        (orderedContexts config view c.desk.journal contexts)
      ({c with
        desk := {c.desk with queue := c.desk.queue++proposed.1.written.map (proposalFile view)}
        report := {c.report with
          contextsExamined := contexts.length
          proposed := some proposed.1.report}},proposed.2.map utf8)

/-- The execution pass. -/
def executeStage (c : Cycling) : Cycling×Option Bytes :=
  let view := view.execution c.desk.journal
  let done := executionPass config.executing view c.desk
  ({c with
    desk := done.1.toExecutionDesk
    report := {c.report with
      breakerGate := some (breakerGate c.desk.savedBreaker view.now)
      executed := some done.1.report}
    attempts := c.attempts++done.1.attempts
    puts := c.puts++executionPuts config.executing view c.desk},done.2)

/-- A cycle from the sweep on. -/
def cycleStages (c : Cycling) : Cycling×Option Bytes :=
  let proposed := proposeStage config view (resolveStage view (sweepStage config view c))
  match proposed.2 with
  | some e => (proposed.1,some e)
  | none => executeStage config view proposed.1

/-- A cycle after its drain. -/
def Drained.cycle (drained : Drained) : Cycling where
  desk := drained.state.toExecutionDesk
  report := {drained := drained.report}
  attempts := drained.state.attempts
  puts := drained.puts

/-- `run_scheduler_cycle`, with what it throws. -/
def runSchedulerCycle (desk : ExecutionDesk) : Cycling×Option Bytes :=
  if ¬config.enabled then ({desk},none)
  else
    let drained := drainSpool view.toExecutionView {desk with breaker := desk.savedBreaker}
    match drained.thrown with
    | some e => (drained.cycle,some e)
    | none => cycleStages config view drained.cycle

end Cycle

end Atperson.Scheduler
