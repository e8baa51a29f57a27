import Atperson.Control.Envelope
import Atperson.Intent.Conversations
import Atperson.Outbound.Attempt
import Atperson.Scheduler.Breaker
import Atperson.Scheduler.Engagement
import Atperson.Scheduler.TextGuard

/-!
# The execution pass

The queued proposals are taken in the order of their file names. What the guards let through and a
digest or an envelope authorizes is attempted, until the bound on attempts is reached, the breaker
trips, or something throws. What only an operator changes stays as it is through a pass; files are
written without failing, and the outbound lock is free.
-/
namespace Atperson.Scheduler
open Wire Journal Outbound Control
open Intent (IntentConfig IntentMutation recordPendingIntent)
open Envelope (EnvelopeDir EnvelopeEvidence Casts findCoveringEnvelope)

/-- A regular `.json` file of the proposals directory, and what loading it gives. -/
structure ProposalFile where
  name : Bytes
  document : Except String OutboundAction

/-- The stem of a file name. -/
def ProposalFile.stem (file : ProposalFile) : Bytes := file.name.take (file.name.length-5)

structure ExecutionSettings where
  maxExecutions : ℕ
  maxCycleMs : ℤ
  intents : IntentConfig
  engagement : EngagementMode
  guard : TextGuardConfig
  breaker : BreakerConfig

/-- What a pass reads and does not write. -/
structure ExecutionView where
  now : ℤ
  /-- The clock of the cycle, when one is set: what it shows before each proposal. -/
  steadyMs : Option (ℕ → ℤ)
  control : ControlState
  policy : OutboundPolicy
  envelopes : Option EnvelopeDir
  casts : Casts
  invited : List Bytes
  optedOut : List Bytes
  spoolRoot : Bool
  transport : Transport
  documents : DocumentText
  unicode : Core.Utf8proc

structure ExecutionReport where
  textRefused : ℕ := 0
  engagementRefused : ℕ := 0
  executed : ℕ := 0
  refused : ℕ := 0
  failed : ℕ := 0
  quarantined : ℕ := 0
  breakerTrips : ℕ := 0
  intentsOpened : ℕ := 0
  intentsContinued : ℕ := 0
  intentsCapReached : ℕ := 0
  deriving DecidableEq

/-- The files that passes write, and the world outside. -/
structure ExecutionDesk where
  queue : List ProposalFile
  quarantine : List ProposalFile := []
  budget : OutboundBudgetState
  journal : JournalContents
  net : NetWorld := {}
  audit : List OutboundAuditEntry := []
  savedBreaker : BreakerState

/-- A pass on its way, with the attempts that came to an end. -/
structure Executing extends ExecutionDesk where
  texts : Option (List RecentText) := none
  breaker : BreakerState
  dirty : Bool := false
  attempts : List (OutboundAction×OutboundExecutionResult) := []
  looks : ℕ := 0
  report : ExecutionReport := {}

/-- The texts of the executed actions. -/
def executedTexts (journal : JournalContents) : List RecentText :=
  (journal.actions.filter fun action => action.outcome = .executed ∧ action.text ≠ []).map
    fun action => ⟨action.text,((parseRfc3339Epoch action.time).getD 0).toInt64.toInt⟩

def isTextKind (kind : OutboundActionKind) : Bool := kind = .post || kind = .reply

def retainProposals (state : BreakerState) (digests : List Bytes) : BreakerState :=
  {state with proposalFailures := state.proposalFailures.filter fun entry => digests.contains entry.1}

def Executing.forgetFile (s : Executing) (name : Bytes) : Executing :=
  {s with queue := s.queue.filter fun file => file.name ≠ name}

def Executing.attempted (s : Executing) (action : OutboundAction)
    (result : OutboundExecutionResult) : Executing :=
  {s with attempts := s.attempts++[(action,result)]}

section Pass
variable (settings : ExecutionSettings) (view : ExecutionView)

/-! ## Guards and authority -/

def textAllowed (recent : List RecentText) (action : OutboundAction) : Bool :=
  !isTextKind action.kind || (checkOutputText action.text settings.guard recent view.now).allowed

def engagementAllowed (action : OutboundAction) : Bool :=
  checkEngagement action.kind (actionTargetDid action) settings.engagement view.invited
    view.optedOut = .none

/-- The first envelope that covers, in the directory that is set. -/
def coverageOf (budget : OutboundBudgetState) (action : OutboundAction) :
    Except String (Option Envelope.EnvelopeCoverage) :=
  match view.envelopes with
  | none => .ok none
  | some dir => (findCoveringEnvelope view.casts dir view.policy action.kind action.text
      ⟨action.planScore,action.supportScore⟩ (pruneOutboundBudgetState budget view.policy view.now)
      view.now).map some

/-- The check ahead of the attempt. -/
def authorizable (budget : OutboundBudgetState) (action : OutboundAction) : Except String Bool :=
  if isDigestApproved view.control action.digest then .ok true
  else (coverageOf view budget action).map fun found => found.any (·.covered)

/-! ## One attempt -/

def attemptGate (coverage : Envelope.EnvelopeCoverage) : Outbound.EnvelopeCoverage :=
  ⟨coverage.covered,coverage.envelopeId,utf8 coverage.reason⟩

/-- The attempt of an action on the files as they are. -/
def attemptOf (budget : OutboundBudgetState) (coverage : Option Envelope.EnvelopeCoverage)
    (action : OutboundAction) : Attempt where
  action := action
  now := view.now
  control := view.control
  policy := view.policy
  budget := budget
  envelope := coverage.map attemptGate
  spoolRoot := view.spoolRoot
  attest := none
  mac := none
  externalPublishingAllowed := true
  transport := view.transport
  documents := view.documents
  unicode := view.unicode

/-- What the attempt leaves in the files. -/
def Executing.settle (s : Executing) (trail : Trail) : Executing :=
  {s with
    net := trail.net
    budget := trail.savedBudget.getD s.budget
    audit := s.audit++trail.audit
    journal := {s.journal with actions := s.journal.actions++trail.journal}}

/-- `attempt_outbound_action`, from the loading of the gates on. -/
def attemptAction (s : Executing) (action : OutboundAction) :
    Except Bytes OutboundExecutionResult×Executing :=
  match coverageOf view s.budget action with
  | .error message => (.error (utf8 message),s)
  | .ok coverage =>
      let done := (attemptOf view s.budget coverage action).run {net := s.net}
      (done.1,s.settle done.2)

/-! ## After an attempt -/

def countIntent (report : ExecutionReport) : IntentMutation → ExecutionReport
  | .opened => {report with intentsOpened := report.intentsOpened+1}
  | .continued => {report with intentsContinued := report.intentsContinued+1}
  | .capReached => {report with intentsCapReached := report.intentsCapReached+1}
  | .duplicate | .notTracked => report

/-- The conversation of an executed action. -/
def recordIntent (s : Executing) (action : OutboundAction) (result : OutboundExecutionResult) :
    Executing :=
  if settings.intents.enabled then
    let recorded := recordPendingIntent settings.intents s.journal.intents action result view.now
      (rfc3339FromUnix view.now)
    {s with
      journal := {s.journal with intents := s.journal.intents++recorded.2.toList}
      report := countIntent s.report recorded.1}
  else s

def noteExecuted (s : Executing) (name : Bytes) (action : OutboundAction)
    (result : OutboundExecutionResult) : Executing :=
  let s := {s with
    report := {s.report with executed := s.report.executed+1}
    texts := s.texts.map fun texts =>
      if action.text ≠ [] then texts++[RecentText.mk action.text view.now] else texts}
  let s := (recordIntent settings view s action result).forgetFile name
  {s with breaker := recordSuccess s.breaker action.digest,dirty := true}

def failureDetail (result : OutboundExecutionResult) : Bytes :=
  result.reasonCode++if result.detail = [] then [] else utf8 ": "++result.detail

/-- How the loop goes on from a proposal. -/
inductive Executed where
  | next (s : Executing)
  | done (s : Executing)
  | thrown (s : Executing) (message : Bytes)

/-- A failure is counted; its proposal may be set aside, and the breaker may trip. -/
def noteFailed (s : Executing) (file : ProposalFile) (action : OutboundAction)
    (result : OutboundExecutionResult) : Executed :=
  let s := {s with report := {s.report with failed := s.report.failed+1}}
  match recordFailure s.breaker settings.breaker action.digest (failureDetail result) view.now with
  -- A cool-down that leaves 64 bits has no defined result.
  | none => .thrown s (utf8 "overflow")
  | some (breaker,effect) =>
      let s := {s with breaker,dirty := true}
      let s := if effect.quarantine then
          {s.forgetFile file.name with
            quarantine := s.quarantine++[file]
            report := {s.report with quarantined := s.report.quarantined+1}}
        else s
      if effect.tripped then
        .done {s with report := {s.report with breakerTrips := s.report.breakerTrips+1}}
      else .next s

def noteResult (s : Executing) (file : ProposalFile) (action : OutboundAction)
    (result : OutboundExecutionResult) : Executed :=
  match result.outcome with
  | .executed => .next (noteExecuted settings view s file.name action result)
  | .dryRun | .denied | .deferred =>
      .next {s with report := {s.report with refused := s.report.refused+1}}
  | .failed => noteFailed settings view s file action result

/-! ## The loop -/

/-- The published texts are read when the first text comes up. -/
def loadTexts (s : Executing) (action : OutboundAction) : Executing :=
  if isTextKind action.kind then {s with texts := some (s.texts.getD (executedTexts s.journal))}
  else s

/-- A proposal that was loaded: guards, authority, attempt. -/
def executeAction (s : Executing) (file : ProposalFile) (action : OutboundAction) : Executed :=
  let s := loadTexts s action
  if ¬textAllowed settings view (s.texts.getD []) action then
    .next {s with report := {s.report with textRefused := s.report.textRefused+1}}
  else if ¬engagementAllowed settings view action then
    .next {s with report := {s.report with engagementRefused := s.report.engagementRefused+1}}
  else match authorizable view s.budget action with
    | .error message => .thrown s (utf8 message)
    | .ok false => .next s
    | .ok true => match attemptAction view s action with
        | (.error message,s) => .thrown s message
        | (.ok result,s) => noteResult settings view (s.attempted action result) file action result

/-- The wall-clock bound, looked at before each proposal. -/
def overtime (s : Executing) : Bool :=
  0 < settings.maxCycleMs && view.steadyMs.any fun clock => settings.maxCycleMs < clock s.looks

def executeOne (gate : BreakerGate) (s : Executing) (file : ProposalFile) : Executed :=
  if settings.maxExecutions ≤ s.attempts.length then .done s
  else if gate = .halfOpen ∧ 1 ≤ s.attempts.length then .done s
  else if overtime settings view s then .done s
  else
    let s := {s with looks := s.looks+1}
    match file.document with
    | .error message => .thrown s (utf8 message)
    | .ok action => executeAction settings view s file action

def executeFrom (gate : BreakerGate) : Executing → List ProposalFile → Executing×Option Bytes
  | s, [] => (s,none)
  | s, file::rest => match executeOne settings view gate s file with
      | .next s => executeFrom gate s rest
      | .done s => (s,none)
      | .thrown s message => (s,some message)

/-- The files in the order of their paths. -/
def inOrder (queue : List ProposalFile) : List ProposalFile :=
  queue.mergeSort fun a b => decide (a.name ≤ b.name)

/-- What a pass begins with: the breaker as it is saved, less the proposals that are gone. -/
def ExecutionDesk.begin (desk : ExecutionDesk) : Executing :=
  {desk with breaker := retainProposals desk.savedBreaker (desk.queue.map ProposalFile.stem)}

/-- The breaker is saved at the end, which an exception does not reach. -/
def saveBreaker (done : Executing×Option Bytes) : Executing :=
  if done.2 = none ∧ done.1.dirty then {done.1 with savedBreaker := done.1.breaker} else done.1

/-- The pass, with what it throws. -/
def executionPass (desk : ExecutionDesk) : Executing×Option Bytes :=
  let gate := breakerGate desk.savedBreaker view.now
  if 0 < settings.maxExecutions ∧ gate ≠ .opened then
    let done := executeFrom settings view gate desk.begin (inOrder desk.queue)
    (saveBreaker done,done.2)
  else ({desk with breaker := desk.savedBreaker},none)

end Pass

end Atperson.Scheduler
