import Atperson.Outbound.Execute
import Atperson.Outbound.Expectation
import Atperson.Wire.Timestamp

/-!
# One outbound attempt

The gates as loaded for the attempt, execution, and the bookkeeping after it. With a spool
configured the writer factory is called to build the staging writer, before any gate.
-/
namespace Atperson.Outbound
open Wire Control Journal

inductive OutboundAuditOutcome where
  | executed | dryRun | denied | deferred | failed
  deriving DecidableEq

def auditOutcome : OutboundExecutionOutcome → OutboundAuditOutcome
  | .executed => .executed
  | .dryRun => .dryRun
  | .denied => .denied
  | .deferred => .deferred
  | .failed => .failed

def journalActionOutcome : OutboundExecutionOutcome → JournalActionOutcome
  | .executed => .executed
  | .dryRun => .dryRun
  | .denied => .denied
  | .deferred => .deferred
  | .failed => .failed

structure OutboundAuditEntry where
  time : Bytes
  kind : Bytes
  rkey : Bytes
  digest : Bytes
  outcome : OutboundAuditOutcome
  reason : Bytes
  detail : Bytes
  uri : Bytes
  cid : Bytes
  envelopeId : Bytes
  attestationCid : Bytes
  attestationSignature : Bytes
  attestationPublicKey : Bytes
  attestationKeyId : Bytes
  attestationAlgorithm : Bytes
  deriving DecidableEq

/-- Printing and parsing of the JSON text of a document. -/
structure DocumentText where
  print : Json Double → Bytes
  parse : Bytes → Option (Json Double)

/-- The check `spool_append` makes of a document. -/
def DocumentText.parses (T : DocumentText) (doc : Bytes) : Except String Unit :=
  match T.parse doc with
  | none => .error "spool: not valid JSON"
  | some root => (parseOutboundAction root "spool").map fun _ => ()

/-- What one attempt is given: the files as loaded, the options and the environment. -/
structure Attempt where
  action : OutboundAction
  now : ℤ
  control : ControlState
  policy : OutboundPolicy
  budget : OutboundBudgetState
  /-- The gate over the envelope directory, when one is set. -/
  envelope : Option EnvelopeCoverage
  spoolRoot : Bool
  attest : Option AttestationFactory
  mac : Option (OutboundAction → Option JournalMac)
  externalPublishingAllowed : Bool
  transport : Transport
  documents : DocumentText
  unicode : Core.Utf8proc

/-- What an attempt leaves. -/
structure Trail where
  net : NetWorld := {}
  savedBudget : Option OutboundBudgetState := none
  audit : List OutboundAuditEntry := []
  journal : List JournalAction := []

namespace Attempt
variable (a : Attempt)

def prunedBudget : OutboundBudgetState := pruneOutboundBudgetState a.budget a.policy a.now

def actionJson : Bytes := a.documents.print (serialiseOutboundAction a.action)

def stamp : Bytes := rfc3339FromUnix a.now

def spooledResult : OutboundExecutionResult where
  outcome := .dryRun
  reasonCode := utf8 "offline_spooled"
  detail := utf8 "offline mode: action spooled locally for a later drain"
  budget := outboundBudgetStatus a.policy a.prunedBudget a.action.kind a.now

def execute (writerFor : OutboundWriterFactory) (w : NetWorld) :
    OutboundExecutionResult × OutboundBudgetState × NetWorld :=
  executeOutboundAction a.control a.policy a.prunedBudget a.action writerFor a.now a.attest
    a.externalPublishingAllowed a.envelope w

/-- The staging writer as a factory that needs no further session. -/
def stagedFactory (writer : OutboundWriter) : OutboundWriterFactory := fun w =>
  (.ok (spoolFirstWriter a.documents.parses writer a.actionJson a.stamp),w)

/-- The decision of the lambda in the source; an error is thrown out of the attempt. -/
def decide (w : NetWorld) :
    Except Bytes (OutboundExecutionResult × OutboundBudgetState) × NetWorld :=
  if a.control.offlineMode ∧ a.spoolRoot then
    match spoolAppend a.documents.parses w.spool a.actionJson a.stamp with
    | .error e => (.error (utf8 e),w)
    | .ok (_,spool) => (.ok (a.spooledResult,a.prunedBudget),{w with spool := spool})
  else if a.spoolRoot = false then
    let done := a.execute (sessionFactory a.transport) w
    (.ok (done.1,done.2.1),done.2.2)
  else
    let session := sessionFactory a.transport w
    match session.1 with
    | .error e => (.error e,session.2)
    | .ok writer =>
        let done := a.execute (a.stagedFactory writer) session.2
        (.ok (done.1,done.2.1),done.2.2)

def auditEntry (result : OutboundExecutionResult) : OutboundAuditEntry where
  time := a.stamp
  kind := utf8 (outboundKindName a.action.kind)
  rkey := a.action.rkey
  digest := a.action.digest
  outcome := auditOutcome result.outcome
  reason := result.reasonCode
  detail := result.detail
  uri := result.written.uri
  cid := result.written.cid
  envelopeId := result.authorization.envelopeId
  attestationCid := (result.attestation.map (·.payloadCid)).getD []
  attestationSignature := (result.attestation.map (·.signatureHex)).getD []
  attestationPublicKey := (result.attestation.map (·.publicKeyDid)).getD []
  attestationKeyId := (result.attestation.map (·.keyId)).getD []
  attestationAlgorithm := (result.attestation.map (·.algorithm)).getD []

def journalEntry (result : OutboundExecutionResult) : JournalAction where
  id := a.action.rkey
  kind := utf8 (outboundKindName a.action.kind)
  text := a.action.text
  digest := a.action.digest
  outcome := journalActionOutcome result.outcome
  reason := result.reasonCode
  uri := result.written.uri
  cid := result.written.cid
  time := a.stamp
  mac := if result.outcome = .executed then a.mac.bind (· a.action) else none
  expectation := deriveActionExpectation a.unicode a.action

/-- `attempt_outbound_action`. -/
def run (before : Trail) : Except Bytes OutboundExecutionResult × Trail :=
  let decided := a.decide before.net
  match decided.1 with
  | .error e => (.error e,{before with net := decided.2})
  | .ok (result,budget) => (.ok result,{
      net := decided.2
      savedBudget :=
        if result.budgetRecorded then some {budget with savedAt := some a.now}
        else before.savedBudget
      audit := before.audit++[a.auditEntry result]
      journal := before.journal++[a.journalEntry result] })

end Attempt

end Atperson.Outbound
