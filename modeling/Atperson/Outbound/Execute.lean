import Atperson.Outbound.Action
import Atperson.Outbound.Evaluate
import Atperson.Outbound.Spool

/-!
# Outbound execution

The ordered gates and the one network write. Credentials and the network answer through
a transport, whose answers may depend on the calls made so far; every call is logged. A
writer reaches the transport directly or stages the action in the spool first.
-/
namespace Atperson.Outbound
open Wire Control

structure OutboundWriteResult where
  uri : Bytes := []
  cid : Bytes := []
  deriving DecidableEq

structure OutboundAttestation where
  payloadCid : Bytes
  signatureHex : Bytes
  publicKeyDid : Bytes
  keyId : Bytes
  algorithm : Bytes
  deriving DecidableEq

/-- A call that uses credentials or the network. -/
inductive NetCall where
  | writerFor
  | resolve (uri : Bytes)
  | attest
  | put (collection : String) (rkey : Bytes) (record : Json Double)

/-- What the writer factory and the network answer, given the calls before. An error is
what the exception says. -/
structure Transport where
  session : List NetCall → Except Bytes Unit
  resolve : List NetCall → Bytes → Except Bytes Bytes
  put : List NetCall → String → Bytes → Json Double → Except Bytes OutboundWriteResult

structure NetWorld where
  calls : List NetCall := []
  spool : Spool := {}

def NetWorld.log (w : NetWorld) (call : NetCall) : NetWorld := {w with calls := w.calls++[call]}

structure OutboundWriter where
  resolveRecordCid : Bytes → NetWorld → Except Bytes Bytes × NetWorld
  putRecord : String → Bytes → Json Double → NetWorld →
    Except Bytes OutboundWriteResult × NetWorld

abbrev OutboundWriterFactory := NetWorld → Except Bytes OutboundWriter × NetWorld

def networkWriter (t : Transport) : OutboundWriter where
  resolveRecordCid uri w := (t.resolve w.calls uri,w.log (.resolve uri))
  putRecord collection rkey record w :=
    (t.put w.calls collection rkey record,w.log (.put collection rkey record))

/-- The caller's `writer_for`. -/
def sessionFactory (t : Transport) : OutboundWriterFactory := fun w =>
  ((t.session w.calls).map fun _ => networkWriter t,w.log .writerFor)

/-- `SpoolFirstWriter`: the wrapped writer is called once the action is staged. -/
def spoolFirstWriter (parses : Bytes → Except String Unit) (wrapped : OutboundWriter)
    (actionJson now : Bytes) : OutboundWriter where
  resolveRecordCid := wrapped.resolveRecordCid
  putRecord collection rkey record w :=
    match spoolAppend parses w.spool actionJson now with
    | .error e => (.error (utf8 e),w)
    | .ok _ =>
        let put := wrapped.putRecord collection rkey record w
        match put.1 with
        | .ok result =>
            (.ok result,
              {put.2 with spool := (spoolFirstPut parses (.ok result) w.spool actionJson now).2})
        | .error e =>
            (.error e,{put.2 with
              spool := (spoolFirstPut (R := OutboundWriteResult) parses (.error (text e))
                w.spool actionJson now).2})

structure EnvelopeCoverage where
  covered : Bool := false
  envelopeId : Bytes := []
  reason : Bytes := []
  deriving DecidableEq

structure OutboundAuthorization where
  digestApproved : Bool := false
  envelopeId : Bytes := []
  deriving DecidableEq

structure OutboundExecutionResult where
  outcome : OutboundExecutionOutcome := .denied
  reasonCode : Bytes := []
  detail : Bytes := []
  written : OutboundWriteResult := {}
  attestation : Option OutboundAttestation := none
  budgetRecorded : Bool := false
  budget : OutboundBudgetStatus := {}
  authorization : OutboundAuthorization := {}
  deriving DecidableEq

def denied (outcome : OutboundExecutionOutcome) (reasonCode detail : Bytes)
    (budget : OutboundBudgetStatus) : OutboundExecutionResult where
  outcome := outcome
  reasonCode := reasonCode
  detail := detail
  budget := budget

def controlDenialCode (control : ControlState) (action : OutboundAction) : Bytes :=
  if control.writesEnabled = false then utf8 "writes_disabled"
  else if control.approvalRequired ∧ isDigestApproved control action.digest = false then
    utf8 "approval_required"
  else utf8 "control_refused"

def authorizeOutbound (control : ControlState) (action : OutboundAction)
    (envelope : Option EnvelopeCoverage) : Except Bytes OutboundAuthorization :=
  if control.writesEnabled = false then
    .error (utf8 "outbound refused: network writes are disabled")
  else if control.approvalRequired = false ∨ isDigestApproved control action.digest then
    .ok {digestApproved :=
      control.approvalRequired && isDigestApproved control action.digest}
  else match envelope with
    | some coverage =>
        if coverage.covered then .ok {envelopeId := coverage.envelopeId}
        else .error (utf8 "outbound refused: action digest is not approved and no "++
          utf8 "envelope covers it ("++coverage.reason++utf8 ")")
    | none => .error (utf8 "outbound refused: action digest is not approved")

abbrev AttestationFactory :=
  Json Double → OutboundAction → Except Bytes (Option OutboundAttestation)

/-- The CIDs a record needs: root and parent of a reply, subject of a like or repost. -/
def resolveCids (action : OutboundAction) (writer : OutboundWriter) (w : NetWorld) :
    Except Bytes (Bytes × Bytes × Bytes) × NetWorld :=
  if outboundActionIsReply action then
    let root := writer.resolveRecordCid action.replyRoot w
    match root.1 with
    | .error e => (.error e,root.2)
    | .ok rootCid =>
        let parent := writer.resolveRecordCid action.replyParent root.2
        (parent.1.map fun parentCid => (rootCid,parentCid,[]),parent.2)
  else if outboundActionIsSubjectRef action then
    let subject := writer.resolveRecordCid action.subject w
    (subject.1.map fun subjectCid => ([],[],subjectCid),subject.2)
  else (.ok ([],[],[]),w)

/-- The attestation of a record, when a factory is set. -/
def attestRecord (attest : Option AttestationFactory) (record : Json Double)
    (action : OutboundAction) (w : NetWorld) :
    Except Bytes (Option OutboundAttestation) × NetWorld :=
  match attest with
  | none => (.ok none,w)
  | some factory => (factory record action,w.log .attest)

section Write
variable (action : OutboundAction) (attest : Option AttestationFactory)
variable (authorization : OutboundAuthorization) (status : OutboundBudgetStatus)

def writeFailed (detail : Bytes) : OutboundExecutionResult :=
  denied .failed (utf8 "write_failed") detail status

/-- The record is attested and put under the frozen key. -/
def putAttested (writer : OutboundWriter) (record : Json Double) (w : NetWorld) :
    OutboundExecutionResult × NetWorld :=
  let attested := attestRecord attest record action w
  match attested.1 with
  | .error e => (denied .failed (utf8 "attestation_failed") e status,attested.2)
  | .ok attestation =>
      let put := writer.putRecord (outboundActionCollection action) action.rkey record attested.2
      match put.1 with
      | .error e => (writeFailed status e,put.2)
      | .ok written => ({
          outcome := .executed
          reasonCode := utf8 "allow"
          detail := utf8 "action written"
          written := written
          attestation := attestation
          budgetRecorded := true
          budget := status
          authorization := authorization },put.2)

/-- The network part of an execution; every exception in it is a failed write. -/
def performWrite (writerFor : OutboundWriterFactory) (w : NetWorld) :
    OutboundExecutionResult × NetWorld :=
  let session := writerFor w
  match session.1 with
  | .error e => (writeFailed status e,session.2)
  | .ok writer =>
      let cids := resolveCids action writer session.2
      match cids.1 with
      | .error e => (writeFailed status e,cids.2)
      | .ok (rootCid,parentCid,subjectCid) =>
          match buildOutboundRecordJson action rootCid parentCid subjectCid with
          | .error e => (writeFailed status (utf8 e),cids.2)
          | .ok record => putAttested action attest authorization status writer record cids.2

end Write

def executeOutboundAction (control : ControlState) (policy : OutboundPolicy)
    (budget : OutboundBudgetState) (action : OutboundAction)
    (writerFor : OutboundWriterFactory) (now : ℤ) (attest : Option AttestationFactory)
    (externalPublishingAllowed : Bool) (envelope : Option EnvelopeCoverage) (w : NetWorld) :
    OutboundExecutionResult × OutboundBudgetState × NetWorld :=
  let proposal := outboundActionProposal action
  if control.paused then
    (denied .denied (utf8 "paused")
      (utf8 "runtime is paused; no outbound action may be attempted")
      (outboundBudgetStatus policy budget action.kind now),budget,w)
  else
    let decision := evaluateOutboundPolicy policy budget proposal now
    match decision.outcome with
    | .deny => (denied .denied (utf8 (outboundReasonCode decision.reason))
        (utf8 (describeOutboundDecision decision)) decision.budget,budget,w)
    | .defer => (denied .deferred (utf8 (outboundReasonCode decision.reason))
        (utf8 (describeOutboundDecision decision)) decision.budget,budget,w)
    | .allow =>
        if control.dryRun then
          (denied .dryRun (utf8 "dry_run")
            (utf8 "policy allows this action, but dry-run mode is on") decision.budget,budget,w)
        else match authorizeOutbound control action envelope with
          | .error e =>
              (denied .denied (controlDenialCode control action) e decision.budget,budget,w)
          | .ok authorization =>
              if externalPublishingAllowed = false then
                (denied .denied (utf8 "external_publishing_disabled")
                  (utf8 ("external publishing is disabled; set "++
                    "ATPERSON_ALLOW_EXTERNAL_PUBLISHING=true")) decision.budget,budget,w)
              else
                let write := performWrite action attest authorization decision.budget writerFor w
                if write.1.outcome = .executed then
                  (write.1,recordOutboundAction budget proposal (budgetFor policy action.kind) now,
                    write.2)
                else (write.1,budget,write.2)

end Atperson.Outbound
