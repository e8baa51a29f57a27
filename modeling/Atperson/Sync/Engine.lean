import Atperson.Wire.Timestamp
import Atperson.Ledger.Numbered
import Atperson.Core.Replay

/-!
# The sync engine

An observation goes through the ledger before the graph: it is reserved as pending, learned,
given its outcome and mirrored. A traversal takes one page of observations after another and
moves its cursor when it returns.

What a call meets from outside is part of its input: the failure of each durable step and of
the linker, and the answer of each page request.
-/
namespace Atperson.Sync
open Wire
open Atperson.Core (Graph Utf8proc IndexEnv Provenance observeWithMemory textOf)
open Ledger (Status Outcome LedgerEntry Session CommitFault PayloadArg ContextArg AppendArgs
  LookupResult)

/-- An exception. Only a retryable one is retried. -/
inductive Thrown where
  | retryable
  | failed (operation : String) (status : Status)
  | runtime (what : String)
  deriving DecidableEq

inductive PolicyReason where
  | eligible | repost | reply | quote | selfAuthored | viewerBlocked | viewerBlockedBy
  | viewerMuted | emptyText | unsupportedRecord | nonTextOnly | moderationFiltered
  deriving DecidableEq

/-- `policy_reason_is_eligible`. -/
def PolicyReason.isEligible : PolicyReason → Bool
  | eligible | repost | reply | quote => true
  | _ => false

/-- The context of an observation as the runtime holds it. -/
structure ConversationContext where
  replyRootUri : Bytes
  replyParentUri : Bytes
  quoteUri : Bytes
  deriving DecidableEq

structure SyncObservation where
  text : Bytes
  sourceUri : Bytes
  authorDid : Bytes
  createdAt : Bytes
  policyReason : PolicyReason
  context : ConversationContext
  deriving DecidableEq

namespace SyncObservation

def trainable (o : SyncObservation) : Bool := o.text ≠ []

def policySkipped (o : SyncObservation) : Bool := !o.policyReason.isEligible

/-- The outcome an observation is committed with. -/
def outcome (o : SyncObservation) : Outcome :=
  if o.trainable && !o.policySkipped then .learned else .skipped

def digest (o : SyncObservation) : UInt64 := Ledger.digest o.text

def observedAt (o : SyncObservation) : UInt64 := (parseRfc3339Epoch o.createdAt).getD 0

end SyncObservation

/-- `copy_uri`. -/
def copyUri (uri : Bytes) : Option (CText Ledger.contextUriBytes) :=
  if h : uri.length < Ledger.contextUriBytes then some (CText.ofRaw uri h) else none

/-- `to_c_conversation_context`. -/
def ConversationContext.toC (c : ConversationContext) :
    Except Thrown Ledger.ConversationContext :=
  match copyUri c.replyRootUri,copyUri c.replyParentUri,copyUri c.quoteUri with
  | some replyRootUri,some replyParentUri,some quoteUri =>
      .ok ⟨replyRootUri,replyParentUri,quoteUri⟩
  | _,_,_ => .error (.runtime "conversation context URI too long")

/-! ## One observation -/

/-- What a host learns into. `linked` lists the observations the linker has handled. -/
structure Learner where
  graph : Graph
  session : Session
  linked : List SyncObservation

/-- What one observation meets on its way. -/
structure ItemEnv where
  append : Option CommitFault
  index : IndexEnv
  outcome : Option CommitFault
  link : Option Thrown

def ItemEnv.calm : ItemEnv := ⟨none,.calm,none,none⟩

namespace SyncObservation

/-- The arguments of the reservation. -/
def appendArgs (o : SyncObservation) (context : Ledger.ConversationContext) : AppendArgs where
  sourceId := some (CString.ofRaw o.sourceUri)
  authorDid := some (CString.ofRaw o.authorDid)
  observedAt := o.observedAt
  contentDigest := o.digest
  schemaVersion := Ledger.schemaVersion
  outcome := Outcome.pending.toByte
  payload := .bytes o.text
  context := some ⟨context.replyRootUri.toCString,context.replyParentUri.toCString,
    context.quoteUri.toCString⟩

/-- The entry that is mirrored. -/
def entry (o : SyncObservation) (id : UInt64) : LedgerEntry where
  id
  observedAt := o.observedAt
  contentDigest := o.digest
  schemaVersion := Ledger.schemaVersion
  outcome := o.outcome
  sourceId := CText.truncate (CString.ofRaw o.sourceUri)
  authorDid := CText.truncate (CString.ofRaw o.authorDid)

def provenance (o : SyncObservation) (id : UInt64) : Provenance :=
  ⟨CString.ofRaw o.sourceUri,CString.ofRaw o.authorDid,o.observedAt,o.digest,
    Ledger.schemaVersion,id⟩

end SyncObservation

/-- `Ledger::append`: the session, and the result with the id, unless it throws. -/
def ledgerAppend (fault : Option CommitFault) (s : Session) (a : AppendArgs) :
    Session×Except Thrown (LookupResult×UInt64) :=
  match Ledger.append fault s a with
  | (s,⟨.notFound,_,.ok⟩) => (s,.error (.runtime "ledger lookup returned an impossible result"))
  | (s,⟨result,id,.ok⟩) => (s,.ok (result,id))
  | (s,⟨_,_,status⟩) => (s,.error (.failed "append ledger entry" status))

section Process
variable (U : Utf8proc) (env : ItemEnv)

/-- `LanguageGraph::remember`, for an observation that may be trained on. -/
def rememberObservation (g : Graph) (o : SyncObservation) (id : UInt64) :
    Graph×Except Thrown Unit :=
  if o.outcome = .learned then
    match observeWithMemory U env.index g (textOf o.text) (o.provenance id) with
    | (g,.ok,_) => (g,.ok ())
    | (g,status,_) => (g,.error (.failed "remember observation" status))
  else (g,.ok ())

/-- What `process_observation` does with an id that is not committed. -/
def commitObservation (w : Learner) (o : SyncObservation) (context : Ledger.ConversationContext)
    (id : UInt64) : Learner×Except Thrown Bool :=
  match rememberObservation U env w.graph o id with
  | (g,.error e) => ({w with graph := g},.error e)
  | (g,.ok ()) =>
      match Ledger.setOutcome env.outcome w.session id o.outcome.toByte with
      | (s,.ok) =>
          match g.addLedgerEntry (o.entry id) context with
          | (g,.ok) => ({w with graph := g,session := s},.ok true)
          | (g,status) =>
              ({w with graph := g,session := s},.error (.failed "record ledger entry" status))
      | (s,status) =>
          ({w with graph := g,session := s},.error (.failed "set ledger outcome" status))

/-- `process_observation`: whether the observation was new. -/
def processObservation (w : Learner) (o : SyncObservation) : Learner×Except Thrown Bool :=
  match o.context.toC with
  | .error e => (w,.error e)
  | .ok context =>
      match ledgerAppend env.append w.session (o.appendArgs context) with
      | (s,.error e) => ({w with session := s},.error e)
      | (s,.ok (.existsCommitted,_)) => ({w with session := s},.ok false)
      | (s,.ok (_,id)) => commitObservation U env {w with session := s} o context id

end Process

/-! ## A page -/

structure SyncResult where
  pagesCompleted : ℕ
  observationsSeen : ℕ
  learned : ℕ
  skipped : ℕ
  duplicates : ℕ
  exhausted : Bool
  deriving DecidableEq

namespace SyncResult

def empty : SyncResult := ⟨0,0,0,0,0,false⟩

/-- An observation that was new. -/
def countNew (r : SyncResult) (o : SyncObservation) : SyncResult :=
  if o.trainable && !o.policySkipped then {r with learned := r.learned+1}
  else {r with skipped := r.skipped+1}

end SyncResult

structure Progress where
  learner : Learner
  result : SyncResult

/-- The linker is called for a new observation, if there is one. -/
def callLinker (linker : Bool) (env : ItemEnv) (w : Learner) (o : SyncObservation) :
    Learner×Except Thrown Unit :=
  if linker then
    match env.link with
    | some e => (w,.error e)
    | none => ({w with linked := w.linked++[o]},.ok ())
  else (w,.ok ())

section Run
variable (U : Utf8proc) (linker : Bool)

/-- One round of the loop over a page. -/
def syncItem (env : ItemEnv) (p : Progress) (o : SyncObservation) : Progress×Except Thrown Unit :=
  let r := {p.result with observationsSeen := p.result.observationsSeen+1}
  match processObservation U env p.learner o with
  | (w,.error e) => (⟨w,r⟩,.error e)
  | (w,.ok false) => (⟨w,{r with duplicates := r.duplicates+1}⟩,.ok ())
  | (w,.ok true) =>
      match callLinker linker env w o with
      | (w,.error e) => (⟨w,r⟩,.error e)
      | (w,.ok ()) => (⟨w,r.countNew o⟩,.ok ())

/-- The loop over a page. Each observation meets what its number in the run says. -/
def syncItems (env : ℕ → ItemEnv) : Progress → List SyncObservation → Progress×Except Thrown Unit
  | p, [] => (p,.ok ())
  | p, o::rest =>
      match syncItem U linker (env p.result.observationsSeen) p o with
      | (p,.error e) => (p,.error e)
      | (p,.ok ()) => syncItems env p rest

/-! ## A traversal -/

structure SyncPage where
  items : List SyncObservation
  nextCursor : Option Bytes
  deriving DecidableEq

structure SyncLimits where
  pageSize : ℤ
  maxPages : ℤ
  maxObservations : ℕ
  deriving DecidableEq

/-- What one run meets: the answer to each page request by its number, and what each
observation meets. -/
structure SyncEnv where
  fetch : ℕ → Option Bytes → Except Thrown SyncPage
  item : ℕ → ItemEnv

structure CatchupCursor where
  active : Bool
  cursor : Option Bytes
  protocolRepo : Option Bytes
  protocolRevision : Option Bytes
  deriving DecidableEq

structure IngestionCheckpoint where
  pagesCompleted : ℕ
  observationsSeen : ℕ
  deriving DecidableEq

structure IngestionState where
  catchup : CatchupCursor
  checkpoint : IngestionCheckpoint
  deriving DecidableEq

/-- A traversal that is not a continuation counts from zero. -/
def IngestionState.begin (s : IngestionState) : IngestionState :=
  if s.catchup.active then s else {s with checkpoint := ⟨0,0⟩}

/-- Where the traversal starts. -/
def IngestionState.start (s : IngestionState) : Option Bytes :=
  if s.catchup.active then s.catchup.cursor else none

/-- The page loop, with the pages still allowed, the number of the next request and its
cursor. It returns the cursor to continue from. -/
def syncPages (limits : SyncLimits) (env : SyncEnv) :
    ℕ → ℕ → Option Bytes → Progress → Progress×Except Thrown (Option Bytes)
  | 0, _, cursor, p => (p,.ok cursor)
  | pages+1, k, cursor, p =>
      match env.fetch k cursor with
      | .error e => (p,.error e)
      | .ok page =>
          match syncItems U linker env.item p page.items with
          | (p,.error e) => (p,.error e)
          | (p,.ok ()) =>
              let r := {p.result with pagesCompleted := p.result.pagesCompleted+1}
              match page.nextCursor with
              | none => (⟨p.learner,{r with exhausted := true}⟩,.ok cursor)
              | some next =>
                  if limits.maxObservations ≤ r.observationsSeen ∧ 0 < limits.maxObservations then
                    (⟨p.learner,r⟩,.ok (some next))
                  else syncPages limits env pages (k+1) (some next) ⟨p.learner,r⟩

/-- The checkpoint of a run that returns. -/
def IngestionState.checkpointed (s : IngestionState) (r : SyncResult) (cursor : Option Bytes) :
    IngestionState where
  catchup := {s.catchup with
    active := !r.exhausted
    cursor := if r.exhausted then none else cursor}
  checkpoint := ⟨s.checkpoint.pagesCompleted+r.pagesCompleted,
    s.checkpoint.observationsSeen+r.observationsSeen⟩

structure SyncReply where
  learner : Learner
  state : IngestionState
  outcome : Except Thrown SyncResult

/-- `run_sync`. -/
def runSync (env : SyncEnv) (w : Learner) (state : IngestionState) (limits : SyncLimits) :
    SyncReply :=
  if limits.pageSize ≤ 0 ∨ limits.maxPages ≤ 0 then
    ⟨w,state,.error (.runtime "sync limits must be positive")⟩
  else
    match syncPages U linker limits env limits.maxPages.toNat 0 state.start ⟨w,.empty⟩ with
    | (p,.error e) => ⟨p.learner,state.begin,.error e⟩
    | (p,.ok cursor) => ⟨p.learner,state.begin.checkpointed p.result cursor,.ok p.result⟩

end Run

end Atperson.Sync
