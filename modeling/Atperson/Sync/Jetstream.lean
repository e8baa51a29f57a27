import Atperson.Sync.Engine
import Atperson.Cli.Maintenance

/-!
# The Jetstream drivers

A batch of the live stream and a window of the sealed archive take their events through one
pipeline: a deletion withdraws entries from the ledger, anything else is an observation. What
was withdrawn is taken out of the graph by a rebuild when all events of the call are done.

The evidence that is recorded on the way is left out, but for its failures.
-/
namespace Atperson.Sync
open Wire
open Atperson.Core (Utf8proc IndexEnv)
open Ledger (CommitFault)

structure JetstreamEvent where
  sourceUri : Bytes
  authorDid : Bytes
  createdAt : Bytes
  text : Bytes
  replyRoot : Bytes
  replyParent : Bytes
  quoteUri : Bytes
  policyReason : PolicyReason
  seq : ℤ
  repoRevision : Bytes
  protocolOnly : Bool
  deleted : Bool
  eventType : Bytes
  deriving DecidableEq

/-- `jetstream_to_observation`. -/
def JetstreamEvent.toObservation (e : JetstreamEvent) : SyncObservation where
  text := e.text
  sourceUri := e.sourceUri
  authorDid := e.authorDid
  createdAt := e.createdAt
  policyReason := e.policyReason
  context := ⟨e.replyRoot,e.replyParent,e.quoteUri⟩

/-- The `event_sequence` of the callback. -/
def JetstreamEvent.sequence (e : JetstreamEvent) : UInt64 :=
  if 0 < e.seq then UInt64.ofNat e.seq.toNat else 0

structure JetstreamRunResult where
  eventsConsumed : ℕ
  malformedFrames : ℕ
  observationsSeen : ℕ
  learned : ℕ
  skipped : ℕ
  duplicates : ℕ
  withdrawn : ℕ
  dropped : ℕ
  filteredSequenceJumps : ℕ
  reconciled : Bool
  protocolResyncRequired : Bool
  exhausted : Bool
  deriving DecidableEq

def JetstreamRunResult.empty : JetstreamRunResult := ⟨0,0,0,0,0,0,0,0,0,false,false,false⟩

/-- An observation that was new. -/
def JetstreamRunResult.countNew (r : JetstreamRunResult) (o : SyncObservation) :
    JetstreamRunResult :=
  if o.trainable && !o.policySkipped then {r with learned := r.learned+1}
  else {r with skipped := r.skipped+1}

/-- What one event meets: a failure of the evidence it leaves, what its observation meets and
the failures of its withdrawals. -/
structure EventEnv where
  evidence : Option Thrown
  item : ItemEnv
  withdraw : ℕ → Option CommitFault

def EventEnv.calm : EventEnv := ⟨none,.calm,fun _ => none⟩

/-! ## The protocol cursor -/

def isDidByte (c : UInt8) : Bool :=
  (97 ≤ c && c ≤ 122) || (65 ≤ c && c ≤ 90) || isDigit c || c = 46 || c = 95 || c = 58 ||
    c = 37 || c = 45

def isMethodByte (c : UInt8) : Bool := (97 ≤ c && c ≤ 122) || isDigit c || c = 45

/-- `is_did`. -/
def isDid (value : Bytes) : Bool :=
  let rest := value.drop 4
  let method := rest.takeWhile fun c => c ≠ 58
  (utf8 "did:").isPrefixOf value && 8 < value.length && value.length ≤ 2048 &&
    value.getLast? ≠ some 58 && value.all isDidByte && method.length < rest.length &&
    method ≠ [] && method.length+1 < rest.length && method.all isMethodByte

/-- `is_tid`. -/
def isTid (value : Bytes) : Bool :=
  value.length = 13 && value.all fun c => (50 ≤ c && c ≤ 55) || (97 ≤ c && c ≤ 122)

structure CursorState where
  lastSequence : UInt64
  repo : Bytes
  repoRevision : Bytes
  resyncRequired : Bool
  deriving DecidableEq

inductive CursorResult where
  | initialized | advanced | duplicate | gap | rewind | rejected
  deriving DecidableEq

/-- `observe_sequence`. -/
def observeSequence (s : CursorState) (sequence : UInt64) (contiguous : Bool) :
    CursorState×CursorResult :=
  if sequence = 0 then (s,.rejected)
  else if s.lastSequence = 0 then
    ({s with lastSequence := sequence,resyncRequired := false},.initialized)
  else if s.resyncRequired then (s,.gap)
  else if sequence = s.lastSequence then (s,.duplicate)
  else if sequence < s.lastSequence then (s,.rewind)
  else if contiguous ∧ sequence ≠ s.lastSequence+1 then ({s with resyncRequired := true},.gap)
  else ({s with lastSequence := sequence},.advanced)

/-- `observe_stream`. -/
def observeStream (s : CursorState) (sequence : UInt64) (repo revision : Bytes)
    (contiguous : Bool) : CursorState×CursorResult :=
  if ¬isDid repo ∨ ¬isTid revision then (s,.rejected)
  else match observeSequence s sequence contiguous with
    | (s,.initialized) => ({s with repo := repo,repoRevision := revision},.initialized)
    | (s,.advanced) => ({s with repo := repo,repoRevision := revision},.advanced)
    | r => r

/-- `std::from_chars` over the whole of a cursor. -/
def parseCursor (value : Bytes) : Option UInt64 :=
  if value = [] ∨ ¬value.all isDigit ∨ 2^64 ≤ decimalValue value then none
  else some (UInt64.ofNat (decimalValue value))

/-- The protocol cursor of an ingestion state. -/
def CatchupCursor.protocolCursor (c : CatchupCursor) : CursorState :=
  let last := (c.cursor.bind parseCursor).getD 0
  match c.protocolRepo,c.protocolRevision with
  | some repo,some revision => ⟨last,repo,revision,false⟩
  | _,_ => ⟨last,[],[],false⟩

/-! ## Events -/

/-- The state of a call while its events come in. -/
structure Intake where
  learner : Learner
  state : IngestionState
  cursor : CursorState
  jumps : ℕ
  result : JetstreamRunResult

section Events
variable (U : Utf8proc) (linker evidence : Bool)

/-- The end of both callbacks: a deletion withdraws, anything else is processed. -/
def Intake.take (env : EventEnv) (p : Intake) (e : JetstreamEvent) :
    Intake×Except Thrown Unit :=
  if e.deleted then
    let (s,n) := Ledger.withdrawSource env.withdraw p.learner.session (CString.ofRaw e.sourceUri)
    ({p with
      learner := {p.learner with session := s}
      result := {p.result with withdrawn := p.result.withdrawn+n}},.ok ())
  else
    let o := e.toObservation
    let r := {p.result with observationsSeen := p.result.observationsSeen+1}
    match processObservation U env.item p.learner o with
    | (w,.error t) => ({p with learner := w,result := r},.error t)
    | (w,.ok false) =>
        ({p with learner := w,result := {r with duplicates := r.duplicates+1}},.ok ())
    | (w,.ok true) =>
        match callLinker linker env.item w o with
        | (w,.error t) => ({p with learner := w,result := r},.error t)
        | (w,.ok ()) => ({p with learner := w,result := r.countNew o},.ok ())

/-- A record of evidence, if evidence is kept. -/
def keepEvidence (wanted : Bool) (env : EventEnv) : Except Thrown Unit :=
  if evidence && wanted then
    match env.evidence with
    | some t => .error t
    | none => .ok ()
  else .ok ()

/-- The cursor moves to the event, unless the event is refused. -/
def Intake.follow (contiguous : Bool) (p : Intake) (e : JetstreamEvent) : Intake×CursorResult :=
  let jumps := !contiguous && e.sequence ≠ 0 && p.cursor.lastSequence ≠ 0 &&
    !p.cursor.resyncRequired && p.cursor.lastSequence+1 < e.sequence
  let (cursor,met) :=
    if e.protocolOnly || e.repoRevision = [] then
      observeSequence p.cursor e.sequence contiguous
    else observeStream p.cursor e.sequence e.authorDid e.repoRevision contiguous
  let lost := met = .gap || met = .rewind || met = .rejected
  ({p with
    cursor := cursor
    jumps := if jumps then p.jumps+1 else p.jumps
    result := if lost then {p.result with protocolResyncRequired := true} else p.result},met)

/-- The repository of a commit is noted in the ingestion state. -/
def Intake.noteRepo (p : Intake) (e : JetstreamEvent) : Intake :=
  if !e.protocolOnly && p.cursor.repo ≠ [] then
    {p with state := {p.state with catchup := {p.state.catchup with
      protocolRepo := some p.cursor.repo
      protocolRevision := some p.cursor.repoRevision}}}
  else p

/-- The callback of `run_jetstream_backfill` before its end: whether it gets there. -/
def Intake.enter (contiguous recordCommits : Bool) (env : EventEnv) (p : Intake)
    (e : JetstreamEvent) : Intake×Except Thrown Bool :=
  let (p,met) := p.follow contiguous e
  if met = .rewind ∨ met = .rejected then
    (p,(keepEvidence evidence true env).map fun _ => false)
  else
    let wanted := recordCommits || e.deleted || e.eventType ≠ utf8 "#commit"
    (p.noteRepo e,(keepEvidence evidence wanted env).map fun _ => !e.protocolOnly)

/-- The callback of `run_jetstream_archive` before its end. -/
def Intake.enterArchived (env : EventEnv) (p : Intake) : Intake×Except Thrown Bool :=
  ({p with result := {p.result with eventsConsumed := p.result.eventsConsumed+1}},
    (keepEvidence evidence true env).map fun _ => true)

/-- The events a client hands to the callback, each with what it meets, until one throws. -/
def intake (enter : EventEnv → Intake → JetstreamEvent → Intake×Except Thrown Bool) :
    Intake → List (EventEnv×JetstreamEvent) → Intake×Except Thrown Unit
  | p, [] => (p,.ok ())
  | p, (env,e)::rest =>
      match enter env p e with
      | (p,.error t) => (p,.error t)
      | (p,.ok false) => intake enter p rest
      | (p,.ok true) =>
          match p.take U linker env e with
          | (p,.error t) => (p,.error t)
          | (p,.ok ()) => intake enter p rest

end Events

/-! ## Calls -/

structure BatchResult where
  framesConsumed : ℕ
  malformedFrames : ℕ
  exhausted : Bool

structure JetstreamResyncResult where
  sequence : UInt64
  repo : Bytes
  revision : Bytes
  verified : Bool

structure ResyncPlan where
  repo : Bytes
  fromSequence : UInt64
  maxRecords : UInt32
  reason : String

/-- `plan_resync`, where a resync is required. -/
def planResync (s : CursorState) (maxRecords : UInt32) : Option ResyncPlan :=
  if s.resyncRequired then
    some ⟨s.repo,s.lastSequence,max 1 maxRecords,
      "firehose sequence gap requires bounded repository resync"⟩
  else none

/-- What one batch meets. `fetched` is how `fetch_batch` ends when no event throws. -/
structure Batch where
  recordCommitEvidence : Bool
  filtered : Bool
  events : List (EventEnv×JetstreamEvent)
  fetched : Except Thrown BatchResult
  jumpEvidence : Option Thrown
  resync : Option (ResyncPlan → Except Thrown (Option JetstreamResyncResult))
  cursor : Bytes

/-- `complete_resync`. -/
def completeResync (s : CursorState) (r : JetstreamResyncResult) : Option CursorState :=
  if ¬s.resyncRequired ∨ r.sequence < s.lastSequence ∨ r.repo = [] ∨ r.revision = [] ∨
      ¬isDid r.repo ∨ ¬isTid r.revision ∨ ¬r.verified then none
  else some ⟨r.sequence,r.repo,r.revision,false⟩

/-- A gap is closed by a resync, if there is an executor and it can. -/
def Intake.resync (resync : Option (ResyncPlan → Except Thrown (Option JetstreamResyncResult)))
    (p : Intake) : Except Thrown Intake :=
  match resync with
  | none => .ok p
  | some execute =>
      match (planResync p.cursor 0).filter fun _ => p.result.protocolResyncRequired with
      | none => .ok p
      | some plan =>
          match execute plan with
          | .error t => .error t
          | .ok none => .ok p
          | .ok (some recovered) =>
              match completeResync p.cursor recovered with
              | none => .ok p
              | some cursor => .ok {p with
                  cursor := cursor
                  result := {p.result with protocolResyncRequired := false}
                  state := {p.state with catchup := {
                    active := true
                    cursor := some (decimalString recovered.sequence.toNat)
                    protocolRepo := some recovered.repo
                    protocolRevision := some recovered.revision}}}

section Calls
variable (U : Utf8proc) (linker evidence : Bool)

/-- The end of both calls: a rebuild, if an entry was withdrawn. -/
def Intake.reconcile (p : Intake) : Except Thrown Intake :=
  if 0 < p.result.withdrawn then
    match Cli.rebuildFromLedger U (fun _ => .calm) p.learner.graph
        p.learner.session.handle.items with
    | .error t => .error t
    | .ok (g,_) => .ok {p with
        learner := {p.learner with graph := g}
        result := {p.result with reconciled := true}}
  else .ok p

/-- The checkpoint both calls end with. -/
def Intake.checkpoint (p : Intake) : IngestionState :=
  {p.state with checkpoint := ⟨p.state.checkpoint.pagesCompleted+1,
    p.state.checkpoint.observationsSeen+p.result.observationsSeen⟩}

/-- The cursor a batch leaves. It stays where it was while a gap is open. -/
def Intake.moveCursor (p : Intake) (cursor : Bytes) : Intake :=
  {p with state := {p.state with catchup :=
    if p.result.protocolResyncRequired then {p.state.catchup with active := true}
    else if p.result.exhausted then {p.state.catchup with active := false,cursor := none}
    else {p.state.catchup with
      active := cursor ≠ []
      cursor := if cursor = [] then none else some cursor}}}

structure JetstreamReply where
  learner : Learner
  state : IngestionState
  outcome : Except Thrown JetstreamRunResult

def JetstreamReply.thrown (p : Intake) (t : Thrown) : JetstreamReply := ⟨p.learner,p.state,.error t⟩

/-- `run_jetstream_backfill` behind the batch. -/
def Intake.finish (b : Batch) (p : Intake) (fetched : BatchResult) : JetstreamReply :=
  let p := {p with result := {p.result with
    eventsConsumed := fetched.framesConsumed
    malformedFrames := fetched.malformedFrames
    exhausted := fetched.exhausted
    filteredSequenceJumps := p.jumps}}
  match (if p.jumps ≠ 0 && evidence then b.jumpEvidence else none) with
  | some t => .thrown p t
  | none =>
      match p.resync b.resync with
      | .error t => .thrown p t
      | .ok p =>
          match p.reconcile U with
          | .error t => .thrown p t
          | .ok p =>
              let p := p.moveCursor b.cursor
              ⟨p.learner,p.checkpoint,.ok p.result⟩

/-- `run_jetstream_backfill`. -/
def runJetstreamBackfill (w : Learner) (state : IngestionState) (b : Batch) : JetstreamReply :=
  let start : Intake := ⟨w,state.begin,state.catchup.protocolCursor,0,.empty⟩
  match intake U linker (Intake.enter evidence (!b.filtered) b.recordCommitEvidence) start
      b.events with
  | (p,.error t) => .thrown p t
  | (p,.ok ()) =>
      match b.fetched with
      | .error t => .thrown p t
      | .ok fetched => p.finish U evidence b fetched

/-! ## The sealed archive -/

structure WindowResult where
  plannedThroughSeq : UInt64
  sealedTipSeq : UInt64
  droppedRows : ℕ

/-- The archive: its sealed tip, and the events of a window with how `fetch_window` ends. -/
structure ReplaySource where
  probeSealedTip : Except Thrown (Option UInt64)
  fetchWindow : UInt64 → Option UInt64 →
    List (EventEnv×JetstreamEvent)×Except Thrown WindowResult

def kJetstreamArchiveMaxSequenceSpan : UInt64 := 10000000

/-- The window asked for, `relative_span` resolved. -/
def ReplaySource.resolveWindow (client : ReplaySource) (afterSeq : UInt64)
    (beforeSeq relativeSpan : Option UInt64) : Except Thrown (UInt64×Option UInt64) :=
  match relativeSpan with
  | none => .ok (afterSeq,beforeSeq)
  | some span => do
      if span = 0 ∨ kJetstreamArchiveMaxSequenceSpan < span then
        .error (.runtime ("jetstream archive: relative span must be between 1 and the "++
          "10,000,000 sequence cap"))
      let before ← match beforeSeq with
        | some before => .ok before
        | none => match ← client.probeSealedTip with
            | some tip => .ok tip
            | none => .error (.runtime ("jetstream archive: cannot resolve a relative window "++
                "against an empty sealed archive"))
      if before = 0 then
        .error (.runtime ("jetstream archive: cannot resolve a relative window against an "++
          "empty sealed archive"))
      return (if span < before then before-span else 0,some before)

/-- The cursor a window leaves. -/
def Intake.moveArchived (p : Intake) (window : WindowResult) : Intake :=
  let exhausted : Bool := window.sealedTipSeq ≤ window.plannedThroughSeq
  {p with
    result := {p.result with exhausted,dropped := window.droppedRows}
    state := {p.state with catchup :=
      if exhausted then {p.state.catchup with
        active := window.sealedTipSeq ≠ 0
        cursor := if window.sealedTipSeq ≠ 0 then
          some (decimalString window.sealedTipSeq.toNat) else none}
      else {p.state.catchup with
        active := true
        cursor := some (decimalString window.plannedThroughSeq.toNat)}}}

/-- `run_jetstream_archive`. -/
def runJetstreamArchive (w : Learner) (state : IngestionState) (client : ReplaySource)
    (afterSeq : UInt64) (beforeSeq relativeSpan : Option UInt64) : JetstreamReply :=
  let start : Intake := ⟨w,state,⟨0,[],[],false⟩,0,.empty⟩
  match client.resolveWindow afterSeq beforeSeq relativeSpan with
  | .error t => .thrown start t
  | .ok (afterSeq,beforeSeq) =>
      let (events,fetched) := client.fetchWindow afterSeq beforeSeq
      match intake U linker (fun env p _ => p.enterArchived evidence env) start events with
      | (p,.error t) => .thrown p t
      | (p,.ok ()) =>
          match fetched with
          | .error t => .thrown p t
          | .ok window =>
              let p := p.moveArchived window
              match p.reconcile U with
              | .error t => .thrown p t
              | .ok p => ⟨p.learner,p.checkpoint,.ok p.result⟩

end Calls

end Atperson.Sync
