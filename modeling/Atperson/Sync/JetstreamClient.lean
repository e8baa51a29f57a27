import Atperson.Wire.Decimal
import Atperson.Sync.Jetstream

/-!
# The Jetstream client

A client reads frames off one stream, hands the callback an event or more for each, and keeps
the position of the last as its cursor. A frame without a DID or without a body is handed to
nobody, but it moves the cursor like any other.

What the stream delivers is input; so is what the library makes of a commit.
-/
namespace Atperson.Sync
open Wire

inductive FrameKind where
  | commit | sync | identity | account | accountDelete | unknown
  deriving DecidableEq

/-- What `wf_jetstream_event_parse_typed` finds in a commit. -/
structure TypedCommit where
  delete : Bool
  collection : Option Bytes
  rkey : Option Bytes
  rev : Option Bytes
  deriving DecidableEq

/-- A frame, with what the typed parse and `extract_jetstream_commit` make of its body. -/
structure Frame where
  kind : FrameKind
  did : Option Bytes
  json : Option Bytes
  seq : Int64
  timeUs : Int64
  typed : Option TypedCommit
  extracted : Option SyncObservation

def blankEvent (did : Bytes) (seq : ℤ) : JetstreamEvent where
  sourceUri := []
  authorDid := did
  createdAt := []
  text := []
  replyRoot := []
  replyParent := []
  quoteUri := []
  policyReason := .eligible
  seq
  repoRevision := []
  protocolOnly := false
  deleted := false
  eventType := utf8 "#commit"

def FrameKind.eventType : FrameKind → String
  | .commit => "#commit"
  | .sync => "#sync"
  | .identity => "#identity"
  | .account => "#account"
  | .accountDelete => "#account-delete"
  | .unknown => "#unknown"

namespace Frame
variable (v2 : Bool)

/-- The envelope position: a sequence in protocol 2, a timestamp in protocol 1. -/
def position (f : Frame) : ℤ := if v2 then f.seq.toInt else f.timeUs.toInt

def rev (f : Frame) : Bytes := (f.typed.bind TypedCommit.rev).getD []

/-- The event every commit is retained with. -/
def commitEvent (f : Frame) (did : Bytes) : JetstreamEvent :=
  {blankEvent did (f.position v2) with repoRevision := f.rev,protocolOnly := true}

/-- The path of a record that a commit deletes. -/
def deletion (f : Frame) : Option (Bytes×Bytes) :=
  f.typed.bind fun t =>
    match t.delete,t.collection,t.rkey with
    | true,some collection,some rkey => some (collection,rkey)
    | _,_,_ => none

def deleteEvent (f : Frame) (did : Bytes) (path : Bytes×Bytes) : JetstreamEvent :=
  {blankEvent did (f.position v2) with
    sourceUri := utf8 "at://"++did++utf8 "/"++path.1++utf8 "/"++path.2
    repoRevision := f.rev
    deleted := true}

def observationEvent (f : Frame) (o : SyncObservation) : JetstreamEvent :=
  {blankEvent o.authorDid (f.position v2) with
    sourceUri := o.sourceUri
    createdAt := o.createdAt
    text := o.text
    replyRoot := o.context.replyRootUri
    replyParent := o.context.replyParentUri
    quoteUri := o.context.quoteUri
    policyReason := o.policyReason
    repoRevision := f.rev}

/-- The events of a commit behind the first: a deletion, or an observation. -/
def recordEvents (f : Frame) (did : Bytes) : List JetstreamEvent :=
  match f.deletion with
  | some path => [f.deleteEvent v2 did path]
  | none =>
      if v2 || f.typed.isSome then (f.extracted.map (f.observationEvent v2)).toList else []

/-- The events a frame is handed over as. -/
def events (f : Frame) : List JetstreamEvent :=
  match f.did,f.json with
  | some did,some _ =>
      if f.kind = .commit then f.commitEvent v2 did::f.recordEvents v2 did
      else [{blankEvent did (f.position v2) with
        protocolOnly := true
        eventType := utf8 f.kind.eventType}]
  | _,_ => []

/-- The client's cursor behind a frame: `cursor_from_seq`. -/
def moves (cursor : Bytes) (f : Frame) : Bytes :=
  if 0 < f.position v2 then decimalString (f.position v2).toNat else cursor

end Frame

/-- What `wf_jetstream_next` returns; `blocked` with whether the stream backs off. -/
inductive Received where
  | frame (f : Frame)
  | malformed
  | blocked (backoff : Bool)
  | failed

/-- What a batch has been handed, in order, with how it ends and the cursor behind it. -/
structure Fetch where
  frames : List Frame
  reply : Except Thrown BatchResult
  cursor : Bytes

/-- The loop of `fetch_batch`, to the end of the time it has; 0 events is no bound. -/
def fetchFrom (v2 : Bool) (maxEvents : ℕ) : ℕ → ℕ → Bytes → List Received → Fetch
  | consumed, malformed, cursor, [] => ⟨[],.ok ⟨consumed,malformed,false⟩,cursor⟩
  | consumed, malformed, cursor, r::rest =>
      if 0 < maxEvents ∧ maxEvents ≤ consumed then ⟨[],.ok ⟨consumed,malformed,false⟩,cursor⟩
      else
        match r with
        | .blocked true => ⟨[],.ok ⟨consumed,malformed,false⟩,cursor⟩
        | .blocked false => fetchFrom v2 maxEvents consumed malformed cursor rest
        | .malformed => fetchFrom v2 maxEvents (consumed+1) (malformed+1) cursor rest
        | .failed => ⟨[],.error (.runtime "JetstreamClient: wf_jetstream_next failed"),cursor⟩
        | .frame f =>
            let later := fetchFrom v2 maxEvents (consumed+1) malformed (f.moves v2 cursor) rest
            {later with frames := f::later.frames}

/-- `fetch_batch`, up to the first event that throws. -/
def fetchBatch (v2 : Bool) (maxEvents : ℕ) (cursor : Bytes) (received : List Received) : Fetch :=
  fetchFrom v2 maxEvents 0 0 cursor received

def Fetch.events (v2 : Bool) (b : Fetch) : List JetstreamEvent := b.frames.flatMap (Frame.events v2)

section Fetched
variable {v2 : Bool} {maxEvents : ℕ}

/-- The cursor behind a batch is that of its last frame with a position. -/
theorem fetchFrom_cursor (consumed malformed : ℕ) (cursor : Bytes) (received : List Received) :
    (fetchFrom v2 maxEvents consumed malformed cursor received).cursor =
      (fetchFrom v2 maxEvents consumed malformed cursor received).frames.foldl
        (Frame.moves v2) cursor := by
  induction received generalizing consumed malformed cursor with
  | nil => rfl
  | cons r rest ih =>
      unfold fetchFrom
      split
      · rfl
      · match r with
        | .blocked true => rfl
        | .blocked false => exact ih _ _ _
        | .malformed => exact ih _ _ _
        | .failed => rfl
        | .frame f => exact ih _ _ _

/-- The client never reports the end of the feed. -/
theorem fetchFrom_exhausted {consumed malformed : ℕ} {cursor : Bytes} {received : List Received}
    {r : BatchResult} (h : (fetchFrom v2 maxEvents consumed malformed cursor received).reply =
      .ok r) : r.exhausted = false := by
  induction received generalizing consumed malformed cursor with
  | nil => exact Except.ok.inj h ▸ rfl
  | cons x rest ih =>
      unfold fetchFrom at h
      split at h
      · exact Except.ok.inj h ▸ rfl
      · match x with
        | .blocked true => exact Except.ok.inj h ▸ rfl
        | .blocked false => exact ih h
        | .malformed => exact ih h
        | .failed => cases h
        | .frame f => exact ih h

end Fetched

end Atperson.Sync
