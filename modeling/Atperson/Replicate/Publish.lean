import Atperson.Replicate.Cursor
import Mathlib.Logic.Relation

/-!
# One drain

The bounded pass that publishes committed experience: withdrawals of what is published
already, then observations, journal lines, thoughts and intents from their cursors on. A
writer that fails ends the pass; a record it failed on may have been stored all the same.
The acts of a pass are the records it puts, each with what it does to the cursor.
-/
namespace Atperson.Replicate
open Wire Journal Thought Ledger

/-- What becomes of one call of the writer: it returns, throws, or the process dies in it. -/
inductive WriterAnswer where
  | written
  | failed (detail : String) (stored : Bool)
  | dies (stored : Bool)
  deriving DecidableEq

structure ReplicateReport where
  observationsPublished : ℕ := 0
  actionsPublished : ℕ := 0
  valencePublished : ℕ := 0
  thoughtsPublished : ℕ := 0
  intentsPublished : ℕ := 0
  withdrawalUpdates : ℕ := 0
  networkFailed : Bool := false
  failureDetail : String := ""
  deriving DecidableEq

structure ReplicateConfig where
  maxRecordsPerDrain : ℕ := 50
  withdrawalRecheckWindow : ℕ := 200

structure Progress where
  cursor : ReplicateCursor
  written : ℕ := 0
  report : ReplicateReport := {}
  records : Records
  calls : ℕ := 0

namespace Progress

def put (p : Progress) (key : Key) (document : Json Double) : Progress :=
  { p with records := Function.update p.records key (some document), calls := p.calls+1 }

def call (p : Progress) (key : Key) (document : Json Double) (stored : Bool) : Progress :=
  if stored then p.put key document else { p with calls := p.calls+1 }

def fail (p : Progress) (detail : String) : Progress :=
  { p with report := { p.report with networkFailed := true, failureDetail := detail } }

def countWithdrawal (p : Progress) : Progress :=
  { p with report := { p.report with withdrawalUpdates := p.report.withdrawalUpdates+1 } }

/-- What a confirmed observation counts for: the cursor goes behind it. -/
def countObservation (id : ℕ) (p : Progress) : Progress :=
  { p with
    written := p.written+1
    report := { p.report with observationsPublished := p.report.observationsPublished+1 }
    cursor := { p.cursor with nextObservationId := .ofNat (id+1) } }

end Progress

/-- A pass that ends early: the writer failed, the process died or an error was thrown. -/
inductive Stop where
  | failed (p : Progress)
  | died (p : Progress)
  | threw (p : Progress) (message : String)

def Stop.progress : Stop → Progress
  | .failed p | .died p | .threw p _ => p

structure DrainInput where
  items : List Item
  journal : Except String JournalContents
  thoughts : Except String (List Thought)
  config : ReplicateConfig
  writer : ℕ → WriterAnswer
  diesBeforeSave : Bool

def putRecord (writer : ℕ → WriterAnswer) (p : Progress) (key : Key)
    (document : Except String (Json Double)) : Except Stop Progress :=
  match document with
  | .error message => .error (.failed (p.fail message))
  | .ok json =>
    match writer p.calls with
    | .written => .ok (p.put key json)
    | .failed detail stored => .error (.failed ((p.call key json stored).fail detail))
    | .dies stored => .error (.died (p.call key json stored))

def observationRecord (items : List Item) (entry : LedgerEntry) :
    Except String ObservationRecord :=
  match entryContext items entry.id with
  | (.ok,context) => .ok {
      id := entry.id
      sourceId := entry.sourceId.bytes
      authorDid := entry.authorDid.bytes
      observedAt := entry.observedAt
      contentDigest := entry.contentDigest
      schemaVersion := entry.schemaVersion
      outcome := utf8 (ledgerOutcomeName entry.outcome)
      context := context }
  | _ => .error "read ledger entry context: not found"

def observationKey (id : UInt64) : Key := (.observation,observationRkey id)

/-- Puts the record of one entry; its context is read outside the guarded call. -/
def putObservation (d : DrainInput) (p : Progress) (it : Item) : Except Stop Progress :=
  match observationRecord d.items it.entry with
  | .error message => .error (.threw p message)
  | .ok record =>
      putRecord d.writer p (observationKey it.entry.id) (.ok (serialiseObservationRecord record))

def recheckFrom (next : UInt64) (window : ℕ) : ℕ :=
  if next.toNat > window then next.toNat-window else 1

/-- The published entries whose outcome is checked again. -/
def recheckWindow (d : DrainInput) (next : UInt64) : List Item :=
  (d.items.take (next.toNat-1)).drop (recheckFrom next d.config.withdrawalRecheckWindow-1)

def propagateWithdrawals (d : DrainInput) : List Item → Progress → Except Stop Progress
  | [], p => .ok p
  | it::rest, p =>
      if it.outcome ≠ .withdrawn then propagateWithdrawals d rest p
      else do
        let p ← putObservation d p it
        propagateWithdrawals d rest p.countWithdrawal

/-- The loop over the entries from `id` on. -/
def publishObservations (d : DrainInput) :
    ℕ → List Item → Progress → Except Stop Progress
  | _, [], p => .ok p
  | id, it::rest, p =>
      if p.written ≥ d.config.maxRecordsPerDrain then .ok p
      else if it.outcome = .pending then publishObservations d (id+1) rest p
      else do
        let p ← putObservation d p it
        publishObservations d (id+1) rest (p.countObservation id)

/-- The loop that the four counted kinds share, over the entries from index `i` on. -/
def publishCounted {α : Type} (d : DrainInput) (key : ℕ → α → Key)
    (document : α → Except String (Json Double)) (advance : Progress → Progress) :
    ℕ → List α → Progress → Except Stop Progress
  | _, [], p => .ok p
  | i, a::rest, p =>
      if p.written < d.config.maxRecordsPerDrain then do
        let p ← putRecord d.writer p (key i a) (document a)
        publishCounted d key document advance (i+1) rest
          (advance { p with written := p.written+1 })
      else .ok p

section Kinds

def actionKey (_ : ℕ) (action : JournalAction) : Key := (.action,action.id)

def actionDocument (action : JournalAction) : Except String (Json Double) :=
  .ok (serialiseActionRecord {
    id := action.id, kind := action.kind, text := action.text, digest := action.digest
    outcome := utf8 (journalActionOutcomeName action.outcome), reason := action.reason
    uri := action.uri, cid := action.cid, time := action.time })

def advanceActions (p : Progress) : Progress :=
  { p with
    cursor := { p.cursor with actionsPublished := p.cursor.actionsPublished+1 }
    report := { p.report with actionsPublished := p.report.actionsPublished+1 } }

/-- The key of an application: its time with its place added, in 64 bits. -/
def valenceKey (i : ℕ) (valence : JournalValence) : Key :=
  (.valence,observationRkey (valence.atEpoch+.ofNat i))

def valenceDocument (valence : JournalValence) : Except String (Json Double) :=
  .ok (serialiseValenceRecord {
    token := valence.token, kind := valence.kind, signal := valence.signal
    source := valence.source, atEpoch := valence.atEpoch, time := valence.time
    provenance := valence.provenance })

def advanceValence (p : Progress) : Progress :=
  { p with
    cursor := { p.cursor with valencePublished := p.cursor.valencePublished+1 }
    report := { p.report with valencePublished := p.report.valencePublished+1 } }

def thoughtKey (_ : ℕ) (thought : Thought) : Key := (.thought,thought.id)

def thoughtDocument (thought : Thought) : Except String (Json Double) :=
  serialiseThoughtRecord {
    id := thought.id, kind := thought.kind, text := thought.text
    aboutUri := thought.aboutUri, time := thought.time }

def advanceThoughts (p : Progress) : Progress :=
  { p with
    cursor := { p.cursor with thoughtsPublished := p.cursor.thoughtsPublished+1 }
    report := { p.report with thoughtsPublished := p.report.thoughtsPublished+1 } }

def intentKey (_ : ℕ) (intent : JournalIntent) : Key := (.intent,intent.id)

def intentDocument (intent : JournalIntent) : Except String (Json Double) :=
  serialiseIntentRecord {
    id := intent.id, actions := intent.actions, responder := intent.responder
    expiresAtEpoch := intent.expiresAtEpoch, expiresAt := intent.expiresAt
    maxContinuations := intent.maxContinuations
    state := utf8 (intentStateName intent.state)
    atEpoch := intent.atEpoch, time := intent.time }

def advanceIntents (p : Progress) : Progress :=
  { p with
    cursor := { p.cursor with intentsPublished := p.cursor.intentsPublished+1 }
    report := { p.report with intentsPublished := p.report.intentsPublished+1 } }

end Kinds

def publishActions (d : DrainInput) (journal : JournalContents) (p : Progress) :
    Except Stop Progress :=
  let from_ := p.cursor.actionsPublished.toNat
  publishCounted d actionKey actionDocument advanceActions from_ (journal.actions.drop from_) p

def publishValence (d : DrainInput) (journal : JournalContents) (p : Progress) :
    Except Stop Progress :=
  let from_ := p.cursor.valencePublished.toNat
  publishCounted d valenceKey valenceDocument advanceValence from_ (journal.valence.drop from_) p

def publishThoughts (d : DrainInput) (thoughts : List Thought) (p : Progress) :
    Except Stop Progress :=
  let from_ := p.cursor.thoughtsPublished.toNat
  publishCounted d thoughtKey thoughtDocument advanceThoughts from_ (thoughts.drop from_) p

def publishIntents (d : DrainInput) (journal : JournalContents) (p : Progress) :
    Except Stop Progress :=
  let from_ := p.cursor.intentsPublished.toNat
  publishCounted d intentKey intentDocument advanceIntents from_ (journal.intents.drop from_) p

/-- What an exception of a loader leaves. -/
def orThrow {α : Type} (p : Progress) (loaded : Except String α) : Except Stop α :=
  match loaded with
  | .ok a => .ok a
  | .error message => .error (.threw p message)

/-- Everything behind the withdrawals. -/
def publishNew (d : DrainInput) (p : Progress) : Except Stop Progress := do
  let next := p.cursor.nextObservationId.toNat
  let p ← publishObservations d next (d.items.drop (next-1)) p
  let journal ← orThrow p d.journal
  let p ← publishActions d journal p
  let p ← publishValence d journal p
  let thoughts ← orThrow p d.thoughts
  let p ← publishThoughts d thoughts p
  publishIntents d journal p

inductive DrainOutcome where
  | returned (report : ReplicateReport)
  | threw (message : String)
  | died
  deriving DecidableEq

structure DrainResult where
  cursorFile : Option (Json Double)
  records : Records
  calls : ℕ
  outcome : DrainOutcome

/-- The end of a pass that saves its cursor, unless the process dies first. -/
def saveAndReturn (d : DrainInput) (cursorFile : Option (Json Double)) (p : Progress) :
    DrainResult :=
  if d.diesBeforeSave then ⟨cursorFile,p.records,p.calls,.died⟩
  else ⟨some (saveReplicateCursor p.cursor),p.records,p.calls,.returned p.report⟩

def replicateDrain (path : String) (cursorFile : Option (Json Double)) (records : Records)
    (d : DrainInput) : DrainResult :=
  match loadReplicateCursor cursorFile path with
  | .error message => ⟨cursorFile,records,0,.threw message⟩
  | .ok cursor =>
    match propagateWithdrawals d (recheckWindow d cursor.nextObservationId)
        { cursor := cursor, records := records } with
    -- a failure among the withdrawals returns without a save
    | .error (.failed p) => ⟨cursorFile,p.records,p.calls,.returned p.report⟩
    | .error (.died p) => ⟨cursorFile,p.records,p.calls,.died⟩
    | .error (.threw p message) => ⟨cursorFile,p.records,p.calls,.threw message⟩
    | .ok p =>
      match publishNew d p with
      | .ok p => saveAndReturn d cursorFile p
      | .error (.failed p) => saveAndReturn d cursorFile p
      | .error (.died p) => ⟨cursorFile,p.records,p.calls,.died⟩
      | .error (.threw p message) => ⟨cursorFile,p.records,p.calls,.threw message⟩

end Atperson.Replicate
