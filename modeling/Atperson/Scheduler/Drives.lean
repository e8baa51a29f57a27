import Atperson.Core.Replay
import Atperson.Intent.State
import Atperson.Journal.Command
import Atperson.Ledger.Query

/-!
# Drives

The contexts that a cycle decides on: the newest observations of the ledger, reordered by what
the graph and the journal tell of each. A payload is read through its digest, so a damaged one
makes the selection fail.
-/
namespace Atperson.Scheduler
open Wire Journal
open Atperson.Core (Utf8proc Graph Token tokenize textOf schemaVersion)
open Atperson.Intent (activeIntents)
open Ledger (Item entryPayload)

structure ContextCandidate where
  ledgerId : UInt64
  payload : Bytes
  sourceId : Bytes
  authorDid : Bytes
  observedAt : UInt64
  deriving DecidableEq

/-! ## Selection -/

/-- `Ledger::payload`. -/
def readPayload (items : List Item) (id : UInt64) : Except Ledger.Status Bytes :=
  match entryPayload items id none with
  | (.ok,[]) => .ok []
  | (.ok,payload) => match entryPayload items id (some payload.length) with
      | (.ok,read) => .ok read
      | (status,_) => .error status
  | (status,_) => .error status

def candidateOf (it : Item) (payload : Bytes) : ContextCandidate where
  ledgerId := it.entry.id
  payload := payload
  sourceId := it.entry.sourceId.bytes
  authorDid := it.entry.authorDid.bytes
  observedAt := it.entry.observedAt

/-- The loop of `select_candidates`, from the last entry back. -/
def selectFrom (items : List Item) : ℕ → List Item → Except Ledger.Status (List ContextCandidate)
  | 0, _ => .ok []
  | _+1, [] => .ok []
  | room+1, it::rest =>
      if it.outcome = .pending ∨ it.outcome = .withdrawn then selectFrom items (room+1) rest
      else do
        let payload ← readPayload items it.entry.id
        if payload = [] then selectFrom items (room+1) rest
        else return candidateOf it payload::(← selectFrom items room rest)

def selectCandidates (items : List Item) (maxContexts : ℕ) :
    Except Ledger.Status (List ContextCandidate) := selectFrom items maxContexts items.reverse

/-! ## Signals -/

inductive ReciprocitySource where
  | none | event | author
  deriving DecidableEq

structure Signals where
  curiosity : Float32
  reciprocity : Float32
  intent : Float32
  reciprocitySource : ReciprocitySource
  deriving DecidableEq

/-- `std::max`. -/
def maxFloat (a b : Float32) : Float32 := if a < b then b else a

/-- `std::clamp` to the unit interval. -/
def clampUnit (value : Float32) : Float32 :=
  if value < 0 then 0 else if 1 < value then 1 else value

/-- `static_cast<float>` of a size. -/
def sizeFloat (n : ℕ) : Float32 := (UInt64.ofNat n).toFloat32

def authorEncounters (g : Graph) (authorDid : Bytes) : ℕ :=
  if authorDid = [] then 0 else g.episodes.countP fun episode => episode.authorDid.bytes = authorDid

def authorCuriosity (g : Graph) (authorDid : Bytes) : Float32 :=
  if authorEncounters g authorDid = 0 then 0 else 1/sizeFloat (1+authorEncounters g authorDid)

/-- `atp_graph_familiarity`. -/
def familiarity (g : Graph) (token : Bytes) : Float32 :=
  match g.findToken (CString.ofRaw token) with
  | none => 0
  | some node => (g.nodes[node]?.map fun n => n.familiarity).getD 0

structure TopicCollector where
  familiaritySum : Float32
  total : ℕ
  known : ℕ

def emitToken (g : Graph) (collector : TopicCollector) (token : Token) : TopicCollector :=
  if hasToken g token.bytes then {
    familiaritySum := collector.familiaritySum+familiarity g token.bytes
    total := collector.total+1
    known := collector.known+1}
  else {collector with total := collector.total+1}

def topicCuriosity (U : Utf8proc) (g : Graph) (text : Bytes) : Float32 :=
  if text = [] then 0 else
  let collector := (tokenize U schemaVersion (textOf text)).foldl (emitToken g) ⟨0,0,0⟩
  if collector.total = 0 ∨ collector.known = 0 then 0 else
  let meanFamiliarity := collector.familiaritySum/sizeFloat collector.known
  let novelty := 1/(1+meanFamiliarity)
  let adjacency := sizeFloat collector.known/sizeFloat collector.total
  clampUnit (novelty*adjacency)

def kReciprocityWindowSeconds : ℤ := 7*24*3600

/-- The event names the candidate's author, inside the window. -/
def referencedBy (candidate : ContextCandidate) (now : ℤ) (event : JournalEvent) : Bool :=
  candidate.authorDid ≠ [] && event.authorDid = candidate.authorDid &&
    now-kReciprocityWindowSeconds ≤ event.epoch.toInt64.toInt && event.epoch.toInt64.toInt ≤ now+60

/-- The loop over the events of the journal. -/
def reciprocityOf (candidate : ContextCandidate) (now : ℤ) :
    Float32×ReciprocitySource → List JournalEvent → Float32×ReciprocitySource
  | s, [] => s
  | s, event::rest =>
      if candidate.sourceId = event.eventUri then (1,.event)
      else if s.2 = .none ∧ referencedBy candidate now event then
        reciprocityOf candidate now (0.5,.author) rest
      else reciprocityOf candidate now s rest

/-- An intent that waits for the event. -/
def awaits (intent : JournalIntent) (event : JournalEvent) : Bool :=
  intent.actions.contains event.actionId &&
    (intent.responder = utf8 "anyone" || intent.responder = event.authorDid)

/-- `continuation_intent`. -/
def continuationIntent (journal : JournalContents) (sourceId authorDid : Bytes) (now : ℤ) :
    Option JournalIntent :=
  if sourceId = [] then none else
  journal.events.findSome? fun event =>
    if event.eventUri ≠ sourceId then none
    else if authorDid ≠ [] ∧ event.authorDid ≠ authorDid then none
    else (activeIntents journal.intents now).find? fun intent => awaits intent event

def driveSignals (U : Utf8proc) (g : Graph) (journal : JournalContents) (now : ℤ)
    (candidate : ContextCandidate) : Signals :=
  let reciprocity := reciprocityOf candidate now (0,.none) journal.events
  { curiosity := clampUnit
      (maxFloat (authorCuriosity g candidate.authorDid) (topicCuriosity U g candidate.payload))
    reciprocity := reciprocity.1
    intent :=
      if (continuationIntent journal candidate.sourceId candidate.authorDid now).isSome then 1 else 0
    reciprocitySource := reciprocity.2 }

def computeDriveSignals (U : Utf8proc) (g : Graph) (candidates : List ContextCandidate)
    (journal : JournalContents) (now : ℤ) : List Signals :=
  candidates.map (driveSignals U g journal now)

/-! ## Order -/

/-- The comparator of `order_candidates`. -/
def before (a b : Signals) : Bool :=
  if a.intent != b.intent then b.intent < a.intent
  else if a.reciprocity != b.reciprocity then b.reciprocity < a.reciprocity
  else if a.curiosity != b.curiosity then b.curiosity < a.curiosity
  else false

def signalsAt (signals : List Signals) (i : ℕ) : Signals := signals.getD i ⟨0,0,0,.none⟩

/-- `std::stable_sort` of the indices. -/
def orderCandidates (signals : List Signals) : List ℕ :=
  (List.range signals.length).mergeSort fun i j => !before (signalsAt signals j) (signalsAt signals i)

end Atperson.Scheduler
