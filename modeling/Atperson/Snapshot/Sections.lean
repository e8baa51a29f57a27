import Atperson.Wire.Image
import Atperson.Core.Lifecycle
import Atperson.Core.Migration

/-!
# Sections of a snapshot

The payloads the loaders of all versions share. Each is decoded into a graph that is still
being loaded, whose ledger mirror lies in its two arrays. A count is checked against what is
left of the image before any row is read. Allocations succeed here.
-/
namespace Atperson.Snapshot
open Wire ImageReader
open Atperson.Core
open Ledger (Status Outcome LedgerEntry ConversationContext)

abbrev Decoder (α : Type) := ImageReader Status α

/-- A graph that is being loaded: the entries of its mirror, and the slots that are allocated
for their contexts. -/
structure Loading where
  graph : Graph
  entries : List LedgerEntry
  contexts : List ConversationContext

namespace Loading

def of (g : Graph) : Loading := ⟨g,[],[]⟩

/-- `atp_reserve_ledger_entries`: the slots behind the entries are zeroed. -/
def reserveLedgerEntries (needed : ℕ) (x : Loading) : Loading :=
  if needed ≤ x.contexts.length then x
  else
    let capacity := growCapacity needed needed
      (if x.contexts.length = 0 then 16 else x.contexts.length)
    {x with contexts := x.contexts.take x.entries.length++
      List.replicate (capacity-x.entries.length) .empty}

/-- The graph with its mirror. -/
def mirrored (x : Loading) : Graph :=
  {x.graph with ledger := List.zipWith Mirrored.mk x.entries x.contexts}

end Loading

/-- As many rows of a size as a count asks for can be left. -/
def fits (count : UInt64) (size : ℕ) : Decoder Unit := do
  check (count.toNat ≤ (← remaining)/size)

/-! ## Nodes and edges -/

def readEdge (nodeCount : ℕ) : Decoder Edge := do
  let source ← u32
  let target ← u32
  let observations ← u64
  let lastSourceHash ← u64
  let strength ← f32
  check (source.toNat < nodeCount)
  check (target.toNat < nodeCount)
  return ⟨source.toNat,target.toNat,observations,lastSourceHash,strength⟩

/-- `atp_decode_edges`. -/
def decodeEdges (x : Loading) : Decoder Loading := do
  let count ← u64
  fits count 28
  let edges ← many (readEdge x.graph.nodes.length) count.toNat
  return {x with graph := {x.graph with edges := x.graph.edges++edges}}

/-- One coordinate of an embedding, with its importance where the format has it. -/
def readCoordinate (withImportance : Bool) : Decoder (Float32×Float32) := do
  let value ← f32
  let importance ← if withImportance then f32 else pure 0
  return (value,importance)

def readNode (withImportance : Bool) (dimension : ℕ) : Decoder Node := do
  let token ← string 95
  let observations ← u64
  let familiarity ← f32
  let embedding ← many (readCoordinate withImportance) dimension
  return ⟨token,observations,familiarity,embedding.map Prod.fst,embedding.map Prod.snd⟩

/-- `atp_decode_nodes`. -/
def decodeNodes (withImportance : Bool) (x : Loading) : Decoder Loading := do
  let dimension := x.graph.neuralArchitecture.embeddingDim
  let count ← u64
  fits count (4+8+4+dimension*(if withImportance then 8 else 4)+1)
  let nodes ← many (readNode withImportance dimension) count.toNat
  return {x with graph := {x.graph with nodes := x.graph.nodes++nodes}}

/-! ## The ledger mirror -/

def outcomeOf? (word : UInt32) : Option Outcome :=
  if word.toNat ≤ 4 then Outcome.ofByte? (UInt8.ofNat word.toNat) else none

def readLedgerEntry : Decoder LedgerEntry := do
  let sourceId ← string 255
  let authorDid ← stringOpt 255
  let observedAt ← u64
  let contentDigest ← u64
  let schemaVersion ← u32
  let outcome ← accept (outcomeOf? (← u32))
  let id ← u64
  return ⟨id,observedAt,contentDigest,schemaVersion,outcome,sourceId,authorDid⟩

/-- `atp_decode_ledger`. -/
def decodeLedger (x : Loading) : Decoder Loading := do
  let count ← u64
  fits count ((4+1)+(4+1)+8+8+4+4+8)
  let entries ← many readLedgerEntry count.toNat
  let x := x.reserveLedgerEntries count.toNat
  return {x with entries := x.entries++entries}

def readContext : Decoder ConversationContext := do
  let replyRootUri ← stringOpt 255
  let replyParentUri ← stringOpt 255
  let quoteUri ← stringOpt 255
  return ⟨replyRootUri,replyParentUri,quoteUri⟩

/-- Rows written over the first slots. -/
def overlay {α : Type} : List α → List α → List α
  | row::rows, _::slots => row::overlay rows slots
  | _, slots => slots

/-- `atp_decode_context`. -/
def decodeContext (x : Loading) : Decoder Loading := do
  let count ← u64
  check (count.toNat ≤ x.entries.length)
  fits count (4+1+4+1+4+1)
  let rows ← many readContext count.toNat
  return {x with contexts := overlay rows x.contexts}

/-! ## Valence -/

def valenceKindOf? (word : UInt32) : Option ValenceKind :=
  if word = 1 then some .action
  else if word = 2 then some .interaction
  else if word = 3 then some .approach
  else if word = 4 then some .avoid
  else none

def readValenceRecord (nodeCount : ℕ) (previous : Option ValenceRecord) :
    Decoder ValenceRecord := do
  let nodeIndex ← u32
  check (nodeIndex.toNat < nodeCount)
  check (previous.all fun p => p.nodeIndex < nodeIndex.toNat)
  let valence ← f32
  check (-1 ≤ valence ∧ valence ≤ 1)
  let eventCount ← u64
  check (0 < eventCount)
  let positiveEvents ← u64
  let negativeEvents ← u64
  let lastEventAt ← u64
  return ⟨nodeIndex.toNat,valence,eventCount,positiveEvents,negativeEvents,lastEventAt⟩

def readValenceEvent (nodeCount : ℕ) : Decoder ValenceEvent := do
  let nodeIndex ← u32
  check (nodeIndex.toNat < nodeCount)
  let kind ← accept (valenceKindOf? (← u32))
  let signal ← f32
  check (-1 ≤ signal ∧ signal ≤ 1)
  let atEpoch ← u64
  let sourceId ← stringOpt 255
  return ⟨nodeIndex.toNat,kind,signal,atEpoch,sourceId⟩

/-- `atp_decode_valence`. -/
def decodeValence (x : Loading) : Decoder Loading := do
  let count ← u64
  fits count (4+4+8+8+8+8)
  check (x.graph.valenceRecords = [])
  let records ← chain (readValenceRecord x.graph.nodes.length) count.toNat none
  let eventCount ← u64
  check (eventCount.toNat ≤ valenceEventCapacity)
  let evictions ← u64
  fits eventCount (4+4+4+8+4)
  let events ← many (readValenceEvent x.graph.nodes.length) eventCount.toNat
  return {x with graph := {x.graph with
    valenceRecords := records
    valenceEvents := if eventCount = 0 then x.graph.valenceEvents else events
    valenceEventEvictions := evictions}}

/-! ## Episodes -/

def readEpisodeToken (nodeCount : ℕ) : Decoder EpisodeToken := do
  let nodeIndex ← u32
  check (nodeIndex.toNat < nodeCount)
  let weight ← f32
  return ⟨nodeIndex.toNat,weight⟩

def readEpisode (nodeCount : ℕ) : Decoder Episode := do
  let ledgerId ← u64
  let observedAt ← u64
  let contentDigest ← u64
  let schemaVersion ← u32
  let recallCount ← u64
  let lastRecallAt ← u64
  let tokenCount ← u32
  check (tokenCount.toNat ≤ episodeSummarySize)
  let summary ← many (readEpisodeToken nodeCount) tokenCount.toNat
  let sourceId ← string 255
  let authorDid ← stringOpt 255
  -- There are as many tokens as were counted, so this is the check made above.
  if bounded : summary.length ≤ episodeSummarySize then
    return ⟨ledgerId,observedAt,contentDigest,schemaVersion,recallCount,lastRecallAt,summary,
      sourceId,authorDid,bounded⟩
  else fail .malformed

/-- `atp_decode_episodes`. `atp_reserve_episodes` reserves no more than the maximum. -/
def decodeEpisodes (x : Loading) : Decoder Loading := do
  let count ← u64
  fits count (8+8+8+4+8+8+4+(4+1)+(4+1))
  check (count.toNat ≤ x.graph.episodeMax)
  let episodes ← many (readEpisode x.graph.nodes.length) count.toNat
  return {x with graph := {x.graph with episodes := x.graph.episodes++episodes}}

/-! ## What a section leaves sound -/

/-- What holds of a graph that is being loaded. -/
structure Loading.Sound (x : Loading) : Prop where
  edges : x.graph.WellFormed
  summaries : ∀ e ∈ x.graph.episodes, ∀ t ∈ e.summary, t.nodeIndex < x.graph.nodes.length
  configured : x.graph.episodeMax = x.graph.config.episodeCapacity
  capacity : x.graph.episodes.length ≤ x.graph.config.episodeCapacity
  records : ∀ r ∈ x.graph.valenceRecords, r.nodeIndex < x.graph.nodes.length
  values : ∀ r ∈ x.graph.valenceRecords, -1 ≤ r.valence ∧ r.valence ≤ 1
  sorted : x.graph.valenceRecords.Pairwise fun a b => a.nodeIndex < b.nodeIndex
  events : ∀ e ∈ x.graph.valenceEvents, e.nodeIndex < x.graph.nodes.length
  contexts : x.entries.length ≤ x.contexts.length
  valid : ∀ m ∈ x.graph.neuralMigrations, m.valid = true
  continued : x.graph.neuralMigrations.IsChain fun a b =>
    a.ledgerBoundaryId ≤ b.ledgerBoundaryId ∧ a.target = b.source
  arrived : ∀ m ∈ x.graph.neuralMigrations.getLast?, m.target = x.graph.neuralArchitecture

/-- What the sections but those of the ledger and the episodes leave alone. -/
structure Loading.Keeps (x y : Loading) : Prop where
  entries : y.entries = x.entries
  episodes : y.graph.episodes = x.graph.episodes

section Decoding
variable {x : Loading}

theorem within_fits (count : UInt64) (size : ℕ) : Within (fits count size) fun _ => True :=
  within_remaining.bind fun _ _ => within_check.mono fun _ _ => trivial

theorem growCapacity_le (needed : ℕ) {fuel capacity : ℕ} (hpos : 0 < capacity)
    (h : needed ≤ capacity+fuel) : needed ≤ growCapacity needed fuel capacity := by
  induction fuel generalizing capacity with
  | zero => exact h
  | succ fuel ih =>
      unfold growCapacity
      split
      · exact ih (by omega) (by omega)
      · omega

theorem reserveLedgerEntries_contexts (needed : ℕ) (h : x.entries = []) :
    needed ≤ (x.reserveLedgerEntries needed).contexts.length := by
  unfold Loading.reserveLedgerEntries
  split
  · assumption
  · have hpos : 0 < if x.contexts.length = 0 then 16 else x.contexts.length := by
      split <;> omega
    have hgrown := growCapacity_le needed hpos (Nat.le_add_left needed _)
    simpa [h] using hgrown

theorem overlay_length {α : Type} (rows slots : List α) :
    (overlay rows slots).length = slots.length := by
  induction rows generalizing slots with
  | nil => rfl
  | cons row rows ih =>
      cases slots with
      | nil => rfl
      | cons slot slots => exact congrArg Nat.succ (ih slots)

/-! ### Rows -/

theorem within_readEdge (n : ℕ) :
    Within (readEdge n) fun e => e.source < n ∧ e.target < n := by
  refine within_u32.bind fun source _ => within_u32.bind fun target _ => ?_
  refine within_u64.bind fun _ _ => within_u64.bind fun _ _ => within_f32.bind fun _ _ => ?_
  refine within_check.bind fun _ hsource => within_check.bind fun _ htarget => within_pure ?_
  exact ⟨of_decide_eq_true hsource,of_decide_eq_true htarget⟩

theorem within_readCoordinate (withImportance : Bool) :
    Within (readCoordinate withImportance) fun _ => True := by
  refine within_f32.bind fun _ _ => ?_
  cases withImportance with
  | true => exact within_f32.bind fun _ _ => within_pure trivial
  | false => exact within_pure trivial

theorem within_readNode (withImportance : Bool) (dimension : ℕ) :
    Within (readNode withImportance dimension) fun _ => True := by
  refine (within_string 95).bind fun _ _ => within_u64.bind fun _ _ => ?_
  refine within_f32.bind fun _ _ => ?_
  exact (within_many (within_readCoordinate withImportance) dimension).bind fun _ _ =>
    within_pure trivial

theorem within_readLedgerEntry : Within readLedgerEntry fun _ => True := by
  refine (within_string 255).bind fun _ _ => (within_stringOpt 255).bind fun _ _ => ?_
  refine within_u64.bind fun _ _ => within_u64.bind fun _ _ => within_u32.bind fun _ _ => ?_
  refine within_u32.bind fun _ _ => within_accept.bind fun _ _ => ?_
  exact within_u64.bind fun _ _ => within_pure trivial

theorem within_readContext : Within readContext fun _ => True :=
  (within_stringOpt 255).bind fun _ _ => (within_stringOpt 255).bind fun _ _ =>
    (within_stringOpt 255).bind fun _ _ => within_pure trivial

/-- A record is of a node, behind the record before it, and has a value in range. -/
theorem within_readValenceRecord (n : ℕ) (previous : Option ValenceRecord) :
    Within (readValenceRecord n previous) fun r =>
      (r.nodeIndex < n ∧ -1 ≤ r.valence ∧ r.valence ≤ 1) ∧
        ∀ p ∈ previous, p.nodeIndex < r.nodeIndex := by
  refine within_u32.bind fun _ _ => within_check.bind fun _ hnode => ?_
  refine within_check.bind fun _ hprevious => within_f32.bind fun _ _ => ?_
  refine within_check.bind fun _ hvalue => within_u64.bind fun _ _ => ?_
  refine within_check.bind fun _ _ => within_u64.bind fun _ _ => ?_
  refine within_u64.bind fun _ _ => within_u64.bind fun _ _ => within_pure ?_
  refine ⟨⟨of_decide_eq_true hnode,of_decide_eq_true hvalue⟩,fun p hp => ?_⟩
  cases hp
  exact of_decide_eq_true hprevious

theorem within_readValenceEvent (n : ℕ) :
    Within (readValenceEvent n) fun e => e.nodeIndex < n := by
  refine within_u32.bind fun _ _ => within_check.bind fun _ hnode => ?_
  refine within_u32.bind fun _ _ => within_accept.bind fun _ _ => within_f32.bind fun _ _ => ?_
  refine within_check.bind fun _ _ => within_u64.bind fun _ _ => ?_
  exact (within_stringOpt 255).bind fun _ _ => within_pure (of_decide_eq_true hnode)

theorem within_readEpisodeToken (n : ℕ) :
    Within (readEpisodeToken n) fun t => t.nodeIndex < n :=
  within_u32.bind fun _ _ => within_check.bind fun _ hnode => within_f32.bind fun _ _ =>
    within_pure (of_decide_eq_true hnode)

theorem within_readEpisode (n : ℕ) :
    Within (readEpisode n) fun e => ∀ t ∈ e.summary, t.nodeIndex < n := by
  refine within_u64.bind fun _ _ => within_u64.bind fun _ _ => within_u64.bind fun _ _ => ?_
  refine within_u32.bind fun _ _ => within_u64.bind fun _ _ => within_u64.bind fun _ _ => ?_
  refine within_u32.bind fun _ _ => within_check.bind fun _ _ => ?_
  refine (within_many (within_readEpisodeToken n) _).bind fun summary hsummary => ?_
  refine (within_string 255).bind fun _ _ => (within_stringOpt 255).bind fun _ _ => ?_
  split
  · exact within_pure hsummary.2
  · exact within_refused trivial

/-! ### Sections -/

theorem within_decodeEdges (hx : x.Sound) :
    Within (decodeEdges x) fun y => y.Sound ∧ x.Keeps y := by
  refine within_u64.bind fun _ _ => (within_fits _ _).bind fun _ _ => ?_
  refine (within_many (within_readEdge _) _).bind fun edges hedges => within_pure ?_
  refine ⟨{hx with edges := fun e he => ?_},rfl,rfl⟩
  rcases List.mem_append.mp he with hold | hnew
  · exact hx.edges e hold
  · exact hedges.2 e hnew

/-- More nodes invalidate no index. -/
theorem Loading.Sound.grow (hx : x.Sound) (nodes : List Node) :
    Loading.Sound {x with graph := {x.graph with nodes := x.graph.nodes++nodes}} where
  edges e he := by
    have h := hx.edges e he
    simp only [List.length_append]
    omega
  summaries e he t ht := by
    have h := hx.summaries e he t ht
    simp only [List.length_append]
    omega
  configured := hx.configured
  capacity := hx.capacity
  records r hr := by
    have h := hx.records r hr
    simp only [List.length_append]
    omega
  values := hx.values
  sorted := hx.sorted
  events e he := by
    have h := hx.events e he
    simp only [List.length_append]
    omega
  contexts := hx.contexts
  valid := hx.valid
  continued := hx.continued
  arrived := hx.arrived

theorem within_decodeNodes (hx : x.Sound) (withImportance : Bool) :
    Within (decodeNodes withImportance x) fun y => y.Sound ∧ x.Keeps y := by
  refine within_u64.bind fun _ _ => (within_fits _ _).bind fun _ _ => ?_
  refine (within_many (within_readNode _ _) _).bind fun nodes _ => within_pure ?_
  exact ⟨hx.grow nodes,rfl,rfl⟩

theorem Loading.Sound.reserve (hx : x.Sound) (needed : ℕ) (h : x.entries = []) :
    (x.reserveLedgerEntries needed).Sound ∧ (x.reserveLedgerEntries needed).entries = [] ∧
      (x.reserveLedgerEntries needed).graph = x.graph := by
  unfold Loading.reserveLedgerEntries
  split
  · exact ⟨hx,h,rfl⟩
  · exact ⟨{hx with contexts := by simp [h]},h,rfl⟩

/-- The entries get a slot each, where there were none before. -/
theorem within_decodeLedger (hx : x.Sound) (h : x.entries = []) :
    Within (decodeLedger x) fun y => y.Sound ∧ y.graph.episodes = x.graph.episodes := by
  refine within_u64.bind fun count _ => (within_fits _ _).bind fun _ _ => ?_
  refine (within_many within_readLedgerEntry _).bind fun entries hentries => within_pure ?_
  obtain ⟨hsound,hnone,hgraph⟩ := hx.reserve count.toNat h
  refine ⟨{hsound with contexts := ?_},by rw [hgraph]⟩
  have hroom := reserveLedgerEntries_contexts count.toNat h
  simpa [hnone,hentries.1] using hroom

theorem within_decodeContext (hx : x.Sound) :
    Within (decodeContext x) fun y => y.Sound ∧ x.Keeps y := by
  refine within_u64.bind fun _ _ => within_check.bind fun _ _ => ?_
  refine (within_fits _ _).bind fun _ _ => ?_
  refine (within_many within_readContext _).bind fun rows _ => within_pure ?_
  refine ⟨{hx with contexts := ?_},rfl,rfl⟩
  rw [overlay_length]
  exact hx.contexts

theorem within_decodeValence (hx : x.Sound) :
    Within (decodeValence x) fun y => y.Sound ∧ x.Keeps y := by
  refine within_u64.bind fun _ _ => (within_fits _ _).bind fun _ _ => ?_
  refine within_check.bind fun _ _ => ?_
  refine (within_chain (R := fun a b => a.nodeIndex < b.nodeIndex)
    (fun previous => within_readValenceRecord _ previous) _ none).bind fun records hrecords => ?_
  refine within_u64.bind fun count _ => within_check.bind fun _ _ => ?_
  refine within_u64.bind fun _ _ => (within_fits _ _).bind fun _ _ => ?_
  refine (within_many (within_readValenceEvent _) _).bind fun events hevents => within_pure ?_
  refine ⟨{hx with
    records := fun r hr => (hrecords.2.1 r hr).1
    values := fun r hr => (hrecords.2.1 r hr).2
    sorted := hrecords.2.2.pairwise
    events := fun e he => ?_},rfl,rfl⟩
  split at he
  · exact hx.events e he
  · exact hevents.2 e he

theorem within_decodeEpisodes (hx : x.Sound) (h : x.graph.episodes = []) :
    Within (decodeEpisodes x) fun y => y.Sound ∧ y.entries = x.entries := by
  refine within_u64.bind fun _ _ => (within_fits _ _).bind fun _ _ => ?_
  refine within_check.bind fun _ hcount => ?_
  refine (within_many (within_readEpisode _) _).bind fun episodes hepisodes => within_pure ?_
  refine ⟨{hx with summaries := fun e he => ?_,capacity := ?_},rfl⟩
  · rcases List.mem_append.mp he with hold | hnew
    · exact hx.summaries e hold
    · exact hepisodes.2 e hnew
  · have hle := of_decide_eq_true hcount
    simpa [h,hepisodes.1,← hx.configured] using hle

end Decoding

end Atperson.Snapshot
