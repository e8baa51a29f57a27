import Atperson.Ledger.Types

/-!
# Graph data model

The learning state of one graph. The canonical arrays are lists; the open-addressing
indexes over nodes and edges are derived from them and left to `findNode` and `findEdge`,
which search the arrays. Floats are the IEEE types of the language. The group index is
derived too, but a failed allocation can leave it out of step with the episodes, so it is
part of the state.
-/
namespace Atperson.Core
open Wire
open Ledger (Status LedgerEntry ConversationContext)

/-- A text argument: the content of a C string, whose length is a `size_t`. -/
abbrev Text := CText (2^64)

def tokenBytes : ℕ := 96
def episodeSummarySize : ℕ := 8
def episodeDefaultCapacity : ℕ := 4096
def groupTokenMax : ℕ := 32
def valenceEventCapacity : ℕ := 1024
def maxHiddenLayers : ℕ := 4
def embeddingDim : ℕ := 16
def hiddenDim : ℕ := 16

abbrev Token := CText tokenBytes
abbrev SourceId := CText Ledger.sourceBytes
abbrev AuthorDid := CText Ledger.authorBytes

/-! ## Configuration and topology -/

structure GraphConfig where
  seed : UInt64
  learningRate : Float32
  familiarityDecay : Float32
  valenceRate : Float32
  episodeCapacity : ℕ
  nodeCapacityMax : ℕ
  edgeCapacityMax : ℕ
  enablePlasticityControl : Bool
  plasticityThreshold : Float32
  plasticityScale : Float32
  deriving DecidableEq

structure Architecture where
  version : UInt32
  embeddingDim : ℕ
  inputDim : ℕ
  hiddenLayerCount : ℕ
  hiddenWidths : Vector ℕ maxHiddenLayers
  outputDim : ℕ
  deriving DecidableEq

structure Migration where
  version : UInt32
  seed : UInt64
  ledgerBoundaryId : UInt64
  source : Architecture
  target : Architecture
  deriving DecidableEq

/-- Where one dense layer lies in the flat parameter arrays. -/
structure LayerShape where
  inputWidth : ℕ
  outputWidth : ℕ
  weightOffset : ℕ
  biasOffset : ℕ
  deriving DecidableEq

structure Layout where
  layers : List LayerShape
  weightCount : ℕ
  biasCount : ℕ
  deriving DecidableEq

structure Network where
  layout : Layout
  weights : List Float32
  biases : List Float32
  weightImportance : List Float32
  biasImportance : List Float32
  deriving DecidableEq

/-! ## Vocabulary, memory and valence -/

structure Node where
  token : Token
  observations : UInt64
  familiarity : Float32
  embedding : List Float32
  embeddingImportance : List Float32
  deriving DecidableEq

structure Edge where
  source : ℕ
  target : ℕ
  observations : UInt64
  lastSourceHash : UInt64
  strength : Float32
  deriving DecidableEq

structure EpisodeToken where
  nodeIndex : ℕ
  weight : Float32
  deriving DecidableEq

structure Episode where
  ledgerId : UInt64
  observedAt : UInt64
  contentDigest : UInt64
  schemaVersion : UInt32
  recallCount : UInt64
  lastRecallAt : UInt64
  summary : List EpisodeToken
  sourceId : SourceId
  authorDid : AuthorDid
  bounded : summary.length ≤ episodeSummarySize
  deriving DecidableEq

structure EpisodeGroup where
  key : UInt64
  tokens : List ℕ
  evictions : UInt64
  deriving DecidableEq

/-- The derived group index. `members` is the allocated part of `episode_group_ids`: a cell
that was never written holds `none`, and reads as anything. -/
structure GroupIndex where
  groups : List EpisodeGroup
  groupCapacity : ℕ
  tableCapacity : ℕ
  members : List (Option ℕ)
  deriving DecidableEq

structure ValenceRecord where
  nodeIndex : ℕ
  valence : Float32
  eventCount : UInt64
  positiveEvents : UInt64
  negativeEvents : UInt64
  lastEventAt : UInt64
  deriving DecidableEq

inductive ValenceKind where
  | action | interaction | approach | avoid
  deriving DecidableEq

structure ValenceEvent where
  nodeIndex : ℕ
  kind : ValenceKind
  signal : Float32
  atEpoch : UInt64
  sourceId : SourceId
  deriving DecidableEq

/-- One entry of the ledger mirror: `ledger_entries` and `ledger_contexts`. -/
structure Mirrored where
  entry : LedgerEntry
  context : ConversationContext
  deriving DecidableEq

structure Graph where
  config : GraphConfig
  rngState : UInt64
  nodes : List Node
  edges : List Edge
  neuralArchitecture : Architecture
  network : Network
  neuralMigrations : List Migration
  ledger : List Mirrored
  episodes : List Episode
  episodeMax : ℕ
  episodeEvictions : UInt64
  index : GroupIndex
  valenceRecords : List ValenceRecord
  valenceEvents : List ValenceEvent
  valenceEventEvictions : UInt64
  observations : UInt64
  tokenObservations : UInt64
  trainingSteps : UInt64
  lossTotal : Float
  capacityRejections : UInt64
  plasticityStepsTotal : UInt64
  plasticityStepsProtected : UInt64
  plasticityParametersProtected : UInt64
  deriving DecidableEq

namespace Graph

def findNode (g : Graph) (token : Token) : Option ℕ := g.nodes.findIdx? fun n => n.token = token

def findEdge (g : Graph) (source target : ℕ) : Option ℕ :=
  g.edges.findIdx? fun e => e.source = source ∧ e.target = target

/-- Every edge joins two nodes of the graph. -/
def WellFormed (g : Graph) : Prop :=
  ∀ e ∈ g.edges, e.source < g.nodes.length ∧ e.target < g.nodes.length

end Graph

end Atperson.Core
