import Atperson.Snapshot.Load

/-!
# Saving a snapshot

The images the encoders write. A graph without migrations is saved in version 5 if its
topology is the legacy one and in version 6 otherwise; one with migrations in version 7. What
the sections share is written here once.
-/
namespace Atperson.Snapshot
open Wire
open Atperson.Core
open Ledger (LedgerEntry ConversationContext)

/-! ## Fields -/

def putF32 (f : Float32) : Bytes := storeU32 f.toBits

def putF64 (f : Float) : Bytes := storeU64 f.toBits

/-- `atp_buffer_string_opt`. -/
def putStringOpt (text : Bytes) : Bytes := storeU32 (UInt32.ofNat text.length)++text

/-- `atp_buffer_string`, which writes no empty text. -/
def putString (text : Bytes) : Option Bytes := if text = [] then none else some (putStringOpt text)

def putU32 (n : ℕ) : Bytes := storeU32 (UInt32.ofNat n)

def putU64 (n : ℕ) : Bytes := storeU64 (UInt64.ofNat n)

/-- A count and its rows. -/
def putRows {α : Type} (row : α → Bytes) (rows : List α) : Bytes :=
  putU64 rows.length++rows.flatMap row

/-- A count and its rows, where a row can fail. -/
def putRows? {α : Type} (row : α → Option Bytes) (rows : List α) : Option Bytes :=
  (rows.mapM row).map fun encoded => putU64 rows.length++encoded.flatten

/-- A section of an image: its tag and its payload. -/
structure Part where
  tag : Tag
  payload : Bytes

def Part.encode (p : Part) : Bytes :=
  putU32 p.tag.number++putU64 p.payload.length++p.payload

/-! ## Shared sections -/

def putEdge (e : Edge) : Bytes :=
  putU32 e.source++putU32 e.target++storeU64 e.observations++storeU64 e.lastSourceHash++
    putF32 e.strength

/-- `atp_encode_edges`. -/
def encodeEdges (g : Graph) : Bytes := putRows putEdge g.edges

def wordOfOutcome (o : Ledger.Outcome) : ℕ := o.toByte.toNat

def putLedgerEntry (m : Mirrored) : Option Bytes := do
  let source ← putString m.entry.sourceId.bytes
  return source++putStringOpt m.entry.authorDid.bytes++storeU64 m.entry.observedAt++
    storeU64 m.entry.contentDigest++storeU32 m.entry.schemaVersion++
    putU32 (wordOfOutcome m.entry.outcome)++storeU64 m.entry.id

/-- `atp_encode_ledger`. -/
def encodeLedger (g : Graph) : Option Bytes := putRows? putLedgerEntry g.ledger

def putContext (m : Mirrored) : Bytes :=
  putStringOpt m.context.replyRootUri.bytes++putStringOpt m.context.replyParentUri.bytes++
    putStringOpt m.context.quoteUri.bytes

/-- `atp_encode_context`. -/
def encodeContext (g : Graph) : Bytes := putRows putContext g.ledger

def putValenceRecord (r : ValenceRecord) : Bytes :=
  putU32 r.nodeIndex++putF32 r.valence++storeU64 r.eventCount++storeU64 r.positiveEvents++
    storeU64 r.negativeEvents++storeU64 r.lastEventAt

def wordOfKind : ValenceKind → ℕ
  | .action => 1
  | .interaction => 2
  | .approach => 3
  | .avoid => 4

def putValenceEvent (e : ValenceEvent) : Bytes :=
  putU32 e.nodeIndex++putU32 (wordOfKind e.kind)++putF32 e.signal++storeU64 e.atEpoch++
    putStringOpt e.sourceId.bytes

/-- `atp_encode_valence`. -/
def encodeValence (g : Graph) : Bytes :=
  putRows putValenceRecord g.valenceRecords++(putU64 g.valenceEvents.length++
    (storeU64 g.valenceEventEvictions++g.valenceEvents.flatMap putValenceEvent))

/-- `atp_encode_schema`. -/
def encodeSchema : Bytes := storeU32 Ledger.schemaVersion

def putCoordinate (withImportance : Bool) (c : Float32×Float32) : Bytes :=
  putF32 c.1++if withImportance then putF32 c.2 else []

/-- The coordinates of a node, up to the dimension of the graph. -/
def coordinates (dimension : ℕ) (n : Node) : List (Float32×Float32) :=
  (List.range dimension).map fun d => (n.embedding.getD d 0,n.embeddingImportance.getD d 0)

def putNode (withImportance : Bool) (dimension : ℕ) (n : Node) : Option Bytes := do
  let token ← putString n.token.bytes
  return token++(storeU64 n.observations++(putF32 n.familiarity++
    (coordinates dimension n).flatMap (putCoordinate withImportance)))

/-- `atp_encode_nodes`. -/
def encodeNodes (withImportance : Bool) (g : Graph) : Option Bytes :=
  putRows? (putNode withImportance g.neuralArchitecture.embeddingDim) g.nodes

def putEpisodeToken (t : EpisodeToken) : Bytes := putU32 t.nodeIndex++putF32 t.weight

def putEpisode (e : Episode) : Option Bytes := do
  let source ← putString e.sourceId.bytes
  return storeU64 e.ledgerId++storeU64 e.observedAt++storeU64 e.contentDigest++
    storeU32 e.schemaVersion++storeU64 e.recallCount++storeU64 e.lastRecallAt++
    putU32 e.summary.length++e.summary.flatMap putEpisodeToken++source++
    putStringOpt e.authorDid.bytes

/-- `atp_encode_episodes`. -/
def encodeEpisodes (g : Graph) : Option Bytes := putRows? putEpisode g.episodes

/-! ## Headers, topology and networks -/

/-- `atp_encode_header_v6`. -/
def encodeHeaderV6 (g : Graph) : Bytes :=
  storeU64 g.config.seed++putF32 g.config.learningRate++putF32 g.config.familiarityDecay++
    putU32 g.config.episodeCapacity++storeU64 g.rngState++storeU64 g.observations++
    storeU64 g.tokenObservations++storeU64 g.trainingSteps++putF64 g.lossTotal++
    storeU64 g.episodeEvictions

/-- `atp_encode_header`. -/
def encodeHeader (g : Graph) : Bytes :=
  putU32 g.neuralArchitecture.embeddingDim++
    putU32 (g.neuralArchitecture.hiddenWidths.toList.headD 0)++
    putU32 g.neuralArchitecture.inputDim++encodeHeaderV6 g

/-- `atp_encode_architecture_fields`. -/
def putArchitecture (a : Architecture) : Bytes :=
  storeU32 a.version++putU32 a.embeddingDim++putU32 a.inputDim++putU32 a.outputDim++
    putU32 a.hiddenLayerCount++a.hiddenWidths.toList.flatMap putU32

/-- `atp_encode_arch`. -/
def encodeArch (g : Graph) : Bytes := putArchitecture g.neuralArchitecture

def putMigration (m : Migration) : Option Bytes :=
  if m.valid then
    some (storeU32 m.version++storeU64 m.seed++storeU64 m.ledgerBoundaryId++
      putArchitecture m.source++putArchitecture m.target)
  else none

/-- `atp_encode_migrations`. -/
def encodeMigrations (g : Graph) : Option Bytes :=
  if g.neuralMigrations = [] then none else putRows? putMigration g.neuralMigrations

/-- The weights of a layer, row by row. -/
def layerWeights (weights : List Float32) (layer : LayerShape) : List Float32 :=
  (List.range layer.outputWidth).flatMap fun o =>
    (List.range layer.inputWidth).map fun i => weights.getD (layer.weightIndex o i) 0

def layerBiases (biases : List Float32) (layer : LayerShape) : List Float32 :=
  (List.range layer.outputWidth).map fun o => biases.getD (layer.biasIndex o) 0

/-- `atp_encode_network`: the parameters of the first layer and of the output. -/
def encodeNetwork (g : Graph) : Bytes :=
  let network := g.network
  let first := network.layout.layers.headD ⟨0,0,0,0⟩
  let output := network.layout.layers.getLastD ⟨0,0,0,0⟩
  (layerWeights network.weights first).flatMap putF32++
    (layerBiases network.biases first).flatMap putF32++
    ((List.range first.outputWidth).map fun h =>
      network.weights.getD (output.weightIndex 0 h) 0).flatMap putF32++
    putF32 (network.biases.getD (output.biasIndex 0) 0)

/-- `atp_encode_network_v6`. -/
def encodeNetworkV6 (g : Graph) : Bytes :=
  let network := g.network
  let putLayer (weights biases : List Float32) (layer : LayerShape) : Bytes :=
    (layerWeights weights layer).flatMap putF32++(layerBiases biases layer).flatMap putF32
  putU32 network.layout.layers.length++
    network.layout.layers.flatMap (putLayer network.weights network.biases)++
    network.layout.layers.flatMap (putLayer network.weightImportance network.biasImportance)

/-! ## Images -/

/-- The sections behind the nodes, which all versions have. -/
def tailParts (g : Graph) : Option (List Part) := do
  let ledger ← encodeLedger g
  let episodes ← encodeEpisodes g
  return [⟨.edges,encodeEdges g⟩,⟨.ledger,ledger⟩,⟨.context,encodeContext g⟩,
    ⟨.episodes,episodes⟩,⟨.valence,encodeValence g⟩,⟨.schema,encodeSchema⟩]

/-- The sections of version 5. -/
def partsV5 (g : Graph) : Option (List Part) := do
  let nodes ← encodeNodes false g
  let parts ← tailParts g
  return ⟨.header,encodeHeader g⟩::⟨.network,encodeNetwork g⟩::⟨.nodes,nodes⟩::parts

/-- The sections of version 6. -/
def partsV6 (g : Graph) : Option (List Part) := do
  let nodes ← encodeNodes true g
  let parts ← tailParts g
  return ⟨.header,encodeHeaderV6 g⟩::⟨.arch,encodeArch g⟩::⟨.network,encodeNetworkV6 g⟩::
    ⟨.nodes,nodes⟩::parts

/-- The sections of version 7. -/
def partsV7 (g : Graph) : Option (List Part) := do
  let migrations ← encodeMigrations g
  let nodes ← encodeNodes true g
  let parts ← tailParts g
  return ⟨.header,encodeHeaderV6 g⟩::⟨.arch,encodeArch g⟩::⟨.migrations,migrations⟩::
    ⟨.network,encodeNetworkV6 g⟩::⟨.nodes,nodes⟩::parts

/-- The largest capacity `atp_buffer_reserve` doubles a buffer to. -/
def bufferMax : ℕ := 2^63

/-- An image: magic, version and sections, with the digest of it all behind. -/
def sealImage (digit : UInt8) (version : UInt32) (parts : List Part) : Option Bytes :=
  let content := magicOf digit++storeU32 version++parts.flatMap Part.encode
  let image := content++storeU64 (fnv1a64 content)
  if image.length ≤ bufferMax then some image else none

/-- The image `atp_graph_save` writes, if the graph can be encoded. -/
def graphSave (g : Graph) : Option Bytes :=
  if g.neuralMigrations ≠ [] then partsV7 g >>= sealImage 7 7
  else if g.neuralArchitecture = .legacy then partsV5 g >>= sealImage 5 5
  else partsV6 g >>= sealImage 6 6

end Atperson.Snapshot
