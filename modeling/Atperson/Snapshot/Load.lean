import Atperson.Snapshot.Sections
import Atperson.Core.Replay

/-!
# Loading a snapshot

The loaders of the four versions. From version 5 on an image is a walk over sections between
a header and a digest; version 4 is one flat record. Either an image is rejected, or what is
loaded from it is sound, and nothing beyond its end is read on the way.
-/
namespace Atperson.Snapshot
open Wire ImageReader
open Atperson.Core
open Ledger (Status LedgerEntry ConversationContext)

/-! ## Headers -/

structure Counters where
  rngState : UInt64
  observations : UInt64
  tokenObservations : UInt64
  trainingSteps : UInt64
  lossTotal : Float
  episodeEvictions : UInt64

def Counters.zero : Counters := ⟨0,0,0,0,0,0⟩

def Counters.restore (c : Counters) (g : Graph) : Graph :=
  {g with
    rngState := c.rngState
    observations := c.observations
    tokenObservations := c.tokenObservations
    trainingSteps := c.trainingSteps
    lossTotal := c.lossTotal
    episodeEvictions := c.episodeEvictions}

structure Header where
  config : GraphConfig
  counters : Counters

/-- A zeroed configuration. -/
def blankConfig : GraphConfig := ⟨0,0,0,0,0,0,0,false,0,0⟩

/-- The seed and the rates, as all headers have them. -/
def readRates : Decoder GraphConfig := do
  let seed ← u64
  let learningRate ← f32
  let familiarityDecay ← f32
  check (0 < familiarityDecay ∧ familiarityDecay < 1)
  return {blankConfig with seed,learningRate,familiarityDecay}

def readCounters : Decoder Counters := do
  let rngState ← u64
  let observations ← u64
  let tokenObservations ← u64
  let trainingSteps ← u64
  let lossTotal ← f64
  return ⟨rngState,observations,tokenObservations,trainingSteps,lossTotal,0⟩

/-- `atp_decode_header_v6`. -/
def decodeHeaderV6 : Decoder Header := do
  let config ← readRates
  let episodeCapacity ← u32
  check (0 < episodeCapacity)
  let counters ← readCounters
  let episodeEvictions ← u64
  return ⟨{config with episodeCapacity := episodeCapacity.toNat},
    {counters with episodeEvictions}⟩

/-- `atp_decode_header`: the fixed widths lead. -/
def decodeHeader : Decoder Header := do
  let embeddingDim ← u32
  check (embeddingDim.toNat = Architecture.legacy.embeddingDim)
  let hiddenDim ← u32
  check (hiddenDim.toNat = Architecture.legacy.hiddenWidths.toList.headD 0)
  let inputDim ← u32
  check (inputDim.toNat = Architecture.legacy.inputDim)
  decodeHeaderV6

/-! ## Topology -/

/-- `atp_decode_architecture_fields`. -/
def decodeArchitecture : Decoder Architecture := do
  let version ← u32
  check (version = architectureVersion)
  let embeddingDim ← u32
  let inputDim ← u32
  let outputDim ← u32
  let hiddenLayerCount ← u32
  check (hiddenLayerCount.toNat ≤ maxHiddenLayers)
  let widths ← many u32 maxHiddenLayers
  let architecture : Architecture := {
    version
    embeddingDim := embeddingDim.toNat
    inputDim := inputDim.toNat
    outputDim := outputDim.toNat
    hiddenLayerCount := hiddenLayerCount.toNat
    hiddenWidths := .ofFn fun i => (widths.getD i 0).toNat }
  check (layoutBuild architecture).isSome
  return architecture

/-- A migration, with what it is checked for against the one before it. -/
def readMigration (previous : Option Migration) : Decoder Migration := do
  let version ← u32
  let seed ← u64
  let ledgerBoundaryId ← u64
  let source ← decodeArchitecture
  let target ← decodeArchitecture
  let migration : Migration := ⟨version,seed,ledgerBoundaryId,source,target⟩
  check migration.valid
  check (previous.all fun p =>
    p.ledgerBoundaryId ≤ migration.ledgerBoundaryId && p.target = migration.source)
  return migration

/-- `atp_decode_migrations`. -/
def decodeMigrations (x : Loading) : Decoder Loading := do
  check (x.graph.neuralMigrations = [])
  let count ← u64
  check (count ≠ 0)
  let history ← chain readMigration count.toNat none
  check (history.getLast?.all fun m => m.target = x.graph.neuralArchitecture)
  return {x with graph := {x.graph with neuralMigrations := history}}

/-! ## Networks

The layers of the flat arrays lie one behind another, so that reading them in the order of
their indexes is reading the arrays from front to back. -/

/-- `atp_decode_network`: the parameters of the first layer and of the output. -/
def decodeNetwork (x : Loading) : Decoder Loading := do
  let network := x.graph.network
  let first := network.layout.layers.headD ⟨0,0,0,0⟩
  let weights ← many f32 (first.outputWidth*first.inputWidth)
  let biases ← many f32 first.outputWidth
  let outputWeights ← many f32 first.outputWidth
  let outputBias ← f32
  return {x with graph := {x.graph with network := {network with
    weights := weights++outputWeights
    biases := biases++[outputBias]}}}

def readLayer (layer : LayerShape) : Decoder (List Float32×List Float32) := do
  let weights ← many f32 (layer.outputWidth*layer.inputWidth)
  let biases ← many f32 layer.outputWidth
  return (weights,biases)

/-- `atp_decode_network_v6`. -/
def decodeNetworkV6 (x : Loading) : Decoder Loading := do
  let layers := x.graph.network.layout.layers
  let layerCount ← u32
  check (layerCount.toNat = layers.length)
  let values ← layers.mapM readLayer
  let importance ← layers.mapM readLayer
  return {x with graph := {x.graph with network := {x.graph.network with
    weights := values.flatMap Prod.fst
    biases := values.flatMap Prod.snd
    weightImportance := importance.flatMap Prod.fst
    biasImportance := importance.flatMap Prod.snd}}}

/-! ## The walk -/

/-- The sections a loader knows. Tag 7 is not among them. -/
inductive Tag where
  | header | network | nodes | edges | ledger | episodes | schema | valence | context | arch
  | migrations
  deriving DecidableEq

def Tag.number : Tag → ℕ
  | .header => 1
  | .network => 2
  | .nodes => 3
  | .edges => 4
  | .ledger => 5
  | .episodes => 6
  | .schema => 8
  | .valence => 9
  | .context => 10
  | .arch => 11
  | .migrations => 12

def Tag.all : List Tag :=
  [.header,.network,.nodes,.edges,.ledger,.episodes,.schema,.valence,.context,.arch,.migrations]

def Tag.ofWord? (word : UInt32) : Option Tag := Tag.all.find? fun t => t.number = word.toNat

/-- Where a walk over the sections stands. -/
structure Walk where
  seen : List ℕ
  loading : Option Loading
  pending : Header
  schema : UInt32

namespace Walk

def start : Walk := ⟨[],none,⟨blankConfig,.zero⟩,1⟩

def has (w : Walk) (t : Tag) : Bool := t.number ∈ w.seen

/-- A tracked tag may come once. -/
def note (maxTag : ℕ) (w : Walk) (word : UInt32) : Option Walk :=
  if word.toNat ≠ 0 ∧ word.toNat ≤ maxTag then
    if word.toNat ∈ w.seen then none else some {w with seen := word.toNat::w.seen}
  else some w

/-- A section of a graph that there must be already. -/
def decode (w : Walk) (read : Loading → Decoder Loading) : Decoder Walk := do
  let x ← accept w.loading
  let x ← read x
  return {w with loading := some x}

def decodeSchema (w : Walk) : Decoder Walk := do
  let schema ← u32
  check (0 < schema)
  return {w with schema}

/-- Go on with a graph that was just created, or end with a fault. -/
def create (w : Walk) (f : ReadFault Status) (c : Counters) : Option Graph → Decoder Walk
  | none => fail f
  | some g => return {w with loading := some (.of (c.restore g))}

/-- The sections all loaders read the same way. -/
def decodeShared (w : Walk) : Tag → Option (Decoder Walk)
  | .edges => some (w.decode decodeEdges)
  | .ledger => some (w.decode decodeLedger)
  | .context => some do
      check (w.has .ledger)
      w.decode decodeContext
  | .episodes => some (w.decode decodeEpisodes)
  | .valence => some do
      check (w.has .nodes)
      w.decode decodeValence
  | .schema => some w.decodeSchema
  | _ => none

/-- The header of version 5 has the graph created at once. -/
def openV5 (w : Walk) : Decoder Walk := do
  let h ← decodeHeader
  w.create (.refused .outOfMemory) h.counters (createGraph h.config)

/-- The switch of `atp_load_v5`. -/
def decodeV5 (w : Walk) : Tag → Option (Decoder Walk)
  | .header => some w.openV5
  | .network => some (w.decode decodeNetwork)
  | .nodes => some (w.decode (decodeNodes false))
  | tag => w.decodeShared tag

/-- The switch of `atp_load_explicit`. -/
def decodeExplicit (requireMigrations : Bool) (w : Walk) : Tag → Option (Decoder Walk)
  | .header => some do
      let pending ← decodeHeaderV6
      return {w with pending}
  | .arch => some do
      check (w.has .header && w.loading.isNone)
      let architecture ← decodeArchitecture
      w.create .malformed w.pending.counters
        (createWithArchitecture w.pending.config architecture)
  | .migrations => some do
      check (requireMigrations && w.has .arch && !w.has .network)
      w.decode decodeMigrations
  | .network => some (w.decode decodeNetworkV6)
  | .nodes => some (w.decode (decodeNodes true))
  | tag => w.decodeShared tag

end Walk

/-- `atp_episode_groups_rebuild`, the last step of every loader. -/
def rebuildGroups (allocs : Allocs) (x : Loading) : Decoder Loading :=
  match x.graph.index.rebuild allocs x.graph.episodes with
  | (index,_,true) => pure {x with graph := {x.graph with index}}
  | (_,_,false) => fail (.refused .outOfMemory)

/-- `atp_load_finish`: every section of the mask was seen. -/
def loadFinish (allocs : Allocs) (requiredMask : ℕ) (w : Walk) : Decoder Loading := do
  let x ← accept w.loading
  check ((List.range 12).all fun bit => !requiredMask.testBit bit || bit+1 ∈ w.seen)
  if ¬schemaCanReplay w.schema then fail (.refused .schema)
  else do
    check ((← remaining) = 8)
    rebuildGroups allocs x

/-- The digest at the end of an image is that of the bytes ahead of it. -/
def intact (image : Bytes) : Bool :=
  8 ≤ image.length &&
    fnv1a64 (image.take (image.length-8)) = loadU64 (image.drop (image.length-8))

abbrev Loaded := Except (ReadFault Status) Loading

/-- Decode an image behind its magic and its version. -/
def decodeImage (r : Decoder Loading) (image : Bytes) : Loaded := (r image 12).map Prod.fst

def loadSections (maxTag requiredMask : ℕ) (switch : Walk → Tag → Option (Decoder Walk))
    (allocs : Allocs) (image : Bytes) : Loaded :=
  if ¬intact image then .error .malformed
  else decodeImage (do
    let w ← sections (Walk.note maxTag) (fun w word => (Tag.ofWord? word).bind (switch w)) 8 .start
    loadFinish allocs requiredMask w) image

/-- `atp_load_v5`. -/
def loadV5 : Allocs → Bytes → Loaded := loadSections 10 0x3F Walk.decodeV5

/-- `atp_load_v6`. -/
def loadV6 : Allocs → Bytes → Loaded := loadSections 12 0x43F (Walk.decodeExplicit false)

/-- `atp_load_v7`. -/
def loadV7 : Allocs → Bytes → Loaded := loadSections 12 0xC3F (Walk.decodeExplicit true)

/-! ## Version 4 -/

/-- The length of a token leads its node, and its bytes come last. -/
def readNodeV4 (dimension : ℕ) : Decoder Node := do
  let length ← u32
  check (length ≠ 0 ∧ length.toNat < tokenBytes)
  let observations ← u64
  let embedding ← take (dimension*4)
  let token ← take length.toNat
  return {
    token := @CText.truncate 95 (CString.ofRaw token)
    observations
    familiarity := 0
    embedding := (List.range dimension).map fun d => Float32.ofBits (loadU32 (embedding.drop (4*d)))
    embeddingImportance := List.replicate dimension 0 }

/-- The familiarities of the nodes, in their order. -/
def decodeFamiliarity (x : Loading) : Decoder Loading := do
  let count ← u32
  check (count.toNat = x.graph.nodes.length)
  let familiarities ← many f32 x.graph.nodes.length
  return {x with graph := {x.graph with
    nodes := List.zipWith (fun n f => {n with familiarity := f}) x.graph.nodes familiarities}}

/-- The flat record of version 4. Its ledger and its episodes are laid out as the sections are. -/
def decodeV4 (allocs : Allocs) : Decoder Loading := do
  let embeddingDim ← u32
  check (embeddingDim.toNat = Architecture.legacy.embeddingDim)
  let hiddenDim ← u32
  check (hiddenDim.toNat = Architecture.legacy.hiddenWidths.toList.headD 0)
  let config ← readRates
  match createGraph config with
  | none => fail (.refused .outOfMemory)
  | some g => do
      let counters ← readCounters
      let nodeCount ← u64
      let edgeCount ← u64
      let dimension := g.neuralArchitecture.embeddingDim
      fits nodeCount (4+8+dimension*4+1)
      fits edgeCount 28
      let x ← decodeNetwork (.of (counters.restore g))
      let nodes ← many (readNodeV4 dimension) nodeCount.toNat
      let edges ← many (readEdge nodes.length) edgeCount.toNat
      let x ← decodeLedger {x with graph := {x.graph with nodes,edges}}
      let x ← decodeEpisodes x
      let x ← decodeFamiliarity x
      check ((← position) = (← size))
      rebuildGroups allocs x

/-- `atp_load_v4`. -/
def loadV4 (allocs : Allocs) : Bytes → Loaded := decodeImage (decodeV4 allocs)

/-- `ATPERSN` and a digit. -/
def magicOf (digit : UInt8) : Bytes := [65,84,80,69,82,83,78,48+digit]

/-- The loader of a magic, with the version that must come with it. -/
def loaderOf (magic : Bytes) : Option (UInt32×(Allocs → Bytes → Loaded)) :=
  if magic = magicOf 7 then some (7,loadV7)
  else if magic = magicOf 6 then some (6,loadV6)
  else if magic = magicOf 5 then some (5,loadV5)
  else if magic = magicOf 1 then some (4,loadV4)
  else none

/-- `atp_graph_load`, on the bytes of the file. -/
def graphLoad (allocs : Allocs) (image : Bytes) : Loaded :=
  if image.length < 8+4+12+8 then .error .malformed
  else match loaderOf (image.take 8) with
    | none => .error .malformed
    | some (version,load) =>
        if loadU32 (image.drop 8) ≠ version then .error .malformed else load allocs image

/-! ## What is loaded is sound -/

/-- What holds of a walk: the ledger and the episodes are empty until their sections come. -/
structure Walk.Sound (w : Walk) : Prop where
  loading : ∀ x ∈ w.loading, x.Sound
  entries : w.has .ledger = false → ∀ x ∈ w.loading, x.entries = []
  episodes : w.has .episodes = false → ∀ x ∈ w.loading, x.graph.episodes = []

/-- A walk whose section with a tag comes next. -/
structure Walk.Ready (w : Walk) (t : Tag) : Prop where
  sound : w.Sound
  ledger : t = .ledger → w.has .ledger = true ∧ ∀ x ∈ w.loading, x.entries = []
  episodes : t = .episodes → w.has .episodes = true ∧ ∀ x ∈ w.loading, x.graph.episodes = []

section Soundness
variable {w w' : Walk} {t : Tag} {d : Decoder Walk} {x : Loading}

/-! ### Topology and networks -/

theorem within_readRates : Within readRates fun _ => True := by
  refine within_u64.bind fun _ _ => within_f32.bind fun _ _ => within_f32.bind fun _ _ => ?_
  exact within_check.bind fun _ _ => within_pure trivial

theorem within_readCounters : Within readCounters fun _ => True := by
  refine within_u64.bind fun _ _ => within_u64.bind fun _ _ => within_u64.bind fun _ _ => ?_
  exact within_u64.bind fun _ _ => within_f64.bind fun _ _ => within_pure trivial

theorem within_decodeHeaderV6 : Within decodeHeaderV6 fun _ => True := by
  refine within_readRates.bind fun _ _ => within_u32.bind fun _ _ => ?_
  refine within_check.bind fun _ _ => within_readCounters.bind fun _ _ => ?_
  exact within_u64.bind fun _ _ => within_pure trivial

theorem within_decodeHeader : Within decodeHeader fun _ => True := by
  refine within_u32.bind fun _ _ => within_check.bind fun _ _ => within_u32.bind fun _ _ => ?_
  refine within_check.bind fun _ _ => within_u32.bind fun _ _ => within_check.bind fun _ _ => ?_
  exact within_decodeHeaderV6

theorem within_decodeArchitecture : Within decodeArchitecture fun _ => True := by
  refine within_u32.bind fun _ _ => within_check.bind fun _ _ => within_u32.bind fun _ _ => ?_
  refine within_u32.bind fun _ _ => within_u32.bind fun _ _ => within_u32.bind fun _ _ => ?_
  refine within_check.bind fun _ _ => (within_many within_u32 _).bind fun _ _ => ?_
  exact within_check.bind fun _ _ => within_pure trivial

theorem within_readMigration (previous : Option Migration) :
    Within (readMigration previous) fun m => m.valid = true ∧ ∀ p ∈ previous,
      p.ledgerBoundaryId ≤ m.ledgerBoundaryId ∧ p.target = m.source := by
  refine within_u32.bind fun _ _ => within_u64.bind fun _ _ => within_u64.bind fun _ _ => ?_
  refine within_decodeArchitecture.bind fun _ _ => within_decodeArchitecture.bind fun _ _ => ?_
  refine within_check.bind fun _ hvalid => within_check.bind fun _ hprevious => ?_
  refine within_pure ⟨hvalid,fun p hp => ?_⟩
  cases hp
  simpa using hprevious

theorem within_decodeMigrations (hx : x.Sound) :
    Within (decodeMigrations x) fun y => y.Sound ∧ x.Keeps y := by
  refine within_check.bind fun _ _ => within_u64.bind fun _ _ => within_check.bind fun _ _ => ?_
  refine (within_chain within_readMigration _ none).bind fun history hhistory => ?_
  refine within_check.bind fun _ hlast => within_pure ⟨{hx with
    valid := hhistory.2.1
    continued := hhistory.2.2
    arrived := fun m hm => ?_},rfl,rfl⟩
  rw [Option.mem_def.mp hm] at hlast
  exact of_decide_eq_true hlast

/-- A network takes no part in what is sound. -/
theorem Loading.Sound.rewire (hx : x.Sound) (network : Network) :
    Loading.Sound {x with graph := {x.graph with network}} := {hx with}

theorem within_decodeNetwork (x : Loading) :
    Within (decodeNetwork x) fun y =>
      ∃ network, y = {x with graph := {x.graph with network}} := by
  refine (within_many within_f32 _).bind fun _ _ => (within_many within_f32 _).bind fun _ _ => ?_
  refine (within_many within_f32 _).bind fun _ _ => within_f32.bind fun _ _ => ?_
  exact within_pure ⟨_,rfl⟩

theorem within_readLayer (layer : LayerShape) : Within (readLayer layer) fun _ => True :=
  (within_many within_f32 _).bind fun _ _ => (within_many within_f32 _).bind fun _ _ =>
    within_pure trivial

theorem within_decodeNetworkV6 (hx : x.Sound) :
    Within (decodeNetworkV6 x) fun y => y.Sound ∧ x.Keeps y := by
  refine within_u32.bind fun _ _ => within_check.bind fun _ _ => ?_
  refine (within_mapM within_readLayer _).bind fun _ _ => ?_
  refine (within_mapM within_readLayer _).bind fun _ _ => within_pure ?_
  exact ⟨hx.rewire _,rfl,rfl⟩

/-- A graph that was just created has nothing to be unsound. -/
theorem sound_created {config : GraphConfig} {a : Architecture} {g : Graph}
    (h : createWithArchitecture config a = some g) (c : Counters) :
    (Loading.of (c.restore g)).Sound ∧ (c.restore g).episodes = [] := by
  obtain ⟨r,-,rfl⟩ := Option.map_eq_some_iff.mp h
  exact ⟨⟨nofun,nofun,rfl,Nat.zero_le _,nofun,nofun,.nil,nofun,le_rfl,nofun,.nil,nofun⟩,rfl⟩

/-- Nor has one that was given nodes, and edges between them. -/
theorem sound_flat {config : GraphConfig} {g : Graph} (h : createGraph config = some g)
    (c : Counters) (network : Network) {nodes : List Node} {edges : List Edge}
    (hedges : ∀ e ∈ edges, e.source < nodes.length ∧ e.target < nodes.length) :
    (Loading.mk {c.restore g with network,nodes,edges} [] []).Sound ∧
      (c.restore g).episodes = [] := by
  unfold createGraph createWithArchitecture at h
  obtain ⟨r,-,rfl⟩ := Option.map_eq_some_iff.mp h
  exact ⟨⟨hedges,nofun,rfl,Nat.zero_le _,nofun,nofun,.nil,nofun,le_rfl,nofun,.nil,nofun⟩,rfl⟩

/-! ### The walk -/

theorem Walk.Sound.fresh (h : ∀ y ∈ w'.loading, y.Sound ∧ y.entries = [] ∧ y.graph.episodes = []) :
    w'.Sound :=
  ⟨fun y hy => (h y hy).1,fun _ y hy => (h y hy).2.1,fun _ y hy => (h y hy).2.2⟩

theorem note_cases {maxTag : ℕ} {word : UInt32} (h : w.note maxTag word = some w') :
    w' = w ∧ (word.toNat = 0 ∨ maxTag < word.toNat) ∨
      word.toNat ∉ w.seen ∧ w' = {w with seen := word.toNat::w.seen} := by
  unfold Walk.note at h
  split at h
  · split at h
    · cases h
    · exact .inr ⟨‹_›,(Option.some.inj h).symm⟩
  · exact .inl ⟨(Option.some.inj h).symm,by omega⟩

theorem Walk.Sound.noted (hw : w.Sound) {maxTag : ℕ} {word : UInt32}
    (h : w.note maxTag word = some w') : w'.Sound := by
  rcases note_cases h with ⟨rfl,-⟩ | ⟨-,rfl⟩
  · exact hw
  · refine ⟨hw.loading,fun hnot => hw.entries ?_,fun hnot => hw.episodes ?_⟩
    · simp only [Walk.has,decide_eq_false_iff_not,List.mem_cons,not_or] at hnot ⊢
      exact hnot.2
    · simp only [Walk.has,decide_eq_false_iff_not,List.mem_cons,not_or] at hnot ⊢
      exact hnot.2

/-- A section that comes with a tracked tag comes for the first time. -/
theorem Walk.Sound.ready (hw : w.Sound) {maxTag : ℕ} {word : UInt32} (hmax : 6 ≤ maxTag)
    (h : w.note maxTag word = some w') (ht : Tag.ofWord? word = some t) : w'.Ready t := by
  have hnumber : t.number = word.toNat := by
    simpa using List.find?_some ht
  refine ⟨hw.noted h,?_,?_⟩
  · rintro rfl
    rcases note_cases h with ⟨-,hout⟩ | ⟨hnew,rfl⟩
    · simp only [Tag.number] at hnumber
      omega
    · rw [← hnumber] at hnew ⊢
      refine ⟨by simp [Walk.has],hw.entries ?_⟩
      simpa [Walk.has] using hnew
  · rintro rfl
    rcases note_cases h with ⟨-,hout⟩ | ⟨hnew,rfl⟩
    · simp only [Tag.number] at hnumber
      omega
    · rw [← hnumber] at hnew ⊢
      refine ⟨by simp [Walk.has],hw.episodes ?_⟩
      simpa [Walk.has] using hnew

theorem within_decode {read : Loading → Decoder Loading}
    (h : ∀ x ∈ w.loading, Within (read x) fun y => y.Sound ∧
      (w.has .ledger = false → y.entries = []) ∧
      (w.has .episodes = false → y.graph.episodes = [])) :
    Within (w.decode read) Walk.Sound := by
  refine within_accept.bind fun x hx => (h x hx).bind fun y hy => within_pure ?_
  refine ⟨fun z hz => ?_,fun hnot z hz => ?_,fun hnot z hz => ?_⟩ <;> cases hz
  · exact hy.1
  · exact hy.2.1 hnot
  · exact hy.2.2 hnot

/-- A section that leaves the ledger and the episodes alone. -/
theorem Walk.Sound.decode (hw : w.Sound) {read : Loading → Decoder Loading}
    (h : ∀ x, x.Sound → Within (read x) fun y => y.Sound ∧ x.Keeps y) :
    Within (w.decode read) Walk.Sound := by
  refine within_decode fun x hx => (h x (hw.loading x hx)).mono fun y hy => ?_
  refine ⟨hy.1,fun hnot => ?_,fun hnot => ?_⟩
  · rw [hy.2.entries]
    exact hw.entries hnot x hx
  · rw [hy.2.episodes]
    exact hw.episodes hnot x hx

theorem within_decodeSchema (hw : w.Sound) : Within w.decodeSchema Walk.Sound :=
  within_u32.bind fun _ _ => within_check.bind fun _ _ =>
    within_pure ⟨hw.loading,hw.entries,hw.episodes⟩

theorem within_decodeShared (hw : w.Ready t) (h : w.decodeShared t = some d) :
    Within d Walk.Sound := by
  cases t with
  | edges =>
      cases h
      exact hw.sound.decode fun x hx => within_decodeEdges hx
  | ledger =>
      cases h
      obtain ⟨hseen,hnone⟩ := hw.ledger rfl
      refine within_decode fun x hx => ?_
      refine (within_decodeLedger (hw.sound.loading x hx) (hnone x hx)).mono fun y hy => ?_
      refine ⟨hy.1,fun hnot => ?_,fun hnot => ?_⟩
      · rw [hseen] at hnot
        cases hnot
      · rw [hy.2]
        exact hw.sound.episodes hnot x hx
  | context =>
      cases h
      exact within_check.bind fun _ _ => hw.sound.decode fun x hx => within_decodeContext hx
  | episodes =>
      cases h
      obtain ⟨hseen,hnone⟩ := hw.episodes rfl
      refine within_decode fun x hx => ?_
      refine (within_decodeEpisodes (hw.sound.loading x hx) (hnone x hx)).mono fun y hy => ?_
      refine ⟨hy.1,fun hnot => ?_,fun hnot => ?_⟩
      · rw [hy.2]
        exact hw.sound.entries hnot x hx
      · rw [hseen] at hnot
        cases hnot
  | valence =>
      cases h
      exact within_check.bind fun _ _ => hw.sound.decode fun x hx => within_decodeValence hx
  | schema =>
      cases h
      exact within_decodeSchema hw.sound
  | header => cases h
  | network => cases h
  | nodes => cases h
  | arch => cases h
  | migrations => cases h

theorem within_create {created : Option Graph} {c : Counters} {f : ReadFault Status}
    (hf : f.Rejects) (h : ∀ g, created = some g →
      (Loading.of (c.restore g)).Sound ∧ (c.restore g).episodes = []) :
    Within (w.create f c created) Walk.Sound := by
  cases created with
  | none => exact within_refused hf
  | some g =>
      have hsound := h g rfl
      refine within_pure (.fresh fun y hy => ?_)
      cases hy
      exact ⟨hsound.1,rfl,hsound.2⟩

theorem within_openV5 (w : Walk) : Within w.openV5 Walk.Sound := by
  refine within_decodeHeader.bind fun header _ => ?_
  generalize hcreated : createGraph header.config = created
  refine within_create trivial fun g hg => ?_
  rw [hg] at hcreated
  unfold createGraph at hcreated
  exact sound_created hcreated header.counters

theorem within_decodeV5 (hw : w.Ready t) (h : w.decodeV5 t = some d) : Within d Walk.Sound := by
  cases t with
  | header =>
      cases h
      exact within_openV5 w
  | network =>
      cases h
      refine hw.sound.decode fun x hx => (within_decodeNetwork x).mono fun y hy => ?_
      obtain ⟨network,rfl⟩ := hy
      exact ⟨hx.rewire network,rfl,rfl⟩
  | nodes =>
      cases h
      exact hw.sound.decode fun x hx => within_decodeNodes hx false
  | _ => exact within_decodeShared hw h

theorem within_decodeExplicit {requireMigrations : Bool} (hw : w.Ready t)
    (h : w.decodeExplicit requireMigrations t = some d) : Within d Walk.Sound := by
  cases t with
  | header =>
      cases h
      exact within_decodeHeaderV6.bind fun pending _ =>
        within_pure ⟨hw.sound.loading,hw.sound.entries,hw.sound.episodes⟩
  | arch =>
      cases h
      refine within_check.bind fun _ _ => within_decodeArchitecture.bind fun a _ => ?_
      exact within_create trivial fun g hg => sound_created hg w.pending.counters
  | migrations =>
      cases h
      exact within_check.bind fun _ _ => hw.sound.decode fun x hx => within_decodeMigrations hx
  | network =>
      cases h
      exact hw.sound.decode fun x hx => within_decodeNetworkV6 hx
  | nodes =>
      cases h
      exact hw.sound.decode fun x hx => within_decodeNodes hx true
  | _ => exact within_decodeShared hw h

/-! ### The loaders -/

theorem within_rebuildGroups (allocs : Allocs) (hx : x.Sound) :
    Within (rebuildGroups allocs x) Loading.Sound := by
  unfold rebuildGroups
  split
  · exact within_pure {hx with}
  · exact within_refused trivial

theorem within_loadFinish (allocs : Allocs) (requiredMask : ℕ) (hw : w.Sound) :
    Within (loadFinish allocs requiredMask w) Loading.Sound := by
  refine within_accept.bind fun x hx => within_check.bind fun _ _ => ?_
  split
  · exact within_refused trivial
  · exact within_remaining.bind fun _ _ => within_check.bind fun _ _ =>
      within_rebuildGroups allocs (hw.loading x hx)

/-- An image is rejected, or what is loaded from it is sound and mirrors all of its entries. -/
def FailsClosed : Loaded → Prop
  | .ok x => x.Sound ∧ x.mirrored.ledger.map Mirrored.entry = x.entries
  | .error f => f.Rejects

theorem Loading.Sound.mirrors (hx : x.Sound) :
    x.mirrored.ledger.map Mirrored.entry = x.entries := by
  have hslots : ∀ (entries : List LedgerEntry) (contexts : List ConversationContext),
      entries.length ≤ contexts.length →
        (List.zipWith Mirrored.mk entries contexts).map Mirrored.entry = entries := by
    intro entries
    induction entries with
    | nil => exact fun _ _ => rfl
    | cons e entries ih =>
        intro contexts hle
        cases contexts with
        | nil => exact absurd hle (Nat.not_succ_le_zero _)
        | cons c contexts => exact congrArg (e::·) (ih contexts (Nat.le_of_succ_le_succ hle))
  exact hslots x.entries x.contexts hx.contexts

theorem decodeImage_failsClosed {r : Decoder Loading} (h : Within r Loading.Sound)
    {image : Bytes} (hsize : 12 ≤ image.length) : FailsClosed (decodeImage r image) := by
  have hlands := h image 12 hsize
  unfold decodeImage
  cases hr : r image 12 with
  | error f =>
      rw [hr] at hlands
      exact hlands
  | ok y =>
      rw [hr] at hlands
      exact ⟨hlands.2.2,hlands.2.2.mirrors⟩

theorem loadSections_failsClosed {maxTag requiredMask : ℕ} (hmax : 6 ≤ maxTag)
    {switch : Walk → Tag → Option (Decoder Walk)}
    (hswitch : ∀ w t d, w.Ready t → switch w t = some d → Within d Walk.Sound)
    (allocs : Allocs) {image : Bytes} (hsize : 12 ≤ image.length) :
    FailsClosed (loadSections maxTag requiredMask switch allocs image) := by
  unfold loadSections
  split
  · exact trivial
  · refine decodeImage_failsClosed ?_ hsize
    have hstart : Walk.Sound .start := .fresh nofun
    refine (within_sections ?_ ?_ 8 hstart).bind fun w hw => within_loadFinish allocs _ hw
    · intro w word w' hw hnote _
      exact hw.noted hnote
    · intro w word w' d hw hnote hread
      obtain ⟨t,ht,hd⟩ := Option.bind_eq_some_iff.mp hread
      exact hswitch w' t d (hw.ready hmax hnote ht) hd

theorem within_decodeFamiliarity (hx : x.Sound) :
    Within (decodeFamiliarity x) Loading.Sound := by
  refine within_u32.bind fun _ _ => within_check.bind fun _ _ => ?_
  refine (within_many within_f32 _).bind fun familiarities hlength => within_pure ?_
  have hnodes : (List.zipWith (fun n f => {n with familiarity := f}) x.graph.nodes
      familiarities).length = x.graph.nodes.length := by
    rw [List.length_zipWith,hlength.1,Nat.min_self]
  exact {hx with
    edges := fun e he => by simpa only [hnodes] using hx.edges e he
    summaries := fun e he t ht => by simpa only [hnodes] using hx.summaries e he t ht
    records := fun r hr => by simpa only [hnodes] using hx.records r hr
    events := fun e he => by simpa only [hnodes] using hx.events e he}

theorem within_readNodeV4 (dimension : ℕ) : Within (readNodeV4 dimension) fun _ => True := by
  refine within_u32.bind fun _ _ => within_check.bind fun _ _ => within_u64.bind fun _ _ => ?_
  exact (within_take _).bind fun _ _ => (within_take _).bind fun _ _ => within_pure trivial

theorem within_decodeV4 (allocs : Allocs) : Within (decodeV4 allocs) Loading.Sound := by
  refine within_u32.bind fun _ _ => within_check.bind fun _ _ => within_u32.bind fun _ _ => ?_
  refine within_check.bind fun _ _ => within_readRates.bind fun config _ => ?_
  cases hg : createGraph config with
  | none => exact within_refused trivial
  | some g =>
      refine within_readCounters.bind fun counters _ => within_u64.bind fun _ _ => ?_
      refine within_u64.bind fun _ _ => (within_fits _ _).bind fun _ _ => ?_
      refine (within_fits _ _).bind fun _ _ => ?_
      refine (within_decodeNetwork _).bind fun x hx => ?_
      obtain ⟨network,rfl⟩ := hx
      refine (within_many (within_readNodeV4 _) _).bind fun nodes _ => ?_
      refine (within_many (within_readEdge _) _).bind fun edges hedges => ?_
      obtain ⟨hflat,hepisodes⟩ := sound_flat hg counters network hedges.2
      refine (within_decodeLedger hflat rfl).bind fun x hx => ?_
      refine (within_decodeEpisodes hx.1 (hx.2.trans hepisodes)).bind fun x hx => ?_
      refine (within_decodeFamiliarity hx.1).bind fun x hx => ?_
      refine within_position.bind fun _ _ => within_size.bind fun _ _ => ?_
      exact within_check.bind fun _ _ => within_rebuildGroups allocs hx

/-- No image of twelve bytes or more makes a loader fail open. -/
theorem load_fails_closed (allocs : Allocs) {image : Bytes} (hsize : 12 ≤ image.length) :
    ∀ load ∈ [loadV4,loadV5,loadV6,loadV7], FailsClosed (load allocs image) := by
  intro load hload
  simp only [List.mem_cons,List.not_mem_nil,or_false] at hload
  rcases hload with rfl | rfl | rfl | rfl
  · exact decodeImage_failsClosed (within_decodeV4 allocs) hsize
  · exact loadSections_failsClosed (by decide) (fun _ _ _ => within_decodeV5) allocs hsize
  · exact loadSections_failsClosed (by decide) (fun _ _ _ => within_decodeExplicit) allocs hsize
  · exact loadSections_failsClosed (by decide) (fun _ _ _ => within_decodeExplicit) allocs hsize

theorem load_fails_closed_zeros : FailsClosed (loadV4 [] (List.replicate 32 0)) ∧
    FailsClosed (loadV5 [] (List.replicate 32 0)) ∧
    FailsClosed (loadV6 [] (List.replicate 32 0)) ∧
    FailsClosed (loadV7 [] (List.replicate 32 0)) := by
  have h := load_fails_closed [] (show 12 ≤ (List.replicate 32 (0 : UInt8)).length by decide)
  exact ⟨h loadV4 (by simp),h loadV5 (by simp),h loadV6 (by simp),h loadV7 (by simp)⟩

/-- Where an image ends ahead of its sections, eight bytes that are their own digest have a
loader read beyond them. -/
theorem load_overruns :
    ¬∀ image, ∀ load ∈ [loadV4,loadV5,loadV6,loadV7], FailsClosed (load [] image) := by
  intro h
  have hv5 : FailsClosed (loadV5 [] (storeU64 (fnv1a64 []))) := h _ loadV5 (by simp)
  have hoverrun : loadV5 [] (storeU64 (fnv1a64 [])) = .error .overrun := rfl
  rw [hoverrun] at hv5
  exact hv5

theorem loaderOf_mem {magic : Bytes} {version : UInt32} {load : Allocs → Bytes → Loaded}
    (h : loaderOf magic = some (version,load)) : load ∈ [loadV4,loadV5,loadV6,loadV7] := by
  unfold loaderOf at h
  split_ifs at h <;> cases h <;> simp

/-- Every file is rejected, or what is loaded from it is sound. -/
theorem graphLoad_failsClosed (allocs : Allocs) (image : Bytes) :
    FailsClosed (graphLoad allocs image) := by
  unfold graphLoad
  split
  · exact trivial
  · rename_i hsize
    split
    · exact trivial
    · rename_i version load hload
      split
      · exact trivial
      · exact load_fails_closed allocs (by omega) load (loaderOf_mem hload)

end Soundness

end Atperson.Snapshot
