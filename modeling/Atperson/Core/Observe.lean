import Atperson.Core.Tokenize
import Atperson.Core.Network
import Atperson.Core.Groups

/-!
# Observation

Learning from one text: a dry run against the ceilings, the walk that interns tokens and
trains on each adjacent pair, and the episode that remembers the text. Allocations succeed
but for those of the group index.
-/
namespace Atperson.Core
open Wire
open Ledger (Status)

/-- The schema the dry run and plain observation tokenize under. -/
abbrev schemaVersion : UInt32 := Ledger.schemaVersion

/-- `atp_hash_source`. -/
def hashSource (source : Bytes) : UInt64 :=
  source.foldl (fun h b => (h^^^b.toUInt64)*1099511628211) 1469598103934665603

namespace Graph

/-! ## Vocabulary -/

def reject (g : Graph) : Graph := {g with capacityRejections := g.capacityRejections+1}

def nodesFull (g : Graph) : Prop :=
  g.config.nodeCapacityMax ≠ 0 ∧ g.config.nodeCapacityMax ≤ g.nodes.length

def edgesFull (g : Graph) : Prop :=
  g.config.edgeCapacityMax ≠ 0 ∧ g.config.edgeCapacityMax ≤ g.edges.length

instance (g : Graph) : Decidable g.nodesFull := inferInstanceAs (Decidable (_ ∧ _))
instance (g : Graph) : Decidable g.edgesFull := inferInstanceAs (Decidable (_ ∧ _))

/-- A known token is seen again. -/
def exposeNode (g : Graph) (i : ℕ) : Graph :=
  {g with nodes := g.nodes.modify i fun n => {n with
    observations := n.observations+1
    familiarity := n.familiarity*g.config.familiarityDecay+1}}

def createNode (g : Graph) (token : Token) : Graph :=
  let dim := g.neuralArchitecture.embeddingDim
  let drawn := rngDraws 0.05 dim g.rngState
  {g with
    rngState := drawn.1
    nodes := g.nodes++[⟨token,1,1,drawn.2,List.replicate dim 0⟩]}

/-- `atp_intern_node_checked`. -/
def internNode (g : Graph) (token : Token) : Graph×Except Status ℕ :=
  match g.findNode token with
  | some i => (g.exposeNode i,.ok i)
  | none =>
      if g.nodesFull then (g.reject,.error .capacity)
      else if 2^32-1 ≤ g.nodes.length then (g,.error .outOfMemory)
      else (g.createNode token,.ok g.nodes.length)

/-! ## Pairs -/

def createEdge (g : Graph) (source target : ℕ) (sourceHash : UInt64) : Graph :=
  {g with edges := g.edges++[⟨source,target,0,sourceHash,0⟩]}

/-- Draw a node that is neither end of the pair, at most `attempts` times. -/
def drawNegative (count source target : ℕ) : ℕ → UInt64 → ℕ → UInt64×ℕ
  | 0, rng, negative => (rng,negative)
  | attempts+1, rng, _ =>
      let (rng,value) := rngNext rng
      let negative := value.toNat%count
      if negative ≠ source ∧ negative ≠ target then (rng,negative)
      else drawNegative count source target attempts rng negative

/-- One training step and its loss in the totals. -/
def trainOn (g : Graph) (source target : ℕ) (expected : Float32) : Graph :=
  let trained := g.networkTrain source target expected
  {trained.1 with
    lossTotal := trained.1.lossTotal+trained.2.toFloat
    trainingSteps := trained.1.trainingSteps+1}

/-- Train away from a node drawn at random. -/
def trainNegative (g : Graph) (source target : ℕ) : Graph :=
  if 2 < g.nodes.length then
    let drawn := drawNegative g.nodes.length source target 8 g.rngState 0
    let g := {g with rngState := drawn.1}
    if drawn.2 ≠ source ∧ drawn.2 ≠ target then g.trainOn source drawn.2 0 else g
  else g

def strengthen (g : Graph) (edge source target : ℕ) (sourceHash : UInt64) : Graph :=
  let score := g.networkScore source target
  {g with edges := g.edges.modify edge fun e => {e with
    strength := if e.observations = 0 then score else e.strength*0.90+score*0.10
    observations := e.observations+1
    lastSourceHash := sourceHash}}

/-- `atp_observe_pair` from where the edge is known. -/
def learnPair (g : Graph) (edge source target : ℕ) (sourceHash : UInt64) : Graph :=
  ((g.trainOn source target 1).trainNegative source target).strengthen edge source target sourceHash

/-- `atp_observe_pair`. -/
def observePair (g : Graph) (source target : ℕ) (sourceHash : UInt64) : Graph×Status :=
  if ¬(source < g.nodes.length ∧ target < g.nodes.length) then (g,.invalidArgument)
  else match g.findEdge source target with
    | some edge => (g.learnPair edge source target sourceHash,.ok)
    | none =>
        if g.edgesFull then (g.reject,.capacity)
        else ((g.createEdge source target sourceHash).learnPair g.edges.length source target
          sourceHash,.ok)

end Graph

/-! ## The dry run -/

structure BudgetWalk where
  newNodes : ℕ
  newEdges : ℕ
  previous : Option ℕ
  deriving DecidableEq

/-- `atp_budget_emit`: every unknown token counts as a new node with the next index. -/
def budgetEmit (g : Graph) (w : BudgetWalk) (token : Token) : BudgetWalk×Bool :=
  let current := g.findNode token
  let index := current.getD g.nodes.length
  let edgeExists : Bool := match w.previous with
    | none => true
    | some previous => current.isSome && (g.findEdge previous index).isSome
  ({newNodes := if current.isSome then w.newNodes else w.newNodes+1
    newEdges := if edgeExists then w.newEdges else w.newEdges+1
    previous := some index},true)

def budgetWalk (g : Graph) (tokens : List Token) : BudgetWalk :=
  emitAll (budgetEmit g) ⟨0,0,none⟩ tokens

/-- The comparison of `atp_check_budget`. -/
def Graph.fits (g : Graph) (newNodes newEdges : ℕ) : Prop :=
  (g.config.nodeCapacityMax = 0 ∨ g.nodes.length+newNodes ≤ g.config.nodeCapacityMax) ∧
    (g.config.edgeCapacityMax = 0 ∨ g.edges.length+newEdges ≤ g.config.edgeCapacityMax)

instance (g : Graph) (m n : ℕ) : Decidable (g.fits m n) := inferInstanceAs (Decidable (_ ∧ _))

/-- `atp_check_budget` as a predicate. The dry run is under the current schema, whatever
schema the text is then learned under. -/
def Graph.fitsBudget (U : Utf8proc) (g : Graph) (text : Text) : Prop :=
  g.fits (budgetWalk g (tokenize U schemaVersion text)).newNodes
    (budgetWalk g (tokenize U schemaVersion text)).newEdges

instance (U : Utf8proc) (g : Graph) (text : Text) : Decidable (g.fitsBudget U text) :=
  inferInstanceAs (Decidable (g.fits _ _))

/-! ## The walk -/

structure ObserveWalk where
  graph : Graph
  previous : Option ℕ
  sawToken : Bool
  status : Status

/-- `atp_observe_emit`. -/
def observeEmit (sourceHash : UInt64) (w : ObserveWalk) (token : Token) : ObserveWalk×Bool :=
  match w.graph.internNode token with
  | (g,.error status) => ({w with graph := g,status := status},false)
  | (g,.ok current) =>
      let w := {w with
        graph := {g with tokenObservations := g.tokenObservations+1}
        sawToken := true}
      match w.previous with
      | none => ({w with previous := some current},true)
      | some previous =>
          match w.graph.observePair previous current sourceHash with
          | (g,.ok) => ({w with graph := g,previous := some current},true)
          | (g,status) => ({w with graph := g,status := status},false)

def ObserveWalk.start (g : Graph) : ObserveWalk := ⟨g,none,false,.ok⟩

/-- An observation with at least one token is counted. -/
def Graph.countObservation (g : Graph) (sawToken : Bool) : Graph :=
  if sawToken then {g with observations := g.observations+1} else g

/-- `atp_graph_observe_text`. -/
def observeText (U : Utf8proc) (g : Graph) (text : Text) (sourceId : CString) : Graph×Status :=
  if ¬g.fitsBudget U text then (g.reject,.capacity)
  else
    let w := emitAll (observeEmit (hashSource sourceId.bytes)) (.start g)
      (tokenize U schemaVersion text)
    if w.status ≠ .ok then (w.graph,w.status)
    else (w.graph.countObservation w.sawToken,.ok)

/-! ## Episodes -/

structure TokenCount where
  nodeIndex : ℕ
  count : UInt32
  deriving DecidableEq

/-- `atp_token_counts_bump`. -/
def bumpCount (node : ℕ) : List TokenCount → List TokenCount
  | [] => [⟨node,1⟩]
  | c::rest => if c.nodeIndex = node then {c with count := c.count+1}::rest
      else c::bumpCount node rest

/-- `atp_token_count_compare`: higher counts first, then lower node indexes. -/
def countBefore (a b : TokenCount) : Bool :=
  b.count < a.count || (a.count = b.count && a.nodeIndex ≤ b.nodeIndex)

/-- What an episode records of the ledger entry it comes from. -/
structure Provenance where
  sourceId : CString
  authorDid : CString
  observedAt : UInt64
  contentDigest : UInt64
  schemaVersion : UInt32
  ledgerId : UInt64
  deriving DecidableEq

/-- `atp_episode_build`, from the sorted counts. -/
def buildEpisode (sorted : List TokenCount) (p : Provenance) : Episode where
  ledgerId := p.ledgerId
  observedAt := p.observedAt
  contentDigest := p.contentDigest
  schemaVersion := p.schemaVersion
  recallCount := 0
  lastRecallAt := 0
  summary := (sorted.take episodeSummarySize).map fun c => ⟨c.nodeIndex,c.count.toFloat32⟩
  sourceId := CText.truncate p.sourceId
  authorDid := CText.truncate p.authorDid
  bounded := by simp [List.length_map,List.length_take]

/-- An episode is evicted before another: fewer recalls, then older, then a smaller id. -/
def evictedBefore (a b : Episode) : Bool :=
  a.recallCount < b.recallCount ||
    (a.recallCount = b.recallCount && a.observedAt < b.observedAt) ||
    (a.recallCount = b.recallCount && a.observedAt = b.observedAt && a.ledgerId < b.ledgerId)

/-- The loop of `atp_evict_episode`: the best victim so far, its index and the next index. -/
def findVictim (best : Episode) (victim : ℕ) : ℕ → List Episode → ℕ
  | _, [] => victim
  | i, e::rest => if evictedBefore e best then findVictim e i (i+1) rest
      else findVictim best victim (i+1) rest

def evictionVictim : List Episode → ℕ
  | [] => 0
  | e::rest => findVictim e 0 1 rest

namespace Graph

/-- `atp_evict_episode`. -/
def evictEpisode (env : IndexEnv) (g : Graph) : Graph×Allocs :=
  let victim := evictionVictim g.episodes
  let episodes := g.episodes.eraseIdx victim
  let (index,allocs,_) := (g.index.noteEviction env.junk victim).rebuild env.allocs episodes
  ({g with episodes,index,episodeEvictions := g.episodeEvictions+1},allocs)

/-- Evict an episode if there is no room for another. -/
def makeRoom (env : IndexEnv) (g : Graph) : Graph×Allocs :=
  if g.episodeMax ≤ g.episodes.length then g.evictEpisode env else (g,env.allocs)

/-- Append an episode and index it. -/
def appendEpisode (allocs : Allocs) (g : Graph) (e : Episode) : Graph×Status :=
  if g.episodeMax < g.episodes.length+1 then (g,.outOfMemory)
  else
    let episodes := g.episodes++[e]
    ({g with episodes,index := (g.index.append allocs episodes).1},.ok)

def rememberEpisode (env : IndexEnv) (g : Graph) (e : Episode) : Graph×Status :=
  (g.makeRoom env).1.appendEpisode (g.makeRoom env).2 e

end Graph

structure MemoryWalk where
  base : ObserveWalk
  counts : List TokenCount

/-- `atp_memory_emit`. -/
def memoryEmit (sourceHash : UInt64) (w : MemoryWalk) (token : Token) : MemoryWalk×Bool :=
  match observeEmit sourceHash w.base token with
  | (base,false) => ({w with base := base},false)
  | (base,true) => (⟨base,bumpCount (base.previous.getD 0) w.counts⟩,true)

/-- The selection of an observation for memory: new vocabulary or two distinct tokens. -/
def isRemembered (nodesBefore : ℕ) (w : MemoryWalk) : Bool :=
  nodesBefore < w.base.graph.nodes.length || 2 ≤ w.counts.length

/-- `atp_graph_observe_with_memory`, with whether the text was remembered. -/
def observeWithMemory (U : Utf8proc) (env : IndexEnv) (g : Graph) (text : Text)
    (p : Provenance) : Graph×Status×Bool :=
  if ¬g.fitsBudget U text then (g.reject,.capacity,false)
  else
    let w := emitAll (memoryEmit (hashSource p.sourceId.bytes)) ⟨.start g,[]⟩
      (tokenize U p.schemaVersion text)
    if w.base.status ≠ .ok then (w.base.graph,w.base.status,false)
    else
      let learned := w.base.graph.countObservation w.base.sawToken
      if ¬isRemembered g.nodes.length w then (learned,.ok,false)
      else
        let (g,status) := learned.rememberEpisode env
          (buildEpisode (w.counts.mergeSort countBefore) p)
        (g,status,true)

/-! ## The outline of a graph

Which tokens are known, which pairs are joined, the configuration and the count of tokens
seen. Training and exposure leave it alone; the walk grows it. -/

structure Outline where
  config : GraphConfig
  tokens : List Token
  links : List (ℕ×ℕ)
  tokenObservations : UInt64

def Edge.link (e : Edge) : ℕ×ℕ := (e.source,e.target)

namespace Graph

def tokens (g : Graph) : List Token := g.nodes.map Node.token
def links (g : Graph) : List (ℕ×ℕ) := g.edges.map Edge.link

def outline (g : Graph) : Outline := ⟨g.config,g.tokens,g.links,g.tokenObservations⟩

@[simp] theorem tokens_length (g : Graph) : g.tokens.length = g.nodes.length := List.length_map _

@[simp] theorem links_length (g : Graph) : g.links.length = g.edges.length := List.length_map _

theorem findNode_eq (g : Graph) (token : Token) :
    g.findNode token = g.tokens.findIdx? (· = token) := by
  rw [tokens,List.findIdx?_map]
  rfl

theorem findEdge_eq (g : Graph) (source target : ℕ) :
    g.findEdge source target = g.links.findIdx? (· = (source,target)) := by
  rw [links,List.findIdx?_map]
  refine congrArg (fun p => g.edges.findIdx? p) (funext fun e => ?_)
  simp [Edge.link]

theorem outline_trainOn (g : Graph) (source target : ℕ) (expected : Float32) :
    (g.trainOn source target expected).outline = g.outline := by
  have h := (trainPair_reframes g.config.tuning g.neuralArchitecture.embeddingDim g.network
    g.nodes source target expected).nodes
  have htokens := congrArg (List.map Prod.fst) h
  rw [List.map_map,List.map_map] at htokens
  rw [outline,outline,Outline.mk.injEq]
  exact ⟨rfl,htokens,rfl,rfl⟩

theorem outline_rng (g : Graph) (rng : UInt64) : {g with rngState := rng}.outline = g.outline := rfl

theorem outline_trainNegative (g : Graph) (source target : ℕ) :
    (g.trainNegative source target).outline = g.outline := by
  unfold trainNegative
  generalize drawNegative g.nodes.length source target 8 g.rngState 0 = drawn
  split
  · simp only
    split
    · rw [outline_trainOn,outline_rng]
    · rw [outline_rng]
  · rfl

theorem map_modify_same {α β : Type} {f : α → β} {step : α → α} (h : ∀ a, f (step a) = f a)
    (as : List α) (i : ℕ) : (as.modify i step).map f = as.map f := by
  refine List.ext_getElem? fun j => ?_
  rw [List.getElem?_map,List.getElem?_modify,List.getElem?_map]
  cases as[j]? with
  | none => rfl
  | some a =>
      simp only [Option.map_eq_map,Option.map_some,Option.some.injEq]
      split
      · exact h a
      · rfl

theorem outline_strengthen (g : Graph) (edge source target : ℕ) (sourceHash : UInt64) :
    (g.strengthen edge source target sourceHash).outline = g.outline := by
  rw [outline,outline,Outline.mk.injEq]
  refine ⟨rfl,rfl,?_,rfl⟩
  unfold links strengthen
  exact map_modify_same (fun _ => by simp [Edge.link]) _ _

@[simp] theorem outline_learnPair (g : Graph) (edge source target : ℕ) (sourceHash : UInt64) :
    (g.learnPair edge source target sourceHash).outline = g.outline := by
  rw [learnPair,outline_strengthen,outline_trainNegative,outline_trainOn]

@[simp] theorem outline_exposeNode (g : Graph) (i : ℕ) : (g.exposeNode i).outline = g.outline := by
  rw [outline,outline,Outline.mk.injEq]
  refine ⟨rfl,?_,rfl,rfl⟩
  unfold tokens exposeNode
  exact map_modify_same (fun _ => by simp) _ _

@[simp] theorem outline_reject (g : Graph) : g.reject.outline = g.outline := rfl

@[simp] theorem outline_createNode (g : Graph) (token : Token) :
    (g.createNode token).outline = {g.outline with tokens := g.tokens++[token]} := by
  rw [outline,Outline.mk.injEq]
  exact ⟨rfl,List.map_append,rfl,rfl⟩

@[simp] theorem outline_createEdge (g : Graph) (source target : ℕ) (sourceHash : UInt64) :
    (g.createEdge source target sourceHash).outline =
      {g.outline with links := g.links++[(source,target)]} := by
  rw [outline,Outline.mk.injEq]
  exact ⟨rfl,rfl,List.map_append,rfl⟩

@[simp] theorem outline_countObservation (g : Graph) (sawToken : Bool) :
    (g.countObservation sawToken).outline = g.outline := by
  unfold countObservation
  split <;> rfl

end Graph

end Atperson.Core
