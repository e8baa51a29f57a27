import Atperson.Core.Observe

/-!
# Recall

The episodes that share tokens with a query, the strongest overlap first. Groups without a
token of the query are passed over where the index is there. Recall counts on the episodes it
returns and leaves everything else alone.
-/
namespace Atperson.Core
open Ledger (Status)

structure RecallConfig where
  minOverlap : Float32
  maxPrefilter : ℕ
  disable : Bool
  deriving DecidableEq

/-- `atp_recall_default_config`. -/
def RecallConfig.default : RecallConfig := ⟨0,0,false⟩

inductive RecallGate where
  | none | disabled | prefilter | minOverlap
  deriving DecidableEq

structure RecallReport where
  episodesTotal : ℕ
  episodesScanned : ℕ
  episodesMatched : ℕ
  episodesReturned : ℕ
  gate : RecallGate
  groupsTotal : ℕ
  groupsScanned : ℕ
  deriving DecidableEq

structure RecallMatch where
  episodeIndex : ℕ
  score : Float32
  observedAt : UInt64
  ledgerId : UInt64
  deriving DecidableEq

/-- `atp_recall_match_compare`, where it does not come out positive. -/
def recallBefore (a b : RecallMatch) : Bool :=
  if a.score < b.score then false
  else if b.score < a.score then true
  else if a.observedAt < b.observedAt then false
  else if b.observedAt < a.observedAt then true
  else b.ledgerId ≤ a.ledgerId

/-- `atp_query_emit`: a known token that is not there yet. -/
def queryEmit (g : Graph) (nodes : List ℕ) (token : Token) : List ℕ :=
  match g.findNode token with
  | none => nodes
  | some node => if node ∈ nodes then nodes else nodes++[node]

/-- `atp_graph_query_nodes`. -/
def queryNodes (U : Utf8proc) (g : Graph) (query : Text) : List ℕ :=
  (tokenize U schemaVersion query).foldl (queryEmit g) []

/-- A group is scanned if its union is full or has a node of the query. -/
def EpisodeGroup.overlaps (x : EpisodeGroup) (query : List ℕ) : Bool :=
  x.tokens.length = groupTokenMax || x.tokens.any fun t => t ∈ query

namespace GroupIndex

/-- The groups that are scanned. -/
def scannedGroups (x : GroupIndex) (query : List ℕ) : List ℕ :=
  (List.range x.groups.length).filter fun k =>
    (x.groups.map fun group => group.overlaps query).getD k false

/-- The flags of `scan_episode`, where they are there: the index must have groups, and the
flags be allocated. -/
def scanFlags (env : IndexEnv) (x : GroupIndex) (query : List ℕ) : Option (ℕ → Bool) :=
  if x.members = [] ∨ x.groups = [] ∨ allocFails env.allocs then none
  else some fun i => x.memberId env.junk i ∈ x.scannedGroups query

end GroupIndex

/-- The overlap of an episode with a query. -/
def overlapScore (nodeCount : ℕ) (query : List ℕ) (e : Episode) : Float32 :=
  e.summary.foldl (fun score t =>
    if t.nodeIndex < nodeCount ∧ t.nodeIndex ∈ query then score+t.weight else score) 0

namespace Graph

/-- The first episode of the scan: only the most recent ones are scanned. -/
def scanStart (g : Graph) (policy : RecallConfig) : ℕ :=
  if 0 < policy.maxPrefilter ∧ policy.maxPrefilter < g.episodes.length then
    g.episodes.length-policy.maxPrefilter
  else 0

/-- The matches of a scan, with the flags of the prefilter. -/
def recallMatches (g : Graph) (policy : RecallConfig) (query : List ℕ)
    (flags : Option (ℕ → Bool)) : List RecallMatch :=
  (g.episodes.zipIdx.drop (g.scanStart policy)).filterMap fun e =>
    if flags.all fun flag => flag e.2 then
      let score := overlapScore g.nodes.length query e.1
      if 0 < score ∧ policy.minOverlap ≤ score then
        some ⟨e.2,score,e.1.observedAt,e.1.ledgerId⟩
      else none
    else none

/-- An episode is recalled. -/
def countRecall (atEpoch : UInt64) (g : Graph) (i : ℕ) : Graph :=
  {g with episodes := g.episodes.modify i fun e => {e with
    recallCount := e.recallCount+1
    lastRecallAt := atEpoch}}

/-- `atp_graph_recall`, with the episodes it hands out. The first allocation of the
environment is that of the flags; the others succeed. -/
def recallEpisodes (U : Utf8proc) (env : IndexEnv) (g : Graph) (query : Text) (atEpoch : UInt64)
    (policy : RecallConfig) (capacity : ℕ) : Graph×RecallReport×List Episode :=
  let report : RecallReport := ⟨g.episodes.length,0,0,0,.none,0,0⟩
  if policy.disable then (g,{report with gate := .disabled},[])
  else if capacity = 0 ∨ g.episodes = [] then (g,report,[])
  else
    let nodes := queryNodes U g query
    if nodes = [] then (g,{report with groupsTotal := g.index.groups.length},[])
    else
      let start := g.scanStart policy
      let flags := g.index.scanFlags env nodes
      let found := g.recallMatches policy nodes flags
      let returned := (found.mergeSort recallBefore).take capacity
      (returned.foldl (fun g m => g.countRecall atEpoch m.episodeIndex) g,
        {report with
          episodesScanned := g.episodes.length-start
          episodesMatched := found.length
          episodesReturned := returned.length
          gate := if 0 < policy.minOverlap then .minOverlap
            else if 0 < start then .prefilter else .none
          groupsTotal := if flags.isSome then g.index.groups.length else 0
          groupsScanned := if flags.isSome then (g.index.scannedGroups nodes).length else 0},
        returned.filterMap fun m => g.episodes[m.episodeIndex]?)

end Graph

end Atperson.Core
