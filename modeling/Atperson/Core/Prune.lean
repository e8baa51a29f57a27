import Atperson.Core.Observe
import Atperson.Runs.Compaction

/-!
# Vocabulary pruning

The least observed tokens are dropped until a bound is met; tokens with valence never are.
Everything that holds a node index is moved along with the nodes that stay. The node and edge
indexes are searches of the arrays here, so that only their allocation can fail.
-/
namespace Atperson.Core
open Ledger (Status)

/-! ## What is dropped -/

structure PruneCandidate where
  observations : UInt64
  familiarity : Float32
  index : ℕ
  deriving DecidableEq

/-- `atp_prune_candidate_compare`, where it does not come out positive. -/
def pruneBefore (a b : PruneCandidate) : Bool :=
  if a.observations ≠ b.observations then a.observations < b.observations
  else if a.familiarity != b.familiarity then a.familiarity < b.familiarity
  else a.index ≤ b.index

namespace Graph

/-- A node with valence. -/
def isProtected (g : Graph) (i : ℕ) : Bool :=
  g.valenceRecords.any (fun r => r.nodeIndex = i) || g.valenceEvents.any fun e => e.nodeIndex = i

def pruneCandidates (g : Graph) : List PruneCandidate :=
  g.nodes.zipIdx.filterMap fun n =>
    if g.isProtected n.2 then none else some ⟨n.1.observations,n.1.familiarity,n.2⟩

/-- The nodes dropped for a bound: as many of the first candidates as are too many. -/
def pruned (g : Graph) (maxNodes : ℕ) : List ℕ :=
  ((g.pruneCandidates.mergeSort pruneBefore).take (g.nodes.length-maxNodes)).map
    PruneCandidate.index

end Graph

/-! ## The rewrite -/

/-- New places of the nodes, by a table with a mark for the dropped ones. -/
abbrev Remap := List (Option ℕ)

/-- The place of an index, which is none beyond the table. -/
def Remap.at (m : Remap) (i : ℕ) : Option ℕ := m.getD i none

/-- The mark of a dropped node, `ATP_PRUNED`, where it is read as an index. -/
def prunedMark : ℕ := 2^32-1

/-- The place of an index that is read from the table without a check. -/
def Remap.index (m : Remap) (i : ℕ) : ℕ := (m.at i).getD prunedMark

def Edge.remap (m : Remap) (e : Edge) : Option Edge := do
  let source ← m.at e.source
  let target ← m.at e.target
  return {e with source,target}

def EpisodeToken.remap (m : Remap) (t : EpisodeToken) : Option EpisodeToken :=
  (m.at t.nodeIndex).map fun nodeIndex => {t with nodeIndex}

/-- An episode with the tokens it keeps, unless it keeps none. -/
def Episode.remap (m : Remap) (e : Episode) : Option Episode :=
  if e.summary.filterMap (EpisodeToken.remap m) = [] then none
  else some {e with
    summary := e.summary.filterMap (EpisodeToken.remap m)
    bounded := (List.length_filterMap_le _ _).trans e.bounded}

namespace GroupIndex

/-- `atp_episode_groups_reserve`. -/
def reserveGroups (a : Allocs) (x : GroupIndex) (maxGroups : ℕ) : GroupIndex×Allocs×Bool :=
  match x.reserveMembers a maxGroups with
  | (x,a,false) => (x,a,false)
  | (x,a,true) =>
      let short := x.groupCapacity < maxGroups
      if short ∧ allocFails a then (x,a.tail,false)
      else
        let groupCapacity := if x.groupCapacity = 0 then 8 else x.groupCapacity
        let (x,a) := if short then
            ({x with groupCapacity := growCapacity maxGroups maxGroups groupCapacity},a.tail)
          else (x,a)
        let crowded := x.tableCapacity < maxGroups*2+2
        let tableCapacity := if x.tableCapacity = 0 then 16 else x.tableCapacity*2
        if crowded ∧ allocFails a then (x,a.tail,false)
        else if crowded then
          ({x with tableCapacity := growCapacity ((maxGroups+1)*2) (maxGroups+1) tableCapacity},
            a.tail,true)
        else (x,a,true)

end GroupIndex

structure PruneReport where
  nodesBefore : ℕ
  nodesAfter : ℕ
  edgesBefore : ℕ
  edgesAfter : ℕ
  episodesBefore : ℕ
  episodesAfter : ℕ
  deriving DecidableEq

namespace Graph

/-- The table of the nodes that stay when some are dropped. -/
def remapOf (g : Graph) (dropped : List ℕ) : Remap :=
  Runs.placesFrom (fun i => i ∉ dropped) 0 0 g.nodes.length

/-- The rewrite of everything that holds a node index, but for the groups. -/
def restrict (g : Graph) (dropped : List ℕ) : Graph :=
  let m := g.remapOf dropped
  let episodes := g.episodes.filterMap (Episode.remap m)
  {g with
    nodes := Runs.survivors (fun i => i ∉ dropped) 0 g.nodes
    edges := g.edges.filterMap (Edge.remap m)
    valenceRecords := g.valenceRecords.map fun r => {r with nodeIndex := m.index r.nodeIndex}
    valenceEvents := g.valenceEvents.map fun e => {e with nodeIndex := m.index e.nodeIndex}
    episodes
    episodeEvictions := g.episodeEvictions+UInt64.ofNat (g.episodes.length-episodes.length)}

def pruneReport (g g' : Graph) : PruneReport :=
  ⟨g.nodes.length,g'.nodes.length,g.edges.length,g'.edges.length,g.episodes.length,
    g'.episodes.length⟩

/-- `atp_graph_prune_vocabulary`. The tables of the rewrite are allocated or not; the
allocations of the group index come one by one. -/
def pruneVocabulary (allocated : Bool) (allocs : Allocs) (g : Graph) (maxNodes : ℕ) :
    Graph×Status×PruneReport :=
  if maxNodes = 0 ∨ 2^32-1 < g.nodes.length then (g,.invalidArgument,⟨0,0,0,0,0,0⟩)
  else if g.nodes.length ≤ maxNodes then (g,.ok,g.pruneReport g)
  else if ¬allocated then (g,.outOfMemory,g.pruneReport g)
  else match g.index.reserveGroups allocs g.episodes.length with
    | (index,_,false) => ({g with index},.outOfMemory,g.pruneReport g)
    | (index,allocs,true) =>
        if index.groups ≠ [] ∧ allocFails allocs then
          ({g with index},.outOfMemory,g.pruneReport g)
        else
          let allocs := if index.groups = [] then allocs else allocs.tail
          let rewritten := g.restrict (g.pruned maxNodes)
          match index.rebuildCarried allocs index.groups rewritten.episodes with
          | (index,_,true) =>
              let g' := {rewritten with index}
              (g',.ok,g.pruneReport g')
          | (index,_,false) => ({rewritten with index},.outOfMemory,g.pruneReport g)

/-! ## What stays -/

/-- The nodes that stay. -/
def keeps (dropped : List ℕ) (i : ℕ) : Bool := i ∉ dropped

/-- A node with valence is never dropped. -/
theorem keeps_protected {g : Graph} {i : ℕ} (h : g.isProtected i = true) (maxNodes : ℕ) :
    keeps (g.pruned maxNodes) i = true := by
  refine decide_eq_true fun hmem => ?_
  obtain ⟨c,hc,rfl⟩ := List.mem_map.mp hmem
  have hcandidate := List.mem_mergeSort.mp (List.mem_of_mem_take hc)
  obtain ⟨n,-,hn⟩ := List.mem_filterMap.mp hcandidate
  split at hn
  · cases hn
  · rename_i hnot
    obtain rfl := Option.some.inj hn
    exact hnot h

theorem keeps_record {g : Graph} {r : ValenceRecord} (h : r ∈ g.valenceRecords) (maxNodes : ℕ) :
    keeps (g.pruned maxNodes) r.nodeIndex = true := by
  refine keeps_protected ?_ maxNodes
  unfold isProtected
  rw [Bool.or_eq_true,List.any_eq_true]
  exact .inl ⟨r,h,decide_eq_true rfl⟩

theorem keeps_event {g : Graph} {e : ValenceEvent} (h : e ∈ g.valenceEvents) (maxNodes : ℕ) :
    keeps (g.pruned maxNodes) e.nodeIndex = true := by
  refine keeps_protected ?_ maxNodes
  unfold isProtected
  rw [Bool.or_eq_true,List.any_eq_true]
  exact .inr (List.any_eq_true.mpr ⟨e,h,decide_eq_true rfl⟩)

/-- A node that stays has the place the table gives it. -/
theorem remapOf_index {g : Graph} {dropped : List ℕ} {i : ℕ} (hi : i < g.nodes.length)
    (hkeep : keeps dropped i = true) :
    (g.remapOf dropped).index i = Runs.place (keeps dropped) i := by
  have hplace : (g.remapOf dropped)[i]? = some (some (Runs.place (keeps dropped) i)) := by
    unfold remapOf
    rw [Runs.getElem?_places,if_pos hi]
    exact congrArg some (if_pos hkeep)
  unfold Remap.index Remap.at
  rw [List.getD_eq_getElem?_getD,hplace]
  rfl

theorem tokens_restrict (g : Graph) (dropped : List ℕ) :
    (g.restrict dropped).tokens = Runs.survivors (keeps dropped) 0 g.tokens :=
  (Runs.survivors_map Node.token 0 g.nodes).symm

/-- The token of a node that stays is found at its new place. -/
theorem token_restrict {g : Graph} {dropped : List ℕ} {i : ℕ} (hi : i < g.nodes.length)
    (hkeep : keeps dropped i = true) :
    (g.restrict dropped).tokens[(g.remapOf dropped).index i]? = g.tokens[i]? := by
  rw [remapOf_index hi hkeep,tokens_restrict]
  exact Runs.survivors_place hkeep (by rwa [tokens_length])

/-- A prune rewrites the graph or leaves it, but for the group index. -/
theorem pruneVocabulary_cases (allocated : Bool) (allocs : Allocs) (g : Graph) (maxNodes : ℕ) :
    (∃ index, (g.pruneVocabulary allocated allocs maxNodes).1 = {g with index}) ∨
      ∃ index, (g.pruneVocabulary allocated allocs maxNodes).1 =
        {g.restrict (g.pruned maxNodes) with index} := by
  unfold pruneVocabulary
  split
  · exact .inl ⟨g.index,rfl⟩
  · split
    · exact .inl ⟨g.index,rfl⟩
    · split
      · exact .inl ⟨g.index,rfl⟩
      · split
        · exact .inl ⟨_,rfl⟩
        · simp only
          split
          · exact .inl ⟨_,rfl⟩
          · split
            · exact .inr ⟨_,rfl⟩
            · exact .inr ⟨_,rfl⟩

end Graph

end Atperson.Core
