import Atperson.Core.Types

/-!
# The episode group index

Episodes with the same summary share a group, found by a hash of the summary. A group
keeps the union of its members' summary tokens, up to a bound. The key table holds exactly
the live groups, so finding a group is the first match in the group array; only the growth
of the table is modelled, as it can fail.

Every function takes the allocation failures to come and hands on what it has not used.
-/
namespace Atperson.Core

/-- The allocations to come: `true` fails the next one. Beyond the list all succeed. -/
abbrev Allocs := List Bool

def allocFails (a : Allocs) : Bool := a.headD false

/-- What the index meets in one call: failing allocations, and what unwritten cells of
`episode_group_ids` read as. -/
structure IndexEnv where
  allocs : Allocs
  junk : ℕ → ℕ

/-- Every allocation succeeds. -/
def IndexEnv.calm : IndexEnv := ⟨[],fun _ => 0⟩

/-- Double a capacity until it covers what is needed, with fuel for the doublings. -/
def growCapacity (needed : ℕ) : ℕ → ℕ → ℕ
  | 0, capacity => capacity
  | fuel+1, capacity => if capacity < needed then growCapacity needed fuel (capacity*2) else capacity

/-- FNV-1a over four bytes of a node index. -/
def groupKeyNode (hash : UInt64) (node : ℕ) : UInt64 :=
  [0,8,16,24].foldl (fun h shift =>
    (h^^^UInt64.ofNat (node>>>shift%256))*1099511628211) hash

/-- `atp_episode_group_key`. -/
def episodeGroupKey (e : Episode) : UInt64 :=
  e.summary.foldl (fun h t => groupKeyNode h t.nodeIndex) 1469598103934665603

/-- Add summary tokens to a union that stops at its bound. -/
def unionTokens (tokens : List ℕ) (summary : List EpisodeToken) : List ℕ :=
  summary.foldl (fun ts t =>
    if t.nodeIndex ∈ ts ∨ groupTokenMax ≤ ts.length then ts else ts++[t.nodeIndex]) tokens

namespace GroupIndex

def empty : GroupIndex := ⟨[],0,0,[]⟩

/-- `atp_group_find`. -/
def find (x : GroupIndex) (key : UInt64) : Option ℕ := x.groups.findIdx? fun g => g.key = key

/-- The capacity `atp_group_table_rebuild` grows the table to. -/
def grownTable (x : GroupIndex) : ℕ :=
  let needed := x.groups.length+1
  growCapacity (needed*2) needed (if x.tableCapacity = 0 then 16 else x.tableCapacity*2)

/-- `atp_group_create`. -/
def create (a : Allocs) (x : GroupIndex) (key : UInt64) : GroupIndex×Allocs×Option ℕ :=
  let full := x.groups.length = x.groupCapacity
  if full ∧ allocFails a then (x,a.tail,none)
  else
    let (x,a) := if full then
        ({x with groupCapacity := if x.groupCapacity = 0 then 8 else x.groupCapacity*2},a.tail)
      else (x,a)
    let crowded := x.tableCapacity < x.groups.length*2+2
    if crowded ∧ allocFails a then (x,a.tail,none)
    else
      let (x,a) := if crowded then
          ({x with tableCapacity := x.grownTable},a.tail)
        else (x,a)
      ({x with groups := x.groups++[⟨key,[],0⟩]},a,some x.groups.length)

/-- `atp_group_members_reserve`. -/
def reserveMembers (a : Allocs) (x : GroupIndex) (needed : ℕ) : GroupIndex×Allocs×Bool :=
  if needed ≤ x.members.length then (x,a,true)
  else if allocFails a then (x,a.tail,false)
  else
    let capacity := growCapacity needed needed (if x.members.length = 0 then 64 else x.members.length)
    ({x with members := x.members++List.replicate (capacity-x.members.length) none},a.tail,true)

/-- Put an episode into a group: write its id and add its tokens to the union. -/
def join (x : GroupIndex) (i group : ℕ) (e : Episode) : GroupIndex :=
  {x with
    members := x.members.set i (some group)
    groups := x.groups.modify group fun g => {g with tokens := unionTokens g.tokens e.summary}}

/-- `atp_group_index_episode`. -/
def indexEpisode (a : Allocs) (x : GroupIndex) (i : ℕ) (e : Episode) : GroupIndex×Allocs×Bool :=
  match x.find (episodeGroupKey e) with
  | some group => (x.join i group e,a,true)
  | none =>
      match x.create a (episodeGroupKey e) with
      | (x,a,some group) => (x.join i group e,a,true)
      | (x,a,none) => (x,a,false)

/-- Give a group that was created anew the eviction counter its key had before. -/
def restoreEvictions (carry : List EpisodeGroup) (key : UInt64) (group : ℕ) (x : GroupIndex) :
    GroupIndex :=
  match carry.find? (fun c => c.key = key) with
  | none => x
  | some c => {x with groups := x.groups.modify group fun g => {g with evictions := c.evictions}}

/-- One round of the loop of `atp_episode_groups_rebuild_carried`. -/
def rebuildEpisode (carry : List EpisodeGroup) (a : Allocs) (x : GroupIndex) (i : ℕ) (e : Episode) :
    GroupIndex×Allocs×Bool :=
  let key := episodeGroupKey e
  match x.find key with
  | some group => (x.join i group e,a,true)
  | none =>
      match x.create a key with
      | (x,a,some group) => ((x.restoreEvictions carry key group).join i group e,a,true)
      | (x,a,none) => (x,a,false)

def rebuildFrom (carry : List EpisodeGroup) : Allocs → GroupIndex → ℕ → List Episode →
    GroupIndex×Allocs×Bool
  | a, x, _, [] => (x,a,true)
  | a, x, i, e::rest =>
      match x.rebuildEpisode carry a i e with
      | (x,a,true) => rebuildFrom carry a x (i+1) rest
      | (x,a,false) => (x,a,false)

/-- `atp_episode_groups_rebuild_carried`. -/
def rebuildCarried (a : Allocs) (x : GroupIndex) (carry : List EpisodeGroup)
    (episodes : List Episode) : GroupIndex×Allocs×Bool :=
  match x.reserveMembers a episodes.length with
  | (x,a,false) => (x,a,false)
  | (x,a,true) => rebuildFrom carry a {x with groups := []} 0 episodes

/-- `atp_episode_groups_rebuild`: capture the eviction counters, then rebuild. -/
def rebuild (a : Allocs) (x : GroupIndex) (episodes : List Episode) : GroupIndex×Allocs×Bool :=
  if x.groups = [] then x.rebuildCarried a [] episodes
  else if allocFails a then (x,a.tail,false)
  else x.rebuildCarried a.tail x.groups episodes

/-- `atp_episode_groups_append`, for the last of the episodes. -/
def append (a : Allocs) (x : GroupIndex) (episodes : List Episode) : GroupIndex×Allocs×Bool :=
  match episodes.getLast? with
  | none => (x,a,false)
  | some e =>
      match x.reserveMembers a episodes.length with
      | (x,a,false) => (x,a,false)
      | (x,a,true) => x.indexEpisode a (episodes.length-1) e

/-- The group id that `episode_group_ids` holds for an episode. -/
def memberId (junk : ℕ → ℕ) (x : GroupIndex) (i : ℕ) : ℕ := (x.members.getD i none).getD (junk i)

/-- `atp_episode_groups_note_eviction`. -/
def noteEviction (junk : ℕ → ℕ) (x : GroupIndex) (i : ℕ) : GroupIndex :=
  if x.members = [] then x
  else {x with groups := x.groups.modify (x.memberId junk i) fun g =>
    {g with evictions := g.evictions+1}}

end GroupIndex

end Atperson.Core
