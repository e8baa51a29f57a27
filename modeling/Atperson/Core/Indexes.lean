import Atperson.Core.Observe
import Atperson.Ledger.Index
import Atperson.Runs.Fallible
import Atperson.Wire.SortableDigits

/-!
# The indexes of a graph

The open-addressing indexes over the nodes and the edges, as far as the arrays under them matter:
the tokens in node order and the ends in edge order. Arrays and tables lie in memory, so no size
that counts them wraps.
-/
namespace Atperson.Core
open Wire Runs

/-- What goes wrong in a step: a loop that never ends, or a write outside an array. -/
inductive IndexFault where
  | unending | outside
  deriving DecidableEq

/-- `ATP_INDEX_EMPTY`. -/
def indexEmpty : UInt32 := 0xFFFFFFFF

def slotEntry (slot : UInt32) : Option ℕ := if slot = indexEmpty then none else some slot.toNat

def slotOf {κ : Type} (i : ℕ) (_ : κ) : UInt32 := UInt32.ofNat i

/-- `(int32_t)entry`. -/
def asInt32 (entry : ℕ) : ℤ := if entry < 2^31 then entry else entry-2^32

/-- An array with its index: no slots before the first entry. -/
structure Indexed (κ : Type) where
  entries : List κ
  slots : Option (List UInt32)
  deriving DecidableEq

/-- How an array is indexed: the hash of an entry, the smallest table, the bytes of one row. -/
structure Indexing (κ : Type) where
  hash : κ → UInt64
  minimum : ℕ
  rowBytes : ℕ
  power : ∃ n, minimum = 2^n

/-- Which allocations of a step succeed: the array, its index, and what the new entry owns. -/
structure Allocation where
  rows : Bool
  table : Bool
  owned : Bool
  deriving DecidableEq

/-- No allocator gives more than the address space. -/
def grants (allocator : Bool) (bytes : ℕ) : Bool := allocator && bytes ≤ wordMax

namespace Indexed
variable {κ : Type} (L : Indexing κ)

def empty : Indexed κ := ⟨[],none⟩

def capacity (x : Indexed κ) : ℕ := (x.slots.getD []).length

def emptySlots (capacity : ℕ) : List UInt32 := List.replicate capacity indexEmpty

/-- `atp_node_index_fill` and `atp_edge_index_fill`. -/
def filled (entries : List κ) (capacity : ℕ) : Option (List UInt32) :=
  fill slotEntry (fun key => (L.hash key).toNat) slotOf 0 entries (emptySlots capacity)

/-- `atp_node_index_rebuild` and `atp_edge_index_rebuild`. -/
def rebuild (table : Bool) (x : Indexed κ) (needed : ℕ) : Except IndexFault (Indexed κ×Bool) :=
  match doubled (needed*2) 65 (if x.capacity = 0 then L.minimum else x.capacity*2) with
  | none => .ok (x,false)
  | some capacity =>
      if ¬grants table (capacity*4) then .ok (x,false)
      else match filled L x.entries capacity with
        | none => .error .unending
        | some slots => .ok (⟨x.entries,some slots⟩,true)

/-- `atp_node_index_maybe_grow` and `atp_edge_index_maybe_grow`. -/
def maybeGrow (table : Bool) (x : Indexed κ) : Except IndexFault (Indexed κ×Bool) :=
  if x.capacity < x.entries.length*2+2 then x.rebuild L table (x.entries.length+1)
  else .ok (x,true)

/-- `atp_node_index_insert` and `atp_edge_index_insert`, for an entry already in the array. -/
def insert (x : Indexed κ) (i : ℕ) (key : κ) : Except IndexFault (Indexed κ) :=
  match x.slots with
  | none => .ok x
  | some slots =>
      match putFree slotEntry slots (L.hash key).toNat (slotOf i key) with
      | none => .error .unending
      | some slots => .ok ⟨x.entries,some slots⟩

/-- Whether a slot names the entry looked for. -/
def names [DecidableEq κ] (entries : List κ) (key : κ) (_ : UInt32) (i : ℕ) : Bool :=
  entries[i]? = some key

/-- `atp_find_node` and `atp_find_edge`: `none` where the loop never ends. -/
def find [DecidableEq κ] (x : Indexed κ) (key : κ) : Option ℤ :=
  match x.slots with
  | none => some (-1)
  | some slots =>
      (search slotEntry (names x.entries key) slots (L.hash key).toNat).map fun r =>
        r.elim (-1) asInt32

/-- `atp_index_capacity_for`. -/
def capacityFor (entries : ℕ) : Option ℕ := doubled ((entries+1)*2) 65 L.minimum

end Indexed

/-! ## Nodes and edges -/

/-- `atp_hash_token`. -/
def hashToken (token : Bytes) : UInt64 := fnv1a64 token

/-- `atp_hash_edge_key`. -/
def hashEdgeKey (key : UInt32×UInt32) : UInt64 :=
  let hash := (key.1.toUInt64 <<< 32) ||| key.2.toUInt64
  let hash := (hash^^^(hash >>> 30))*0xBF58476D1CE4E5B9
  let hash := (hash^^^(hash >>> 27))*0x94D049BB133111EB
  hash^^^(hash >>> 31)

def nodeLayout : Indexing Bytes := ⟨hashToken,64,40,6,rfl⟩

def edgeLayout : Indexing (UInt32×UInt32) := ⟨hashEdgeKey,128,32,7,rfl⟩

/-- The part of a graph its indexes see: the token of each node and the ends of each edge. -/
structure IndexedGraph where
  nodes : Indexed Bytes
  edges : Indexed (UInt32×UInt32)
  deriving DecidableEq

namespace IndexedGraph

def created : IndexedGraph := ⟨.empty,.empty⟩

/-- `atp_find_node`. -/
def findNode (g : IndexedGraph) (token : Bytes) : Option ℤ := g.nodes.find nodeLayout token

/-- `atp_find_edge`. -/
def findEdge (g : IndexedGraph) (source target : UInt32) : Option ℤ :=
  g.edges.find edgeLayout (source,target)

/-- `atp_intern_node_checked`. -/
def internNode (nodeCapacityMax : ℕ) (m : Allocation) (g : IndexedGraph) (token : Bytes) :
    Except IndexFault IndexedGraph :=
  match g.findNode token with
  | none => .error .unending
  | some existing =>
      if 0 ≤ existing then .ok g
      else if nodeCapacityMax ≠ 0 ∧ nodeCapacityMax ≤ g.nodes.entries.length then .ok g
      else if 2^32-1 ≤ g.nodes.entries.length ∨
          ¬grants m.rows ((g.nodes.entries.length+1)*nodeLayout.rowBytes) then .ok g
      else do
        let (nodes,grown) ← g.nodes.maybeGrow nodeLayout m.table
        if ¬grown ∨ ¬m.owned then return {g with nodes}
        let nodes := {nodes with entries := nodes.entries++[token]}
        return {g with nodes := ← nodes.insert nodeLayout (nodes.entries.length-1) token}

/-- `atp_observe_pair` up to the training. The new edge is written where its number as an `int32_t`
says, in a row that holds anything. -/
def observePair (edgeCapacityMax : ℕ) (m : Allocation) (row : UInt32×UInt32) (g : IndexedGraph)
    (source target : UInt32) : Except IndexFault IndexedGraph :=
  if g.nodes.entries.length ≤ source.toNat ∨ g.nodes.entries.length ≤ target.toNat then .ok g
  else match g.findEdge source target with
    | none => .error .unending
    | some edge =>
        if 0 ≤ edge then .ok g
        else if edgeCapacityMax ≠ 0 ∧ edgeCapacityMax ≤ g.edges.entries.length then .ok g
        else if ¬grants m.rows ((g.edges.entries.length+1)*edgeLayout.rowBytes) then .ok g
        else do
          let (edges,grown) ← g.edges.maybeGrow edgeLayout m.table
          if ¬grown then return {g with edges}
          let edge := asInt32 (edges.entries.length%2^32)
          if edge < 0 then .error .outside
          else
            let entries := (edges.entries++[row]).set edge.toNat (source,target)
            return {g with edges := ← {edges with entries}.insert edgeLayout edge.toNat (source,target)}

/-! ## Pruning and loading -/

/-- The nodes a pruning keeps, with their new numbers. -/
def remap (drop : ℕ → Bool) (count i : ℕ) : Option UInt32 :=
  if i < count ∧ ¬drop i then some (UInt32.ofNat ((List.range i).countP fun j => ¬drop j)) else none

def keptTokens (drop : ℕ → Bool) (tokens : List Bytes) : List Bytes :=
  (tokens.zipIdx.filter fun p => ¬drop p.2).map Prod.fst

def keptLinks (drop : ℕ → Bool) (count : ℕ) (links : List (UInt32×UInt32)) : List (UInt32×UInt32) :=
  links.filterMap fun link => do
    return (← remap drop count link.1.toNat,← remap drop count link.2.toNat)

/-- `atp_graph_prune_vocabulary` where it drops the nodes it chose: the tables for what is left are
reserved before the arrays change, and filled behind. -/
def prune (m : Allocation) (drop : ℕ → Bool) (g : IndexedGraph) : Except IndexFault IndexedGraph :=
  let tokens := keptTokens drop g.nodes.entries
  let links := keptLinks drop g.nodes.entries.length g.edges.entries
  if 2^32-1 < g.nodes.entries.length then .ok g
  else match Indexed.capacityFor nodeLayout tokens.length,
      Indexed.capacityFor edgeLayout links.length with
    | some nodeCapacity,some edgeCapacity =>
        if ¬(grants m.table (nodeCapacity*4) ∧ grants m.table (edgeCapacity*4) ∧ m.owned) then .ok g
        else match Indexed.filled nodeLayout tokens nodeCapacity,
            Indexed.filled edgeLayout links edgeCapacity with
          | some nodeSlots,some edgeSlots => .ok ⟨⟨tokens,some nodeSlots⟩,⟨links,some edgeSlots⟩⟩
          | _,_ => .error .unending
    | _,_ => .ok g

/-- `atp_graph_rebuild_indexes` on the arrays a loader read, `none` where memory runs out. -/
def load (m : Allocation) (tokens : List Bytes) (links : List (UInt32×UInt32)) :
    Except IndexFault (Option IndexedGraph) := do
  let (nodes,ok) ← (⟨tokens,none⟩ : Indexed Bytes).rebuild nodeLayout m.table (tokens.length+1)
  if ¬ok then return none
  let (edges,ok) ← (⟨links,none⟩ : Indexed _).rebuild edgeLayout m.table (links.length+1)
  if ¬ok then return none
  return some ⟨nodes,edges⟩

end IndexedGraph

/-- The graphs that are reached from an empty one, and from any arrays a loader read: it takes any
edges between the nodes. -/
inductive Reaches : IndexedGraph → Prop
  | created : Reaches .created
  | interned {g g' : IndexedGraph} {nodeCapacityMax : ℕ} {m : Allocation} {token : Bytes} :
      Reaches g → g.internNode nodeCapacityMax m token = .ok g' → Reaches g'
  | paired {g g' : IndexedGraph} {edgeCapacityMax : ℕ} {m : Allocation} {row : UInt32×UInt32}
      {source target : UInt32} :
      Reaches g → g.observePair edgeCapacityMax m row source target = .ok g' → Reaches g'
  | pruned {g g' : IndexedGraph} {m : Allocation} {drop : ℕ → Bool} :
      Reaches g → g.prune m drop = .ok g' → Reaches g'
  | loaded {g : IndexedGraph} {m : Allocation} {tokens : List Bytes} {links : List (UInt32×UInt32)} :
      (∀ link ∈ links, link.1.toNat < tokens.length ∧ link.2.toNat < tokens.length) →
      IndexedGraph.load m tokens links = .ok (some g) → Reaches g

/-! ## Tables -/

theorem slotEntry_of {κ : Type} {i : ℕ} (h : i < 2^32-1) (key : κ) :
    slotEntry (slotOf i key) = some i := by
  have hword : (UInt32.ofNat i).toNat = i := UInt32.toNat_ofNat_of_lt' (by simp [UInt32.size]; omega)
  have hne : UInt32.ofNat i ≠ indexEmpty := by
    intro heq
    have := congrArg UInt32.toNat heq
    rw [hword,show indexEmpty.toNat = 2^32-1 from rfl] at this
    omega
  rw [slotEntry,slotOf,if_neg hne,hword]

section Indexed
variable {κ : Type} {L : Indexing κ}

/-- A table over an array that is at most half full. -/
structure Table (L : Indexing κ) (entries : List κ) (slots : List UInt32) : Prop where
  room : entries.length*2 ≤ slots.length
  stands : Stands slotEntry (fun key => (L.hash key).toNat) slotOf (2^32-1) entries slots

theorem Table.spare {entries : List κ} {slots : List UInt32} (h : Table L entries slots) :
    entries.length < slots.length := by
  obtain ⟨n,hn⟩ := h.stands.power
  have hroom := h.room
  have hpos := Nat.two_pow_pos n
  omega

/-- Filling an empty table of twice the entries, and one more, ends in a table over them. -/
theorem filled_table {entries : List κ} {capacity n : ℕ} (hpower : capacity = 2^n)
    (hroom : (entries.length+1)*2 ≤ capacity) :
    ∃ slots, Indexed.filled L entries capacity = some slots ∧ Table L entries slots ∧
      slots.length = capacity := by
  have hblank : ∀ x ∈ Indexed.emptySlots capacity, slotEntry x = none := fun x hx => by
    rw [List.eq_of_mem_replicate hx]
    rfl
  have hlen : (Indexed.emptySlots capacity).length = capacity := List.length_replicate
  have hfits : entries.length < (Indexed.emptySlots capacity).length := by omega
  obtain ⟨slots,hfill,hlen',hstands⟩ :=
    stands_filled (fun _ => slotEntry_of) hblank (hlen.trans hpower) hfits
  exact ⟨slots,hfill,⟨by omega,hstands⟩,hlen'.trans hlen⟩

/-- An array with a table over it, or with no table and no entries. -/
structure Indexed.Sound (L : Indexing κ) (x : Indexed κ) : Prop where
  blank : x.slots = none → x.entries = []
  table : ∀ slots, x.slots = some slots → Table L x.entries slots

namespace Indexed
variable {x : Indexed κ}

theorem sound_empty : Sound L (empty : Indexed κ) := ⟨fun _ => rfl,fun slots h => by cases h⟩

theorem Sound.power (h : Sound L x) :
    ∃ n, (if x.capacity = 0 then L.minimum else x.capacity*2) = 2^n := by
  split
  · exact L.power
  · cases hslots : x.slots with
    | none =>
        have : x.capacity = 0 := by rw [capacity,hslots]; rfl
        contradiction
    | some slots =>
        obtain ⟨n,hn⟩ := (h.table slots hslots).stands.power
        exact ⟨n+1,by rw [capacity,hslots,Option.getD_some,hn,Nat.pow_succ]⟩

theorem rebuild_grown {capacity n : ℕ} {table : Bool}
    (hd : doubled ((x.entries.length+1)*2) 65
      (if x.capacity = 0 then L.minimum else x.capacity*2) = some capacity)
    (hpower : capacity = 2^n) (hroom : (x.entries.length+1)*2 ≤ capacity)
    (hg : grants table (capacity*4) = true) :
    ∃ slots, x.rebuild L table (x.entries.length+1) = .ok (⟨x.entries,some slots⟩,true) ∧
      Table L x.entries slots ∧ (x.entries.length+1)*2 ≤ slots.length := by
  obtain ⟨slots,hfill,htable,hlen⟩ := filled_table (L := L) hpower hroom
  refine ⟨slots,?_,htable,hlen.symm ▸ hroom⟩
  rw [rebuild,hd]
  simp only [hg,not_true_eq_false,if_false,hfill]

/-- A rebuild ends. It puts a table of the size asked for over the entries, or changes nothing. -/
theorem rebuild_spec (hpower : ∃ n, (if x.capacity = 0 then L.minimum else x.capacity*2) = 2^n)
    (table : Bool) : x.rebuild L table (x.entries.length+1) = .ok (x,false) ∨
      ∃ slots, x.rebuild L table (x.entries.length+1) = .ok (⟨x.entries,some slots⟩,true) ∧
        Table L x.entries slots ∧ (x.entries.length+1)*2 ≤ slots.length := by
  obtain ⟨m,hm⟩ := hpower
  cases hd : doubled ((x.entries.length+1)*2) 65
      (if x.capacity = 0 then L.minimum else x.capacity*2) with
  | none =>
      left
      rw [rebuild,hd]
  | some capacity =>
      by_cases hg : grants table (capacity*4) = true
      · rw [hm] at hd
        obtain ⟨hroom,n,hn⟩ := doubled_spec hd
        rw [← hm] at hd
        exact .inr (rebuild_grown hd hn hroom hg)
      · left
        rw [rebuild,hd]
        exact if_pos hg

theorem Sound.maybeGrow (h : Sound L x) (table : Bool) : ∃ y grown,
    x.maybeGrow L table = .ok (y,grown) ∧ y.entries = x.entries ∧ Sound L y ∧
      (grown = true → ∃ slots, y.slots = some slots ∧ (x.entries.length+1)*2 ≤ slots.length) := by
  unfold Indexed.maybeGrow
  split
  · rcases rebuild_spec h.power table with hr | ⟨slots,hr,htable,hroom⟩
    · exact ⟨x,false,hr,rfl,h,fun hfalse => by cases hfalse⟩
    · refine ⟨_,true,hr,rfl,⟨fun hn => (by cases hn),fun slots' hs => ?_⟩,fun _ => ⟨slots,rfl,hroom⟩⟩
      obtain rfl := Option.some.inj hs
      exact htable
  · rename_i hlarge
    refine ⟨x,true,rfl,rfl,h,fun _ => ?_⟩
    cases hslots : x.slots with
    | none =>
        rw [capacity,hslots,Option.getD_none,List.length_nil] at hlarge
        omega
    | some slots =>
        refine ⟨slots,rfl,?_⟩
        rw [capacity,hslots,Option.getD_some] at hlarge
        omega

/-- The number of a new entry, put behind its home, leaves a table over the longer array. -/
theorem insert_spec {entries entries' : List κ} {slots : List UInt32} (h : Table L entries slots)
    (hroom : (entries.length+1)*2 ≤ slots.length) (hlen : entries'.length = entries.length+1)
    {i : ℕ} {key : κ} (hlast : entries'.length ≤ 2^32-1 → entries' = entries++[key] ∧ i = entries.length) :
    ∃ y, (⟨entries',some slots⟩ : Indexed κ).insert L i key = .ok y ∧ Sound L y := by
  obtain ⟨slots',hput,hsize,hstands⟩ := h.stands.insert (fun _ => slotEntry_of) h.spare hlen hlast
  refine ⟨⟨entries',some slots'⟩,?_,⟨fun hnone => (by cases hnone),fun slots'' hs => ?_⟩⟩
  · unfold insert
    simp only [hput]
  · obtain rfl := Option.some.inj hs
    exact ⟨by rw [hsize,hlen]; exact hroom,hstands⟩

/-! ## Search -/

theorem slotEntry_lt {slot : UInt32} {i : ℕ} (h : slotEntry slot = some i) : i < 2^32 := by
  unfold slotEntry at h
  split at h
  · cases h
  · obtain rfl := Option.some.inj h
    exact slot.toNat_lt

theorem asInt32_of_lt {i : ℕ} (h : i < 2^31) : asInt32 i = i := if_pos h

theorem asInt32_range {i : ℕ} (h : i < 2^32) : asInt32 i < 2^31 ∧ (2^31 ≤ i → asInt32 i < 0) := by
  unfold asInt32
  split <;> constructor <;> omega

section Search
variable [DecidableEq κ]

/-- A search ends with nothing, or with the number of a slot. -/
theorem Sound.find_ends (h : Sound L x) (key : κ) : ∃ r : Option ℕ,
    x.find L key = some (r.elim (-1) asInt32) ∧ ∀ i ∈ r, i < 2^32 := by
  unfold find
  cases hslots : x.slots with
  | none => exact ⟨none,rfl,by simp⟩
  | some slots =>
      have htable := h.table slots hslots
      obtain ⟨n,hn⟩ := htable.stands.power
      obtain ⟨r,k,hr,-,hsome,-⟩ := search_ends hn
        (lt_of_le_of_lt htable.stands.full htable.spare) (names x.entries key) (L.hash key).toNat
      refine ⟨r,by simp only [hr,Option.map_some],fun i hi => ?_⟩
      obtain ⟨slot,-,hslot,-⟩ := hsome i hi
      exact slotEntry_lt hslot

/-- While the numbers of the entries fit in a slot, a search finds an entry with the key, and nothing
only where there is none. -/
theorem Sound.find_some (h : Sound L x) (hcount : x.entries.length ≤ 2^32-1) (key : κ) :
    ∃ r : Option ℕ, x.find L key = some (r.elim (-1) asInt32) ∧
      (∀ i, r = some i → x.entries[i]? = some key) ∧ (r = none → key ∉ x.entries) := by
  unfold find
  cases hslots : x.slots with
  | none => exact ⟨none,rfl,by simp,fun _ => by rw [h.blank hslots]; exact List.not_mem_nil⟩
  | some slots =>
      have htable := h.table slots hslots
      have hhit : ∀ i key', x.entries[i]? = some key' →
          (names x.entries key (slotOf i key') i = true ↔ key' = key) := fun i key' hkey => by
        rw [names,hkey,decide_eq_true_eq,Option.some_inj]
      obtain ⟨r,hr,hsome,hnone⟩ := htable.stands.search (fun _ => slotEntry_of) htable.spare hcount
        key hhit
      exact ⟨r,by simp only [hr,Option.map_some],hsome,hnone⟩

/-- A search returns the number of an entry exactly where the entry is the one looked for, and -1
exactly where there is none. -/
def Exact (L : Indexing κ) (x : Indexed κ) : Prop :=
  ∀ key, (∀ i : ℕ, x.find L key = some (i : ℤ) ↔ x.entries[i]? = some key) ∧
    (x.find L key = some (-1) ↔ key ∉ x.entries)

theorem Sound.exact_iff (h : Sound L x) (hdistinct : x.entries.Nodup) :
    x.Exact L ↔ x.entries.length ≤ 2^31 := by
  refine ⟨fun hexact => ?_,fun hcount key => ?_⟩
  · by_contra hmany
    have hlast : x.entries[2^31]? = some x.entries[2^31] := List.getElem?_eq_getElem (by omega)
    have hfind := ((hexact x.entries[2^31]).1 (2^31)).mpr hlast
    obtain ⟨r,hr,hlt⟩ := h.find_ends x.entries[2^31]
    rw [hr] at hfind
    have heq := Option.some.inj hfind
    cases r with
    | none =>
        rw [Option.elim_none] at heq
        omega
    | some i =>
        rw [Option.elim_some] at heq
        have := (asInt32_range (hlt i rfl)).1
        omega
  · obtain ⟨r,hr,hsome,hnone⟩ := h.find_some (by omega) key
    simp only [hr,Option.some_inj]
    exact search_numbers hdistinct (fun i hi => asInt32_of_lt (by omega)) hsome hnone

end Search

end Indexed
end Indexed

/-! ## Steps -/

/-- Both arrays of a graph with their tables. -/
structure IndexedGraph.Sound (g : IndexedGraph) : Prop where
  nodes : g.nodes.Sound nodeLayout
  edges : g.edges.Sound edgeLayout

namespace IndexedGraph
variable {g : IndexedGraph}

theorem Sound.internNode (h : g.Sound) (nodeCapacityMax : ℕ) (m : Allocation) (token : Bytes) :
    ∃ g', g.internNode nodeCapacityMax m token = .ok g' ∧ g'.Sound := by
  obtain ⟨r,hfind,-⟩ := h.nodes.find_ends token
  unfold IndexedGraph.internNode findNode
  rw [hfind]
  simp only
  split
  · exact ⟨g,rfl,h⟩
  split
  · exact ⟨g,rfl,h⟩
  split
  · exact ⟨g,rfl,h⟩
  · rename_i hroom
    rw [not_or] at hroom
    obtain ⟨y,grown,hgrow,hentries,hy,hslots⟩ := h.nodes.maybeGrow m.table
    rw [hgrow]
    simp only [bind,Except.bind]
    split
    · exact ⟨_,rfl,hy,h.edges⟩
    · rename_i hall
      rw [not_or,not_not] at hall
      obtain ⟨slots,hsome,htable⟩ := hslots hall.1
      have hlen : (y.entries++[token]).length = y.entries.length+1 := by simp
      have hlast : (y.entries++[token]).length ≤ 2^32-1 → y.entries++[token] = y.entries++[token] ∧
          (y.entries++[token]).length-1 = y.entries.length := fun _ => ⟨rfl,by simp⟩
      obtain ⟨z,hz,hzs⟩ := Indexed.insert_spec (hy.table slots hsome) (by rwa [hentries]) hlen hlast
      rw [hsome,hz]
      exact ⟨_,rfl,hzs,h.edges⟩

theorem Sound.observePair (h : g.Sound) (edgeCapacityMax : ℕ) (m : Allocation)
    (row : UInt32×UInt32) (source target : UInt32) :
    g.observePair edgeCapacityMax m row source target = .error .outside ∨
      ∃ g', g.observePair edgeCapacityMax m row source target = .ok g' ∧ g'.Sound := by
  obtain ⟨r,hfind,-⟩ := h.edges.find_ends (source,target)
  unfold IndexedGraph.observePair findEdge
  rw [hfind]
  split
  · exact .inr ⟨g,rfl,h⟩
  simp only
  split
  · exact .inr ⟨g,rfl,h⟩
  split
  · exact .inr ⟨g,rfl,h⟩
  split
  · exact .inr ⟨g,rfl,h⟩
  · obtain ⟨y,grown,hgrow,hentries,hy,hslots⟩ := h.edges.maybeGrow m.table
    rw [hgrow]
    simp only [bind,Except.bind]
    split
    · exact .inr ⟨_,rfl,h.nodes,hy⟩
    · rename_i hall
      rw [not_not] at hall
      obtain ⟨slots,hsome,htable⟩ := hslots hall
      split
      · exact .inl rfl
      · rename_i hedge
        have hlen : ((y.entries++[row]).set (asInt32 (y.entries.length%2^32)).toNat
            (source,target)).length = y.entries.length+1 := by simp
        have hlast : ((y.entries++[row]).set (asInt32 (y.entries.length%2^32)).toNat
            (source,target)).length ≤ 2^32-1 →
            (y.entries++[row]).set (asInt32 (y.entries.length%2^32)).toNat (source,target) =
              y.entries++[(source,target)] ∧
            (asInt32 (y.entries.length%2^32)).toNat = y.entries.length := by
          intro hcount
          rw [hlen] at hcount
          rw [Nat.mod_eq_of_lt (by omega)] at hedge ⊢
          have hlow : y.entries.length < 2^31 := by
            by_contra hhigh
            exact hedge ((Indexed.asInt32_range (by omega)).2 (by omega))
          rw [Indexed.asInt32_of_lt hlow,Int.toNat_natCast,List.set_append_right _ _ le_rfl,Nat.sub_self]
          exact ⟨rfl,rfl⟩
        obtain ⟨z,hz,hzs⟩ := Indexed.insert_spec (hy.table slots hsome) (by rwa [hentries]) hlen hlast
        rw [hsome,hz]
        exact .inr ⟨_,rfl,h.nodes,hzs⟩

theorem capacityFor_spec {κ : Type} {L : Indexing κ} {entries capacity : ℕ}
    (h : Indexed.capacityFor L entries = some capacity) :
    (entries+1)*2 ≤ capacity ∧ ∃ n, capacity = 2^n := by
  obtain ⟨m,hm⟩ := L.power
  rw [Indexed.capacityFor,hm] at h
  exact doubled_spec h

theorem Sound.prune (h : g.Sound) (m : Allocation) (drop : ℕ → Bool) :
    ∃ g', g.prune m drop = .ok g' ∧ g'.Sound := by
  unfold IndexedGraph.prune
  simp only
  split
  · exact ⟨g,rfl,h⟩
  split
  · rename_i nodeCapacity edgeCapacity hn he
    obtain ⟨hnroom,n,hnpow⟩ := capacityFor_spec hn
    obtain ⟨heroom,e,hepow⟩ := capacityFor_spec he
    split
    · exact ⟨g,rfl,h⟩
    · obtain ⟨nodeSlots,hnfill,hntable,-⟩ := filled_table (L := nodeLayout) hnpow hnroom
      obtain ⟨edgeSlots,hefill,hetable,-⟩ := filled_table (L := edgeLayout) hepow heroom
      rw [hnfill,hefill]
      refine ⟨_,rfl,⟨fun hs => (by cases hs),fun slots hs => ?_⟩,fun hs => (by cases hs),
        fun slots hs => ?_⟩
      · cases hs
        exact hntable
      · cases hs
        exact hetable
  · exact ⟨g,rfl,h⟩

theorem load_spec (m : Allocation) (tokens : List Bytes) (links : List (UInt32×UInt32)) :
    ∃ r, load m tokens links = .ok r ∧
      ∀ g, r = some g → g.Sound ∧ g.nodes.entries = tokens ∧ g.edges.entries = links := by
  unfold load
  rcases Indexed.rebuild_spec (L := nodeLayout) (x := ⟨tokens,none⟩) ⟨6,rfl⟩ m.table with
    hr | ⟨nodeSlots,hr,hntable,-⟩
  · refine ⟨none,?_,fun g hg => by cases hg⟩
    rw [show tokens.length+1 = (⟨tokens,none⟩ : Indexed Bytes).entries.length+1 from rfl,hr]
    rfl
  rw [show tokens.length+1 = (⟨tokens,none⟩ : Indexed Bytes).entries.length+1 from rfl,hr]
  rcases Indexed.rebuild_spec (L := edgeLayout) (x := ⟨links,none⟩) ⟨7,rfl⟩ m.table with
    hr' | ⟨edgeSlots,hr',hetable,-⟩
  · refine ⟨none,?_,fun g hg => by cases hg⟩
    rw [show links.length+1 = (⟨links,none⟩ : Indexed _).entries.length+1 from rfl,hr']
    rfl
  rw [show links.length+1 = (⟨links,none⟩ : Indexed _).entries.length+1 from rfl,hr']
  refine ⟨some ⟨⟨tokens,some nodeSlots⟩,⟨links,some edgeSlots⟩⟩,rfl,fun g hg => ?_⟩
  cases hg
  refine ⟨⟨⟨fun hs => (by cases hs),fun slots hs => ?_⟩,fun hs => (by cases hs),fun slots hs => ?_⟩,
    rfl,rfl⟩
  · cases hs
    exact hntable
  · cases hs
    exact hetable

end IndexedGraph

/-- Every graph reached has its arrays with their tables. -/
theorem Reaches.sound {g : IndexedGraph} (h : Reaches g) : g.Sound := by
  induction h with
  | created => exact ⟨Indexed.sound_empty,Indexed.sound_empty⟩
  | interned _ hstep ih =>
      obtain ⟨g',hg,hs⟩ := ih.internNode _ _ _
      cases hstep.symm.trans hg
      exact hs
  | paired _ hstep ih =>
      rcases ih.observePair _ _ _ _ _ with hout | ⟨g',hg,hs⟩
      · cases hstep.symm.trans hout
      · cases hstep.symm.trans hg
        exact hs
  | pruned _ hstep ih =>
      obtain ⟨g',hg,hs⟩ := ih.prune _ _
      cases hstep.symm.trans hg
      exact hs
  | loaded _ hload =>
      obtain ⟨r,hr,hs⟩ := IndexedGraph.load_spec _ _ _
      cases hload.symm.trans hr
      exact (hs _ rfl).1

/-- A step from a reached graph ends. -/
theorem Reaches.ends {g : IndexedGraph} (h : Reaches g) (most : ℕ) (m : Allocation) :
    (∀ token, g.internNode most m token ≠ .error .unending) ∧
      (∀ row source target, g.observePair most m row source target ≠ .error .unending) ∧
      ∀ drop, g.prune m drop ≠ .error .unending := by
  refine ⟨fun token hend => ?_,fun row source target hend => ?_,fun drop hend => ?_⟩
  · obtain ⟨g',hg,-⟩ := h.sound.internNode most m token
    cases hend.symm.trans hg
  · rcases h.sound.observePair most m row source target with hout | ⟨g',hg,-⟩
    · cases hend.symm.trans hout
    · cases hend.symm.trans hg
  · obtain ⟨g',hg,-⟩ := h.sound.prune m drop
    cases hend.symm.trans hg

/-! ## The search through the arrays -/

section Agreement
variable {g : Graph} {x : IndexedGraph}

/-- Of a graph with at most 2^31 distinct tokens, the index finds what a walk over the nodes does. -/
theorem findNode_agrees (h : Reaches x) (hnodes : x.nodes.entries = g.tokens.map Wire.CText.bytes)
    (hdistinct : x.nodes.entries.Nodup) (hfew : x.nodes.entries.length ≤ 2^31) (token : Token) :
    x.findNode token.bytes = some ((g.findNode token).elim (-1) fun i => (i : ℤ)) := by
  obtain ⟨hsome,hnone⟩ := (h.sound.nodes.exact_iff hdistinct).mpr hfew token.bytes
  cases hi : g.findNode token with
  | none =>
      refine hnone.mpr fun hmem => ?_
      rw [hnodes] at hmem
      obtain ⟨t,ht,heq⟩ := List.mem_map.mp hmem
      rw [Graph.findNode_eq,List.findIdx?_eq_none_iff] at hi
      have := hi t ht
      simp [Wire.CText.ext heq] at this
  | some i =>
      refine (hsome i).mpr ?_
      rw [Graph.findNode_eq] at hi
      obtain ⟨hlt,ht,-⟩ := List.findIdx?_eq_some_iff_getElem.mp hi
      rw [hnodes,List.getElem?_map,List.getElem?_eq_getElem hlt,of_decide_eq_true ht]
      rfl

/-- The ends of an edge as numbers. -/
def linkOf (link : UInt32×UInt32) : ℕ×ℕ := (link.1.toNat,link.2.toNat)

theorem linkOf_inj {a b : UInt32×UInt32} (h : linkOf a = linkOf b) : a = b :=
  Prod.ext (UInt32.toNat_inj.mp (congrArg Prod.fst h)) (UInt32.toNat_inj.mp (congrArg Prod.snd h))

/-- Of at most 2^31 distinct edges, the index finds what a walk over the edges does. -/
theorem findEdge_agrees (h : Reaches x) (hedges : x.edges.entries.map linkOf = g.links)
    (hdistinct : x.edges.entries.Nodup) (hfew : x.edges.entries.length ≤ 2^31)
    (source target : UInt32) : x.findEdge source target =
      some ((g.findEdge source.toNat target.toNat).elim (-1) fun i => (i : ℤ)) := by
  obtain ⟨hsome,hnone⟩ := (h.sound.edges.exact_iff hdistinct).mpr hfew (source,target)
  rw [Graph.findEdge_eq,← hedges]
  cases hi : (x.edges.entries.map linkOf).findIdx? (· = (source.toNat,target.toNat)) with
  | none =>
      refine hnone.mpr fun hmem => ?_
      have := (List.findIdx?_eq_none_iff.mp hi) _ (List.mem_map_of_mem hmem)
      simp [linkOf] at this
  | some i =>
      refine (hsome i).mpr ?_
      obtain ⟨hlt,ht,-⟩ := List.findIdx?_eq_some_iff_getElem.mp hi
      rw [List.length_map] at hlt
      rw [List.getElem?_eq_getElem hlt]
      rw [List.getElem_map] at ht
      exact congrArg some (linkOf_inj (of_decide_eq_true ht))

end Agreement

theorem rebuild_first {κ : Type} {L : Indexing κ} {entries : List κ} {capacity : ℕ}
    (hd : doubled ((entries.length+1)*2) 65 L.minimum = some capacity)
    (hg : grants true (capacity*4) = true) : ∃ slots,
    (⟨entries,none⟩ : Indexed κ).rebuild L true (entries.length+1) = .ok (⟨entries,some slots⟩,true) := by
  obtain ⟨m,hm⟩ := L.power
  rw [hm] at hd
  obtain ⟨hroom,n,hn⟩ := doubled_spec hd
  rw [← hm] at hd
  obtain ⟨slots,hr,-⟩ := Indexed.rebuild_grown (x := ⟨entries,none⟩) hd hn hroom hg
  exact ⟨slots,hr⟩

/-- A load for which memory lasts ends with a graph. -/
theorem load_granted {tokens : List Bytes} {links : List (UInt32×UInt32)} {nodes edges : ℕ}
    (hnodes : doubled ((tokens.length+1)*2) 65 64 = some nodes)
    (hedges : doubled ((links.length+1)*2) 65 128 = some edges)
    (hgrants : grants true (nodes*4) = true ∧ grants true (edges*4) = true) :
    ∃ g, IndexedGraph.load ⟨true,true,true⟩ tokens links = .ok (some g) := by
  obtain ⟨nodeSlots,hn⟩ := @rebuild_first _ nodeLayout tokens nodes hnodes hgrants.1
  obtain ⟨edgeSlots,he⟩ := @rebuild_first _ edgeLayout links edges hedges hgrants.2
  refine ⟨⟨⟨tokens,some nodeSlots⟩,⟨links,some edgeSlots⟩⟩,?_⟩
  simp only [IndexedGraph.load,hn,he,bind,Except.bind,not_true_eq_false,if_false,pure,Except.pure]

/-! ## Beyond 2^31 -/

/-- Eight letters for a number. -/
def numberedToken (i : ℕ) : Bytes := sortableDigits (fun digit => UInt8.ofNat (97+digit)) 16 8 i

def manyTokens : List Bytes := (List.range (2^31+1)).map numberedToken

theorem manyTokens_length : manyTokens.length = 2^31+1 := by
  rw [manyTokens,List.length_map,List.length_range]

theorem manyTokens_distinct : manyTokens.Nodup := by
  refine List.Nodup.map_on (fun i hi j hj heq => ?_) List.nodup_range
  rw [List.mem_range] at hi hj
  refine (sortableDigits_inj (by decide) ?_ (by omega) (by omega)).mp heq
  decide

theorem load_manyTokens : ∃ g, IndexedGraph.load ⟨true,true,true⟩ manyTokens [] = .ok (some g) := by
  have hd : doubled ((manyTokens.length+1)*2) 65 64 = some (2^33) := by
    rw [manyTokens_length]
    decide
  exact @load_granted manyTokens [] (2^33) 128 hd (by decide) (by decide)

/-- A graph loaded from 2^31+1 different tokens: the search for the last one returns a negative
number. -/
theorem index_past_int32 : ∃ g, Reaches g ∧ g.nodes.entries.Nodup ∧ g.edges.entries.Nodup ∧
    g.nodes.entries[2^31]? = some (numberedToken (2^31)) ∧
    g.findNode (numberedToken (2^31)) = some (-2147483648) := by
  obtain ⟨g,hload⟩ := load_manyTokens
  obtain ⟨r,hr,hg⟩ := IndexedGraph.load_spec ⟨true,true,true⟩ manyTokens []
  cases hload.symm.trans hr
  obtain ⟨hsound,hnodes,hedges⟩ := hg g rfl
  have hlast : manyTokens[2^31]? = some (numberedToken (2^31)) := by
    rw [manyTokens,List.getElem?_map,List.getElem?_range (by decide)]
    rfl
  have hcount : g.nodes.entries.length ≤ 2^32-1 := by
    rw [hnodes,manyTokens_length]
    decide
  refine ⟨g,.loaded (by simp) hload,hnodes ▸ manyTokens_distinct,hedges ▸ List.nodup_nil,
    hnodes ▸ hlast,?_⟩
  obtain ⟨r,hfind,hsome,hnone⟩ := hsound.nodes.find_some hcount (numberedToken (2^31))
  rw [hnodes] at hsome hnone
  cases r with
  | none => exact (hnone rfl (List.mem_of_getElem? hlast)).elim
  | some i =>
      have hi := (List.getElem?_inj (List.getElem?_eq_some_iff.mp (hsome i rfl)).1
        manyTokens_distinct).mp ((hsome i rfl).trans hlast.symm)
      rw [IndexedGraph.findNode,hfind,Option.elim_some,hi]
      rfl

/-- The searches through every reached index end. Of distinct entries they find each by its number, as
far as an `int32_t` can say it: in a graph of at most 2^31 nodes and edges, and in every ledger whose
log held no key twice. -/
theorem indexes_exact_iff (migrate : ℕ → Ledger.Disk → Ledger.Disk×Ledger.Status) :
    (∀ g, Reaches g →
      (∀ token, (g.findNode token).isSome) ∧ (∀ source target, (g.findEdge source target).isSome) ∧
      (g.nodes.entries.Nodup →
        (g.nodes.Exact nodeLayout ↔ g.nodes.entries.length ≤ 2^31)) ∧
      (g.edges.entries.Nodup →
        (g.edges.Exact edgeLayout ↔ g.edges.entries.length ≤ 2^31)) ∧
      ∀ most m, (∀ token, g.internNode most m token ≠ .error .unending) ∧
        (∀ row source target, g.observePair most m row source target ≠ .error .unending) ∧
        ∀ drop, g.prune m drop ≠ .error .unending) ∧
    (∀ l, Ledger.LedgerReaches migrate l →
      (∀ key, (l.find key).isSome) ∧ (l.Exact ↔ l.keys.Nodup) ∧
      ∀ m fault a, ∃ r, l.append m fault a = some r ∧ (l.keys.Nodup → r.1.keys.Nodup)) ∧
    ∀ ops s statuses, Ledger.runOps migrate Ledger.createdSession ops = some (s,statuses) →
      Ledger.RunCommitting migrate Ledger.createdSession ops →
      ∀ allocated l, Ledger.IndexedLedger.opened migrate allocated s.disk = some (.ok l) →
        l.keys.Nodup := by
  refine ⟨fun g h => ⟨fun token => ?_,fun source target => ?_,h.sound.nodes.exact_iff,
    h.sound.edges.exact_iff,h.ends⟩,fun l h => ⟨fun key => ?_,h.sound.exact_iff,
    fun m fault a => ?_⟩,fun ops s statuses hrun hin allocated l ho =>
    Ledger.opened_distinct migrate ops hrun hin ho⟩
  · obtain ⟨r,hr,-⟩ := h.sound.nodes.find_ends token
    rw [IndexedGraph.findNode,hr]
    rfl
  · obtain ⟨r,hr,-⟩ := h.sound.edges.find_ends (source,target)
    rw [IndexedGraph.findEdge,hr]
    rfl
  · obtain ⟨r,hr,-⟩ := h.sound.find key
    rw [hr]
    rfl
  · obtain ⟨r,hr,-,hkeys⟩ := h.sound.append m fault a
    exact ⟨r,hr,hkeys⟩

/-- Two tokens and the edge between them, each new. -/
def linkedPair : Except IndexFault IndexedGraph := do
  let g ← IndexedGraph.created.internNode 0 ⟨true,true,true⟩ [97]
  let g ← g.internNode 0 ⟨true,true,true⟩ [98]
  g.observePair 0 ⟨true,true,true⟩ (0,0) 0 1

theorem linkedPair_exact : ∃ g, linkedPair = .ok g ∧ g.nodes.entries = [[97],[98]] ∧
    g.edges.entries = [(0,1)] ∧ g.nodes.Exact nodeLayout ∧ g.edges.Exact edgeLayout := by
  have hrun : linkedPair.toOption.map (fun g => (g.nodes.entries,g.edges.entries)) =
      some ([[97],[98]],[(0,1)]) := by decide +kernel
  obtain ⟨g,hg,hentries⟩ := Option.map_eq_some_iff.mp hrun
  obtain ⟨hnodes,hedges⟩ := Prod.mk.inj hentries
  have hok : linkedPair = .ok g := by
    cases hl : linkedPair with
    | error e => rw [hl] at hg; cases hg
    | ok g' => rw [hl] at hg; exact congrArg _ (Option.some.inj hg)
  obtain ⟨first,hfirst,hrest⟩ := bind_ok.mp hok
  obtain ⟨second,hsecond,hpair⟩ := bind_ok.mp hrest
  have hreach : Reaches g := ((Reaches.created.interned hfirst).interned hsecond).paired hpair
  obtain ⟨-,-,hexactNodes,hexactEdges,-⟩ :=
    (indexes_exact_iff fun _ d => (d,.ok)).1 g hreach
  refine ⟨g,hok,hnodes,hedges,(hexactNodes ?_).mpr ?_,(hexactEdges ?_).mpr ?_⟩
  · rw [hnodes]
    decide
  · rw [hnodes]
    decide
  · rw [hedges]
    decide
  · rw [hedges]
    decide

end Atperson.Core
