import Atperson.Core.Recall
import Atperson.Floats.Binary32
import Atperson.Runs.Ranking
import Atperson.Wire.Strcmp

/-!
# Action candidates

The continuations of a context that the graph has learned: the targets of the edges that leave
a node of the context, with what these edges add up to. They are ranked by a sort routine of
which only the comparator is known. Allocations succeed.
-/
namespace Atperson.Core
open Floats (narrow)
open Runs (Ranked)
open Wire (strcmp strcmp_antisymm)

structure ActionCandidate where
  token : Token
  score : Float32
  associationScore : Float32
  familiarityScore : Float32
  supportScore : Float32
  supportingObservations : UInt64
  contextMatches : UInt32
  valence : Float32
  valenceEvents : UInt32
  deriving DecidableEq

/-- `atp_action_clamp01`. -/
def actionClamp01 (value : Float32) : Float32 :=
  if value < 0 then 0 else if 1 < value then 1 else value

/-! ## Ranking -/

/-- One key of a comparator: what is higher comes first, and ties are left to the next key. -/
def higherFirst {α : Type} [LT α] [DecidableLT α] (x y : α) (next : Ordering) : Ordering :=
  if x < y then .gt else if y < x then .lt else next

/-- `atp_action_candidate_compare`. -/
def actionCandidateCompare (a b : ActionCandidate) : Ordering :=
  higherFirst a.score b.score <|
  higherFirst a.associationScore b.associationScore <|
  higherFirst a.familiarityScore b.familiarityScore <|
  higherFirst a.supportingObservations b.supportingObservations <|
  strcmp a.token.bytes b.token.bytes

section HigherFirst
variable {α : Type} [LT α] [DecidableLT α] {x y : α} {next next' : Ordering}

/-- Elements that tie, tie on every key. -/
theorem higherFirst_tie (h : higherFirst x y next ≠ .gt) (h' : higherFirst y x next' ≠ .gt) :
    next ≠ .gt ∧ next' ≠ .gt := by
  unfold higherFirst at h h'
  by_cases hxy : x < y
  · rw [if_pos hxy] at h
    exact absurd rfl h
  · by_cases hyx : y < x
    · rw [if_pos hyx] at h'
      exact absurd rfl h'
    · rw [if_neg hxy,if_neg hyx] at h
      rw [if_neg hyx,if_neg hxy] at h'
      exact ⟨h,h'⟩

theorem higherFirst_self (h : ¬x < x) : higherFirst x x next = next := by
  rw [higherFirst,if_neg h,if_neg h]

/-- What comes first does not come after. -/
theorem higherFirst_asymm (h : next ≠ .gt → next' ≠ .lt) (hxy : higherFirst x y next ≠ .gt) :
    higherFirst y x next' ≠ .lt := by
  unfold higherFirst at hxy ⊢
  by_cases hlt : x < y
  · rw [if_pos hlt] at hxy
    exact absurd rfl hxy
  · by_cases hgt : y < x
    · rw [if_pos hgt]
      exact fun heq => by cases heq
    · rw [if_neg hlt,if_neg hgt] at hxy
      rw [if_neg hgt,if_neg hlt]
      exact h hxy

end HigherFirst

theorem actionCandidateCompare_tie {a b : ActionCandidate}
    (h : actionCandidateCompare a b ≠ .gt) (h' : actionCandidateCompare b a ≠ .gt) :
    a.token = b.token := by
  obtain ⟨h,h'⟩ := higherFirst_tie h h'
  obtain ⟨h,h'⟩ := higherFirst_tie h h'
  obtain ⟨h,h'⟩ := higherFirst_tie h h'
  obtain ⟨h,h'⟩ := higherFirst_tie h h'
  exact Wire.CText.ext (strcmp_antisymm h h')

/-! ## Aggregation -/

/-- What the edges into one node add up to. -/
structure Aggregate where
  associationSum : Float32
  supportingObservations : UInt64
  contextMatches : UInt32
  deriving DecidableEq

def Aggregate.zero : Aggregate := ⟨0,0,0⟩

namespace Graph

/-- How strongly an edge associates its target with its source. -/
def association (g : Graph) (e : Edge) : Float32 :=
  actionClamp01 (e.strength*0.7+g.networkScore e.source e.target*0.3)

def aggregateEdge (g : Graph) (e : Edge) (a : Aggregate) : Aggregate where
  associationSum := a.associationSum+g.association e
  supportingObservations := a.supportingObservations+e.observations
  contextMatches := a.contextMatches+1

/-- An edge that leaves a node of the context. -/
def leaves (g : Graph) (context : List ℕ) (e : Edge) : Bool :=
  e.source < g.nodes.length && e.target < g.nodes.length && e.source ∈ context

/-- The aggregate of every node. -/
def aggregates (g : Graph) (context : List ℕ) : List Aggregate :=
  g.edges.foldl (fun as e => if g.leaves context e then as.modify e.target (g.aggregateEdge e) else as)
    (List.replicate g.nodes.length Aggregate.zero)

/-- `atp_graph_valence`, for a token of the graph. -/
def tokenValence (g : Graph) (token : Token) : Option ValenceRecord := do
  let node ← g.findNode token
  g.valenceRecords.find? fun r => r.nodeIndex = node

def candidateAt (g : Graph) (n : Node) (a : Aggregate) : ActionCandidate :=
  let associationScore := actionClamp01 (a.associationSum/a.contextMatches.toFloat32)
  let familiarityScore := actionClamp01 (n.familiarity*(1-g.config.familiarityDecay))
  let support := a.supportingObservations
  let supportScore :=
    if support = 0xFFFFFFFFFFFFFFFF then 1 else narrow (support.toFloat/(support.toFloat+1))
  let valence := g.tokenValence n.token
  { token := n.token
    score := (associationScore+familiarityScore+supportScore)/3
    associationScore
    familiarityScore
    supportScore
    supportingObservations := support
    contextMatches := a.contextMatches
    valence := valence.elim 0 ValenceRecord.valence
    valenceEvents := valence.elim 0 fun r =>
      if 0xFFFFFFFF < r.eventCount then 0xFFFFFFFF else r.eventCount.toUInt32 }

/-- The candidates of a node set, in the order of the nodes. -/
def candidatesFrom (g : Graph) (context : List ℕ) : List ActionCandidate :=
  if context = [] then []
  else (g.nodes.zip (g.aggregates context)).filterMap fun x =>
    if x.2.contextMatches = 0 then none else some (g.candidateAt x.1 x.2)

/-- The candidates of a context before they are ranked. The walk over the context marks the
nodes that the walk over a query lists. -/
def contextCandidates (U : Utf8proc) (g : Graph) (context : Text) : List ActionCandidate :=
  g.candidatesFrom (queryNodes U g context)

/-- What `atp_graph_action_candidates` may return, with any sort routine. -/
def Candidates (U : Utf8proc) (g : Graph) (context : Text) (capacity : ℕ)
    (out : List ActionCandidate) : Prop :=
  if capacity = 0 ∨ g.nodes = [] ∨ g.edges = [] then out = []
  else ∃ ranked, Ranked actionCandidateCompare (contextCandidates U g context) ranked ∧
    out = ranked.take capacity

/-! ## What the candidates are -/

section Candidates
variable {U : Utf8proc} {g : Graph} {context : Text} {capacity : ℕ}
  {out out' : List ActionCandidate}

theorem aggregates_length (g : Graph) (context : List ℕ) :
    (g.aggregates context).length = g.nodes.length := by
  have hfold : ∀ (edges : List Edge) (as : List Aggregate),
      (edges.foldl (fun as e => if g.leaves context e then as.modify e.target (g.aggregateEdge e)
        else as) as).length = as.length := by
    intro edges
    induction edges with
    | nil => exact fun as => rfl
    | cons e edges ih =>
        intro as
        rw [List.foldl_cons,ih]
        split
        · exact List.length_modify ..
        · rfl
  rw [aggregates,hfold,List.length_replicate]

/-- Each node gives at most one candidate. -/
theorem candidatesFrom_tokens (g : Graph) (context : List ℕ) :
    ((g.candidatesFrom context).map (·.token)).Sublist (g.nodes.map (·.token)) := by
  have hzip : ∀ (nodes : List Node) (as : List Aggregate),
      (((nodes.zip as).filterMap fun x =>
        if x.2.contextMatches = 0 then none else some (g.candidateAt x.1 x.2)).map
          (·.token)).Sublist (nodes.map (·.token)) := by
    intro nodes
    induction nodes with
    | nil => exact fun as => List.Sublist.refl _
    | cons n nodes ih =>
        intro as
        cases as with
        | nil => exact List.nil_sublist _
        | cons a as =>
            rw [List.zip_cons_cons,List.filterMap_cons]
            split
            · exact (ih as).cons _
            · next c hc =>
                split at hc
                · cases hc
                · obtain rfl := Option.some.inj hc
                  exact (ih as).cons_cons _
  unfold candidatesFrom
  split
  · exact List.nil_sublist _
  · exact hzip g.nodes _

theorem contextCandidates_nodup (hg : (g.nodes.map (·.token)).Nodup) (context : Text) :
    ((contextCandidates U g context).map (·.token)).Nodup :=
  hg.sublist (candidatesFrom_tokens g _)

/-- Of the candidates of one context, the token tells which it is. -/
theorem contextCandidates_inj (hg : (g.nodes.map (·.token)).Nodup) {a b : ActionCandidate}
    (ha : a ∈ contextCandidates U g context) (hb : b ∈ contextCandidates U g context)
    (h : a.token = b.token) : a = b :=
  List.inj_on_of_nodup_map (contextCandidates_nodup hg context) ha hb h

theorem Candidates.mem (h : Candidates U g context capacity out) {c : ActionCandidate}
    (hc : c ∈ out) : c ∈ contextCandidates U g context := by
  unfold Candidates at h
  split at h
  · rw [h] at hc
    cases hc
  · obtain ⟨ranked,hranked,rfl⟩ := h
    exact hranked.mem_iff.mp (List.mem_of_mem_take hc)

theorem Candidates.length_le (h : Candidates U g context capacity out) : out.length ≤ capacity := by
  unfold Candidates at h
  split at h
  · rw [h]
    exact Nat.zero_le _
  · obtain ⟨ranked,-,rfl⟩ := h
    exact List.length_take_le ..

theorem Candidates.nodup (hg : (g.nodes.map (·.token)).Nodup)
    (h : Candidates U g context capacity out) : (out.map (·.token)).Nodup := by
  unfold Candidates at h
  split at h
  · rw [h]
    exact List.nodup_nil
  · obtain ⟨ranked,hranked,rfl⟩ := h
    have hperm := (hranked.perm.map (·.token)).nodup_iff.mpr (contextCandidates_nodup hg context)
    exact hperm.sublist ((List.take_sublist _ _).map _)

/-- Where the graph has nodes and edges and there is room, nothing is returned only where there
is no candidate. -/
theorem Candidates.nil_iff (h : Candidates U g context capacity out) (hcapacity : capacity ≠ 0)
    (hnodes : g.nodes ≠ []) (hedges : g.edges ≠ []) :
    out = [] ↔ contextCandidates U g context = [] := by
  unfold Candidates at h
  rw [if_neg (by simp [hcapacity,hnodes,hedges])] at h
  obtain ⟨ranked,hranked,rfl⟩ := h
  rw [List.take_eq_nil_iff]
  constructor
  · rintro (hzero | hnil)
    · exact absurd hzero hcapacity
    · rw [hnil] at hranked
      exact hranked.perm.symm.eq_nil
  · intro hnil
    rw [hnil] at hranked
    exact .inr hranked.perm.eq_nil

/-- Distinct tokens leave the sort routine no choice. -/
theorem Candidates.unique (hg : (g.nodes.map (·.token)).Nodup)
    (h : Candidates U g context capacity out) (h' : Candidates U g context capacity out') :
    out = out' := by
  unfold Candidates at h h'
  split at h
  · next hempty =>
      rw [if_pos hempty] at h'
      rw [h,h']
  · next hempty =>
      rw [if_neg hempty] at h'
      obtain ⟨ranked,hranked,rfl⟩ := h
      obtain ⟨ranked',hranked',rfl⟩ := h'
      rw [hranked.unique (fun a ha b hb hab hba =>
        contextCandidates_inj hg ha hb (actionCandidateCompare_tie hab hba)) hranked']

end Candidates

end Graph

end Atperson.Core
