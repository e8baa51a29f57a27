import Atperson.Snapshot.Reload
import Atperson.Core.ValenceBook
import Atperson.Core.Capacity
import Atperson.Core.Expansion
import Atperson.Core.Lineage
import Atperson.Core.Recall

/-!
# Valence over the life of a graph

From an empty graph on, a graph observes, recalls, is expanded, pruned, saved and loaded, and
events come in. Only the events touch its valence, and a prune and a load take it along, so
the book that is kept beside the graph stays that of the events there have been.
-/
namespace Atperson.Core
open Wire Runs
open Ledger (Status)

/-! ## Vocabulary only grows by observation -/

/-- Tokens were added, no more than an index can address and none twice. -/
structure Grown (g g' : Graph) : Prop where
  tokens : g.tokens <+: g'.tokens
  distinct : g.tokens.Nodup → g'.tokens.Nodup
  small : g.nodes.length ≤ 2^32-1 → g'.nodes.length ≤ 2^32-1

section Growth
variable {g g' g'' : Graph}

theorem Grown.of_tokens (h : g'.tokens = g.tokens) : Grown g g' := by
  have hlength : g'.nodes.length = g.nodes.length := by
    rw [← g'.tokens_length,h,g.tokens_length]
  exact ⟨h ▸ List.prefix_rfl,fun hd => h ▸ hd,fun hs => hlength ▸ hs⟩

theorem Grown.trans (h : Grown g g') (h' : Grown g' g'') : Grown g g'' :=
  ⟨h.tokens.trans h'.tokens,h'.distinct ∘ h.distinct,h'.small ∘ h.small⟩

theorem tokens_outline (h : g'.outline = g.outline) : g'.tokens = g.tokens :=
  congrArg Outline.tokens h

theorem tokens_observePair (g : Graph) (source target : ℕ) (hash : UInt64) :
    (g.observePair source target hash).1.tokens = g.tokens := by
  unfold Graph.observePair
  split
  · rfl
  · split
    · exact tokens_outline (g.outline_learnPair _ _ _ _)
    · split
      · exact tokens_outline g.outline_reject
      · exact (tokens_outline (Graph.outline_learnPair _ _ _ _ _)).trans rfl

/-- An expansion keeps tokens and valence, and its topology can be laid out. -/
theorem expandNeuralIn_keeps (allocated : Bool) (g : Graph) (m : Migration)
    (hg : (layoutBuild g.neuralArchitecture).isSome = true) :
    (g.expandNeuralIn allocated m).1.tokens = g.tokens ∧
      (∀ b, g.Tracks b → (g.expandNeuralIn allocated m).1.Tracks b) ∧
      (layoutBuild (g.expandNeuralIn allocated m).1.neuralArchitecture).isSome = true := by
  unfold Graph.expandNeuralIn
  split
  · exact ⟨rfl,fun _ => id,hg⟩
  · rcases hexpand : g.expandNeural m with ⟨g',status⟩
    by_cases hok : status = .ok
    · subst hok
      obtain ⟨-,-,layout,hlayout,rfl⟩ := expandNeural_ok hexpand
      exact ⟨expandNodes_tokens _ _ _ _,fun b hb => ⟨hb.records,hb.events,hb.evictions⟩,
        by rw [hlayout]; rfl⟩
    · rw [expandNeural_failed hexpand hok]
      exact ⟨rfl,fun _ => id,hg⟩

end Growth

end Atperson.Core

namespace Atperson.Snapshot
open Wire Runs
open Atperson.Core
open Ledger (Status)

/-! ## The life of a graph -/

/-- A graph from its creation on, with the book beside it and the events there have been. An
observation or an expansion may fail, a prune too; a load that fails gives no graph. -/
inductive Kept (U : Utf8proc) : Graph → ValenceBook → List Arrival → Prop
  | start {config : GraphConfig} {a : Architecture} {g : Graph}
      (h : createWithArchitecture config a = some g) : Kept U g .empty []
  | observe {g : Graph} {b : ValenceBook} {history : List Arrival} (h : Kept U g b history)
      (text : Text) (sourceId : CString) : Kept U (observeText U g text sourceId).1 b history
  | remember {g : Graph} {b : ValenceBook} {history : List Arrival} (h : Kept U g b history)
      (env : IndexEnv) (text : Text) (p : Provenance) :
      Kept U (observeWithMemory U env g text p).1 b history
  | mirror {g : Graph} {b : ValenceBook} {history : List Arrival} (h : Kept U g b history)
      (entry : Ledger.LedgerEntry) (context : Ledger.ConversationContext) :
      Kept U (g.addLedgerEntry entry context).1 b history
  | recalled {g : Graph} {b : ValenceBook} {history : List Arrival} (h : Kept U g b history)
      (env : IndexEnv) (query : Text) (atEpoch : UInt64) (policy : RecallConfig) (capacity : ℕ) :
      Kept U (g.recallEpisodes U env query atEpoch policy capacity).1 b history
  | expand {g : Graph} {b : ValenceBook} {history : List Arrival} (h : Kept U g b history)
      (allocated : Bool) (m : Migration) : Kept U (g.expandNeuralIn allocated m).1 b history
  | prune {g : Graph} {b : ValenceBook} {history : List Arrival} (h : Kept U g b history)
      (allocated : Bool) (allocs : Allocs) (maxNodes : ℕ) :
      Kept U (g.pruneVocabulary allocated allocs maxNodes).1
        (b.pruned g (g.pruneVocabulary allocated allocs maxNodes).1 maxNodes) history
  | event {g : Graph} {b : ValenceBook} {history : List Arrival} (h : Kept U g b history)
      {token sourceId : CString} {t : Token} {node : ℕ} {kind : ValenceKind} {signal : Single}
      {q : ℚ} {atEpoch : UInt64} (hq : signal.value = .finite q)
      (ht : CText.ofCString? token = some t) (hnode : g.findNode t = some node) :
      Kept U (g.valenceEvent token kind signal atEpoch sourceId).1
        (b.record node (g.arrival t kind q atEpoch sourceId))
        (history++[g.arrival t kind q atEpoch sourceId])
  | refused {g : Graph} {b : ValenceBook} {history : List Arrival} (h : Kept U g b history)
      {token sourceId : CString} {kind : ValenceKind} {signal : Single} {atEpoch : UInt64}
      (hrefused : (g.valenceEvent token kind signal atEpoch sourceId).2 ≠ .ok) :
      Kept U (g.valenceEvent token kind signal atEpoch sourceId).1 b history
  | reload {g : Graph} {b : ValenceBook} {history : List Arrival} (h : Kept U g b history)
      {image : Bytes} {allocs : Allocs} {x : Loading} (hsave : graphSave g = some image)
      (hload : graphLoad allocs image = .ok x) : Kept U x.mirrored b history

/-- What holds at any time of the life of a graph. -/
structure Keeping (g : Graph) (b : ValenceBook) (history : List Arrival) : Prop where
  topology : (layoutBuild g.neuralArchitecture).isSome = true
  distinct : g.tokens.Nodup
  small : g.nodes.length ≤ 2^32-1
  tracks : g.Tracks b
  book : BookOf g.tokens history b
  inRange : ∀ a ∈ history, a.InRange

section Keeping
variable {U : Utf8proc} {g g' : Graph} {b : ValenceBook} {history : List Arrival}

theorem Keeping.event_lt (h : Keeping g b history) {e : ExactEvent} (he : e ∈ b.events) :
    e.nodeIndex < g.nodes.length := h.book.event_lt he

/-- More tokens leave the book as it is. -/
theorem Keeping.bookOf_grown (h : Keeping g b history) (hgrown : g.tokens <+: g'.tokens) :
    BookOf g'.tokens history b := by
  obtain ⟨rest,hrest⟩ := hgrown
  have hmoved : BookOf g'.tokens history (b.remap id) := by
    rw [← hrest]
    refine h.book.moved (fun r hr => ?_) (fun e he => ?_) fun _ _ _ _ => id
    · exact List.getElem?_append_left (g.tokens_length.symm ▸ h.book.record_lt hr)
    · exact List.getElem?_append_left (g.tokens_length.symm ▸ h.book.event_lt he)
  rwa [ValenceBook.remap_self (fun _ _ => rfl) fun _ _ => rfl] at hmoved

/-- Tokens are added, and valence is left alone. -/
theorem Keeping.grown (h : Keeping g b history) (hgrown : Grown g g')
    (hbackdrop : g'.backdrop = g.backdrop) : Keeping g' b history where
  topology := by
    rw [show g'.neuralArchitecture = g.neuralArchitecture from
      congrArg Backdrop.neuralArchitecture hbackdrop]
    exact h.topology
  distinct := hgrown.distinct h.distinct
  small := hgrown.small h.small
  tracks := h.tracks.of_backdrop hbackdrop
  book := h.bookOf_grown hgrown.tokens
  inRange := h.inRange

theorem Keeping.expanded (h : Keeping g b history) (allocated : Bool) (m : Migration) :
    Keeping (g.expandNeuralIn allocated m).1 b history := by
  obtain ⟨htokens,htracks,htopology⟩ := expandNeuralIn_keeps allocated g m h.topology
  have hgrown : Grown g (g.expandNeuralIn allocated m).1 := .of_tokens htokens
  exact ⟨htopology,hgrown.distinct h.distinct,hgrown.small h.small,htracks b h.tracks,
    h.bookOf_grown hgrown.tokens,h.inRange⟩

theorem Keeping.pruned (h : Keeping g b history) (allocated : Bool) (allocs : Allocs)
    (maxNodes : ℕ) : Keeping (g.pruneVocabulary allocated allocs maxNodes).1
      (b.pruned g (g.pruneVocabulary allocated allocs maxNodes).1 maxNodes) history := by
  obtain ⟨hbook,htracks⟩ := h.book.pruned h.tracks allocated allocs maxNodes rfl
  have hshape : (g.pruneVocabulary allocated allocs maxNodes).1.neuralArchitecture =
      g.neuralArchitecture ∧
      (g.pruneVocabulary allocated allocs maxNodes).1.tokens.Sublist g.tokens := by
    rcases g.pruneVocabulary_cases allocated allocs maxNodes with ⟨index,hg'⟩ | ⟨index,hg'⟩
    · rw [hg']
      exact ⟨rfl,List.Sublist.refl _⟩
    · rw [hg']
      refine ⟨rfl,?_⟩
      rw [show Graph.tokens {g.restrict (g.pruned maxNodes) with index} =
        (g.restrict (g.pruned maxNodes)).tokens from rfl,Graph.tokens_restrict]
      exact survivors_sublist _ _
  refine ⟨by rw [hshape.1]; exact h.topology,h.distinct.sublist hshape.2,?_,htracks,hbook,h.inRange⟩
  rw [← Graph.tokens_length]
  exact hshape.2.length_le.trans (g.tokens_length.le.trans h.small)

theorem Keeping.recorded (h : Keeping g b history) {token sourceId : CString} {t : Token}
    {node : ℕ} {kind : ValenceKind} {signal : Single} {q : ℚ} {atEpoch : UInt64}
    (hq : signal.value = .finite q) (ht : CText.ofCString? token = some t)
    (hnode : g.findNode t = some node) :
    Keeping (g.valenceEvent token kind signal atEpoch sourceId).1
      (b.record node (g.arrival t kind q atEpoch sourceId))
      (history++[g.arrival t kind q atEpoch sourceId]) := by
  have hfind : g.findToken token = some node := by
    unfold Graph.findToken
    rw [ht]
    exact hnode
  obtain ⟨g',hok⟩ := Graph.valenceEvent_accepted hq hfind kind atEpoch sourceId
  have hmarks := Graph.valenceEvent_marks hok
  have htokens : g'.tokens = g.tokens := congrArg (List.map Node.token) hmarks.nodes
  have htracks : (g.valenceEvent token kind signal atEpoch sourceId).1.Tracks
      (b.record node (g.arrival t kind q atEpoch sourceId)) :=
    h.tracks.event h.book.sorted hq hfind
  rw [hok] at htracks ⊢
  have houtline : g.outline.find t = some node := (g.findNode_eq t).symm.trans hnode
  have hnode' : g.tokens[node]? = some t := Outline.find_at houtline
  refine ⟨by rw [hmarks.topology]; exact h.topology,htokens ▸ h.distinct,?_,htracks,
    htokens ▸ h.book.recorded h.distinct hnode',fun a ha => ?_⟩
  · show g'.nodes.length ≤ 2^32-1
    rw [hmarks.nodes]
    exact h.small
  · rcases List.mem_append.mp ha with hold | hnew
    · exact h.inRange a hold
    · obtain rfl := List.mem_singleton.mp hnew
      exact g.arrival_inRange t kind q atEpoch sourceId

theorem forall₂_through {α β γ : Type} {R : α → β → Prop} {S : α → γ → Prop} {T : β → γ → Prop}
    (hT : ∀ a b c, R a b → S a c → T b c) {as : List α} {bs : List β} {cs : List γ}
    (hR : List.Forall₂ R as bs) (hS : List.Forall₂ S as cs) : List.Forall₂ T bs cs := by
  induction hR generalizing cs with
  | nil =>
      cases hS
      exact .nil
  | cons hab _ ih =>
      cases hS with
      | cons hac hrest => exact .cons (hT _ _ _ hab hac) (ih hrest)

theorem tracks_sameRecord (r s : ValenceRecord) (x : ExactRecord) (h : SameRecord r s)
    (hx : r.Tracks x) : s.Tracks x := by
  unfold SameRecord at h
  rw [← h] at hx
  exact ⟨hx.nodeIndex,hx.eventCount,hx.positiveEvents,hx.negativeEvents,hx.lastEventAt⟩

theorem tracks_sameEvent (e f : ValenceEvent) (x : ExactEvent) (h : SameEvent e f)
    (hx : e.Tracks x) : f.Tracks x := by
  unfold SameEvent at h
  rw [← h] at hx
  exact ⟨hx.nodeIndex,hx.kind,hx.atEpoch,hx.sourceId⟩

/-- A roster over few keys is short. -/
theorem sorted_length {α : Type} {key : α → ℕ} {as : List α} {n : ℕ} (h : SortedBy key as)
    (hlt : ∀ a ∈ as, key a < n) : as.length ≤ n := by
  have hnodup : (as.map key).Nodup := List.pairwise_map.mpr (h.imp fun hab => hab.ne)
  have hsub : (as.map key).toFinset ⊆ Finset.range n := by
    intro k hk
    obtain ⟨a,ha,rfl⟩ := List.mem_map.mp (List.mem_toFinset.mp hk)
    exact Finset.mem_range.mpr (hlt a ha)
  have hcard := Finset.card_le_card hsub
  rwa [List.toFinset_card_of_nodup hnodup,List.length_map,Finset.card_range] at hcard

theorem Keeping.record_lt (h : Keeping g b history) {r : ValenceRecord}
    (hr : r ∈ g.valenceRecords) : r.nodeIndex < g.nodes.length := by
  have hmem := List.mem_map_of_mem (f := ValenceRecord.nodeIndex) hr
  rw [Graph.map_nodeIndex h.tracks.records] at hmem
  obtain ⟨x,hx,hindex⟩ := List.mem_map.mp hmem
  exact hindex ▸ h.book.record_lt hx

theorem Keeping.logged_lt (h : Keeping g b history) {e : ValenceEvent}
    (he : e ∈ g.valenceEvents) : e.nodeIndex < g.nodes.length := by
  have hmem := List.mem_map_of_mem (f := ValenceEvent.nodeIndex) he
  rw [Graph.map_eventIndex h.tracks.events] at hmem
  obtain ⟨x,hx,hindex⟩ := List.mem_map.mp hmem
  exact hindex ▸ h.book.event_lt hx

/-- The log has the newest events, as many as there are and as fit. -/
theorem Keeping.log_length (h : Keeping g b history) :
    g.valenceEvents.length = min history.length valenceEventCapacity := by
  rw [h.tracks.events.length_eq,← h.book.logged.length_eq,newest_length]

theorem Keeping.storable (h : Keeping g b history) : Storable g := by
  have hsmall := h.small
  have hrecords : g.valenceRecords.length ≤ g.nodes.length :=
    sorted_length (h.tracks.sorted h.book.sorted) fun r hr => h.record_lt hr
  have hlog : g.valenceEvents.length ≤ valenceEventCapacity :=
    h.log_length.le.trans (Nat.min_le_right _ _)
  have hcapacity : valenceEventCapacity = 1024 := rfl
  refine ⟨h.topology,by omega,fun r hr => ?_,fun e he => ?_,by omega,by omega⟩
  · have := h.record_lt hr
    omega
  · have := h.logged_lt he
    omega

theorem Keeping.loaded (h : Keeping g b history) {image : Bytes} {allocs : Allocs} {x : Loading}
    (hsave : graphSave g = some image) (hload : graphLoad allocs image = .ok x) :
    Keeping x.mirrored b history := by
  have hreloaded := reloaded h.storable hsave hload
  have htokens : x.mirrored.tokens = g.tokens := hreloaded.tokens
  have hgrown : Grown g x.mirrored := .of_tokens htokens
  refine ⟨?_,hgrown.distinct h.distinct,hgrown.small h.small,⟨?_,?_,?_⟩,
    h.bookOf_grown hgrown.tokens,h.inRange⟩
  · rw [show x.mirrored.neuralArchitecture = g.neuralArchitecture from hreloaded.topology]
    exact h.topology
  · exact forall₂_through tracks_sameRecord hreloaded.valence.records h.tracks.records
  · exact forall₂_through tracks_sameEvent hreloaded.valence.events h.tracks.events
  · exact hreloaded.valence.evictions.trans h.tracks.evictions

theorem Keeping.folded (h : Keeping g b history) {r : ExactRecord} (hr : r ∈ b.records) :
    ∃ t, g.tokens[r.nodeIndex]? = some t ∧
      r.valence = valenceOf (arrivalsOn t history) ∧ -1 ≤ r.valence ∧ r.valence ≤ 1 ∧
      r.eventCount = (arrivalsOn t history).length ∧
      r.positiveEvents+r.negativeEvents ≤ r.eventCount := by
  obtain ⟨t,ht,hfolds⟩ := h.book.folded r hr
  have hrange : ∀ a ∈ arrivalsOn t history, a.InRange :=
    fun a ha => h.inRange a (List.mem_of_mem_filter ha)
  have hunit := valenceOf_unit hrange
  refine ⟨t,ht,hfolds.valence,hfolds.valence ▸ hunit.1,hfolds.valence ▸ hunit.2,hfolds.count,?_⟩
  rw [hfolds.positive,hfolds.negative,hfolds.count]
  exact positives_negatives_le _

end Keeping

end Atperson.Snapshot
