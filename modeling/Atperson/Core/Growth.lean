import Atperson.Core.Backdrop

/-!
# Learning keeps the tokens

Learning from a text adds tokens behind the known ones, however the observation ends. So a
known token keeps its node.
-/
namespace Atperson.Core

namespace Graph

theorem tokens_internNode (g : Graph) (token : Token) :
    g.tokens <+: (g.internNode token).1.tokens := by
  have hcreate : (g.createNode token).tokens = g.tokens++[token] :=
    congrArg Outline.tokens (outline_createNode g token)
  have hexpose : ∀ i, (g.exposeNode i).tokens = g.tokens := fun i =>
    congrArg Outline.tokens (outline_exposeNode g i)
  unfold internNode
  cases g.findNode token with
  | some i =>
      simp only [hexpose]
      exact List.prefix_rfl
  | none =>
      simp only
      split
      · exact List.prefix_rfl
      -- the kernel must not count up to the bound
      generalize 2^32-1 = limit
      split
      · exact List.prefix_rfl
      · simp only [hcreate]
        exact List.prefix_append _ _

theorem tokens_observePair (g : Graph) (source target : ℕ) (sourceHash : UInt64) :
    (g.observePair source target sourceHash).1.tokens = g.tokens := by
  have hlearn : ∀ (g : Graph) (edge : ℕ),
      (g.learnPair edge source target sourceHash).tokens = g.tokens := fun g edge =>
    congrArg Outline.tokens (outline_learnPair g edge source target sourceHash)
  unfold observePair
  split
  · rfl
  · split
    · exact hlearn g _
    · split
      · rfl
      · exact (hlearn _ _).trans
          (congrArg Outline.tokens (outline_createEdge g source target sourceHash))

/-- A known token keeps its node where tokens are added behind. -/
theorem findNode_prefix {g g' : Graph} (h : g.tokens <+: g'.tokens) {token : Token} {i : ℕ}
    (hi : g.findNode token = some i) : g'.findNode token = some i := by
  obtain ⟨added,hadded⟩ := h
  rw [findNode_eq] at hi ⊢
  rw [← hadded,List.findIdx?_append,hi]
  rfl

/-- A token that was added has its node behind the known ones. -/
theorem findNode_added {g g' : Graph} (h : g.tokens <+: g'.tokens) {token : Token} {i : ℕ}
    (hnone : g.findNode token = none) (hi : g'.findNode token = some i) : g.nodes.length ≤ i := by
  obtain ⟨added,hadded⟩ := h
  rw [findNode_eq] at hnone hi
  rw [← hadded,List.findIdx?_append,hnone,Option.none_or] at hi
  obtain ⟨j,-,rfl⟩ := Option.map_eq_some_iff.mp hi
  rw [tokens_length]
  omega

theorem findNode_lt {g : Graph} {token : Token} {i : ℕ} (hi : g.findNode token = some i) :
    i < g.nodes.length := by
  obtain ⟨hlt,-⟩ := List.findIdx?_eq_some_iff_getElem.mp hi
  exact hlt

end Graph

theorem tokens_observeEmit (hash : UInt64) (w : ObserveWalk) (token : Token) :
    w.graph.tokens <+: (observeEmit hash w token).1.graph.tokens := by
  have hintern := w.graph.tokens_internNode token
  unfold observeEmit
  generalize w.graph.internNode token = interned at hintern
  rcases interned with ⟨g,status | current⟩
  · exact hintern
  · cases w.previous with
    | none => exact hintern
    | some previous =>
        have hpair := Graph.tokens_observePair {g with tokenObservations := g.tokenObservations+1}
          previous current hash
        simp only
        generalize Graph.observePair {g with tokenObservations := g.tokenObservations+1} previous
          current hash = paired at hpair
        rcases paired with ⟨g',status⟩
        cases status <;> exact hpair.symm ▸ hintern

theorem tokens_memoryEmit (hash : UInt64) (w : MemoryWalk) (token : Token) :
    w.base.graph.tokens <+: (memoryEmit hash w token).1.base.graph.tokens := by
  have h := tokens_observeEmit hash w.base token
  unfold memoryEmit
  generalize observeEmit hash w.base token = emitted at h
  rcases emitted with ⟨base,_ | _⟩ <;> exact h

theorem tokens_memoryWalk (hash : UInt64) (w : MemoryWalk) (tokens : List Token) :
    w.base.graph.tokens <+: (emitAll (memoryEmit hash) w tokens).base.graph.tokens := by
  induction tokens generalizing w with
  | nil => exact List.prefix_rfl
  | cons token rest ih =>
      unfold emitAll
      split
      · exact (tokens_memoryEmit hash w token).trans (ih _)
      · exact tokens_memoryEmit hash w token

theorem Graph.tokens_rememberEpisode (env : IndexEnv) (g : Graph) (e : Episode) :
    (g.rememberEpisode env e).1.tokens = g.tokens := by
  have hroom : (g.makeRoom env).1.tokens = g.tokens := by
    unfold makeRoom
    split <;> rfl
  have happ : ∀ (allocs : Allocs) (g : Graph), (g.appendEpisode allocs e).1.tokens = g.tokens := by
    intro allocs g
    unfold appendEpisode
    split <;> rfl
  exact (happ _ _).trans hroom

theorem tokens_observeWithMemory (U : Utf8proc) (env : IndexEnv) (g : Graph) (text : Text)
    (p : Provenance) : g.tokens <+: (observeWithMemory U env g text p).1.tokens := by
  unfold observeWithMemory
  have hwalk := tokens_memoryWalk (hashSource p.sourceId.bytes) ⟨.start g,[]⟩
    (tokenize U p.schemaVersion text)
  generalize emitAll (memoryEmit (hashSource p.sourceId.bytes)) ⟨.start g,[]⟩
    (tokenize U p.schemaVersion text) = w at hwalk
  split
  · exact List.prefix_rfl
  · simp only
    split
    · exact hwalk
    · have hcount : (w.base.graph.countObservation w.base.sawToken).tokens =
          w.base.graph.tokens :=
        congrArg Outline.tokens (w.base.graph.outline_countObservation w.base.sawToken)
      rw [← hcount] at hwalk
      split
      · exact hwalk
      · simp only [Graph.tokens_rememberEpisode]
        exact hwalk

end Atperson.Core
