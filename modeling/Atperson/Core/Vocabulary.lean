import Atperson.Core.Capacity
import Atperson.Core.Backdrop
import Atperson.Core.Replay

/-!
# The vocabulary of a history

How far a graph has grown is a matter of the texts it learned: its tokens are theirs and its
joined pairs are their adjacent ones. So whether the next text is learned is known from the
texts before it and the ceilings, without the graph.
-/
namespace Atperson.Core
open Wire
open Ledger (Status Item)

/-- A text as the dry run reads it and as the walk does. -/
structure Reading where
  dry : List Token
  tokens : List Token
  deriving DecidableEq

def Reading.of (U : Utf8proc) (text : Text) (schema : UInt32) : Reading :=
  ⟨tokenize U schemaVersion text,tokenize U schema text⟩

structure Vocabulary where
  tokens : Finset Token
  pairs : Finset (Token×Token)

namespace Vocabulary

def empty : Vocabulary := ⟨∅,∅⟩

def learn (v : Vocabulary) (r : Reading) : Vocabulary :=
  ⟨v.tokens∪r.tokens.toFinset,v.pairs∪(Outline.adjacent r.tokens).toFinset⟩

/-- A ceiling, where 0 is none. -/
def Within (max n : ℕ) : Prop := max = 0 ∨ n ≤ max

instance (max n : ℕ) : Decidable (Within max n) := inferInstanceAs (Decidable (_ ∨ _))

/-- Under these ceilings on nodes and edges the next text is learned. -/
structure Admits (c : ℕ×ℕ) (v : Vocabulary) (r : Reading) : Prop where
  dryNodes : Within c.1 (v.tokens.card+(r.dry.filter (· ∉ v.tokens)).length)
  dryEdges : Within c.2 (v.pairs.card+((Outline.adjacent r.dry).filter (· ∉ v.pairs)).length)
  nodes : Within c.1 (v.learn r).tokens.card
  edges : Within c.2 (v.learn r).pairs.card
  indexed : (v.learn r).tokens.card ≤ 2^32-1

/-- One text after the other is learned. -/
def AdmitsAll (c : ℕ×ℕ) : Vocabulary → List Reading → Prop
  | _, [] => True
  | v, r::rest => v.Admits c r ∧ (v.learn r).AdmitsAll c rest

end Vocabulary

/-! ## The vocabulary of a graph -/

/-- A graph has grown to a vocabulary. -/
structure Spells (g : Graph) (v : Vocabulary) : Prop where
  known : ∀ t, t ∈ g.outline.tokens ↔ t ∈ v.tokens
  nodes : g.outline.tokens.length = v.tokens.card
  linked : ∀ a b, g.outline.linked a b = true ↔ (a,b) ∈ v.pairs
  edges : g.outline.links.length = v.pairs.card
  wellFormed : g.outline.WellFormed

def Graph.ceilings (g : Graph) : ℕ×ℕ := (g.config.nodeCapacityMax,g.config.edgeCapacityMax)

section Spells
variable {g g' : Graph} {v : Vocabulary}

theorem Spells.of_outline (h : Spells g v) (ho : g'.outline = g.outline) : Spells g' v := by
  obtain ⟨hknown,hnodes,hlinked,hedges,hwf⟩ := h
  rw [← ho] at hknown hnodes hlinked hedges hwf
  exact ⟨hknown,hnodes,hlinked,hedges,hwf⟩

theorem Spells.newTokens (h : Spells g v) (ts : List Token) :
    g.outline.newTokens ts = ts.toFinset\v.tokens := by
  ext t
  simp [Outline.newTokens,h.known]

theorem Spells.newPairs (h : Spells g v) (ps : List (Token×Token)) :
    g.outline.newPairs ps = ps.toFinset\v.pairs := by
  ext ⟨a,b⟩
  simp [Outline.newPairs,← h.linked]

theorem card_union {α : Type} [DecidableEq α] (s t : Finset α) :
    (s∪t).card = s.card+(t\s).card := by
  rw [← Finset.union_sdiff_self_eq_union,Finset.card_union_of_disjoint Finset.disjoint_sdiff]

/-- A graph that has learned from a text has grown by it. -/
theorem Spells.learned (h : Spells g v) {r : Reading} {w : ObserveWalk}
    (hw : Learned g r.tokens w) : Spells w.graph (v.learn r) where
  known t := by
    rw [hw.grows.known,h.known]
    simp [Vocabulary.learn]
  nodes := by
    rw [hw.grows.nodes,h.nodes,h.newTokens]
    exact (card_union _ _).symm
  linked a b := by
    rw [hw.grows.linked,h.linked]
    simp [Vocabulary.learn]
  edges := by
    rw [hw.grows.edges,h.edges,h.newPairs]
    exact (card_union _ _).symm
  wellFormed := hw.grows.wellFormed

theorem budgetWalk_counts (h : Spells g v) (ts : List Token) :
    (budgetWalk g ts).newNodes = (ts.filter (· ∉ v.tokens)).length ∧
      (budgetWalk g ts).newEdges = ((Outline.adjacent ts).filter (· ∉ v.pairs)).length := by
  obtain ⟨hn,he⟩ := budgetWalk_from h.wellFormed ts none 0 0
  refine ⟨hn.trans ?_,he.trans ?_⟩
  · rw [Nat.zero_add]
    exact congrArg List.length (List.filter_congr fun t _ => by simp [h.known])
  · rw [Nat.zero_add]
    exact congrArg List.length (List.filter_congr fun p _ => by simp [← h.linked])

/-- What the ceilings let pass can be read off the vocabulary. -/
theorem Spells.admits_iff (h : Spells g v) (U : Utf8proc) (text : Text) (ts : List Token) :
    g.fitsBudget U text ∧ g.outline.Absorbs ts ↔
      v.Admits g.ceilings ⟨tokenize U schemaVersion text,ts⟩ := by
  obtain ⟨hn,he⟩ := budgetWalk_counts h (tokenize U schemaVersion text)
  have hfits : g.fitsBudget U text ↔
      Vocabulary.Within g.ceilings.1 (v.tokens.card+
        ((tokenize U schemaVersion text).filter (· ∉ v.tokens)).length) ∧
      Vocabulary.Within g.ceilings.2 (v.pairs.card+
        ((Outline.adjacent (tokenize U schemaVersion text)).filter (· ∉ v.pairs)).length) := by
    rw [Graph.fitsBudget,fits_iff,Outline.fits,h.nodes,h.edges,hn,he]
    rfl
  have hnodes : g.outline.tokens.length+(g.outline.newTokens ts).card =
      (v.learn ⟨tokenize U schemaVersion text,ts⟩).tokens.card := by
    rw [h.nodes,h.newTokens]
    exact (card_union _ _).symm
  have hedges : g.outline.links.length+(g.outline.newPairs (Outline.adjacent ts)).card =
      (v.learn ⟨tokenize U schemaVersion text,ts⟩).pairs.card := by
    rw [h.edges,h.newPairs]
    exact (card_union _ _).symm
  constructor
  · rintro ⟨hf,habs,hidx⟩
    obtain ⟨hdn,hde⟩ := hfits.mp hf
    rw [Outline.fits,hnodes,hedges] at habs
    exact ⟨hdn,hde,habs.1,habs.2,hnodes ▸ hidx⟩
  · rintro ⟨hdn,hde,hln,hle,hidx⟩
    refine ⟨hfits.mpr ⟨hdn,hde⟩,?_,hnodes ▸ hidx⟩
    rw [Outline.fits,hnodes,hedges]
    exact ⟨hln,hle⟩

end Spells

/-! ## Room for an episode -/

/-- There is room for an episode, or one that can be evicted. -/
structure Roomy (g : Graph) : Prop where
  positive : 0 < g.episodeMax
  within : g.episodes.length ≤ g.episodeMax

section Rooms
variable {g g' : Graph}

theorem Roomy.of_same (h : Roomy g) (he : g'.episodes = g.episodes)
    (hmax : g'.episodeMax = g.episodeMax) : Roomy g' :=
  ⟨hmax ▸ h.positive,by rw [he,hmax]; exact h.within⟩

theorem findVictim_le (e : Episode) (victim i : ℕ) (rest : List Episode) (hv : victim ≤ i) :
    findVictim e victim (i+1) rest ≤ i+rest.length := by
  induction rest generalizing e victim i with
  | nil => exact hv
  | cons x rest ih =>
      unfold findVictim
      rw [List.length_cons]
      split
      · exact (ih x (i+1) (i+1) le_rfl).trans (by omega)
      · exact (ih e victim (i+1) (by omega)).trans (by omega)

theorem evictionVictim_lt {episodes : List Episode} (h : episodes ≠ []) :
    evictionVictim episodes < episodes.length := by
  cases episodes with
  | nil => exact absurd rfl h
  | cons e rest =>
      have hle : findVictim e 0 1 rest ≤ 0+rest.length := findVictim_le e 0 0 rest le_rfl
      rw [evictionVictim,List.length_cons]
      omega

/-- An episode finds room. -/
theorem Roomy.makeRoom (h : Roomy g) (env : IndexEnv) :
    (g.makeRoom env).1.episodes.length+1 ≤ g.episodeMax := by
  unfold Graph.makeRoom
  split
  · rename_i hfull
    have hne : g.episodes ≠ [] := by
      have := h.positive
      exact List.ne_nil_of_length_pos (by omega)
    have hlen : (g.evictEpisode env).1.episodes.length = g.episodes.length-1 :=
      List.length_eraseIdx_of_lt (evictionVictim_lt hne)
    have := List.length_pos_of_ne_nil hne
    have := h.within
    omega
  · exact Nat.lt_of_not_le ‹_›

theorem Roomy.remembers (h : Roomy g) (env : IndexEnv) (e : Episode) :
    (g.rememberEpisode env e).2 = .ok ∧ Roomy (g.rememberEpisode env e).1 := by
  have hmax : (g.makeRoom env).1.episodeMax = g.episodeMax :=
    congrArg Backdrop.episodeMax (g.backdrop_makeRoom env)
  have hroom : (g.makeRoom env).1.episodes.length+1 ≤ (g.makeRoom env).1.episodeMax :=
    hmax ▸ h.makeRoom env
  unfold Graph.rememberEpisode Graph.appendEpisode
  rw [if_neg (Nat.not_lt.mpr hroom)]
  refine ⟨rfl,?_,?_⟩
  · show 0 < (g.makeRoom env).1.episodeMax
    rw [hmax]
    exact h.positive
  · show ((g.makeRoom env).1.episodes++[e]).length ≤ (g.makeRoom env).1.episodeMax
    rw [List.length_append]
    exact hroom

end Rooms

/-! ## Learning -/

section Learning
variable {U : Utf8proc} {g : Graph} {v : Vocabulary} {text : Text}

/-- An observation that the ceilings admit is learned. -/
theorem Spells.observes (h : Spells g v) (hroom : Roomy g) (env : IndexEnv) {p : Provenance}
    (hadmits : v.Admits g.ceilings (.of U text p.schemaVersion)) :
    ∃ g' kept, observeWithMemory U env g text p = (g',.ok,kept) ∧
      Spells g' (v.learn (.of U text p.schemaVersion)) ∧ Roomy g' := by
  obtain ⟨hfits,habsorbs⟩ := (h.admits_iff U text _).mpr hadmits
  have hstart := learned_start h.wellFormed (fits_zero hfits)
  have hbase := memory_base (hashSource p.sourceId.bytes) ⟨.start g,[]⟩
    (tokenize U p.schemaVersion text)
  have hepisodes := aside_episodes.memoryWalk (hashSource p.sourceId.bytes) ⟨.start g,[]⟩
    (tokenize U p.schemaVersion text)
  have hbackdrop := aside_backdrop.memoryWalk (hashSource p.sourceId.bytes) ⟨.start g,[]⟩
    (tokenize U p.schemaVersion text)
  rcases hstart.walk (hashSource p.sourceId.bytes) (tokenize U p.schemaVersion text) with
    hall | ⟨mid,t,post,hsplit,-,hhalt⟩
  · rw [List.nil_append] at hall
    unfold observeWithMemory
    rw [if_neg (not_not.mpr hfits)]
    generalize emitAll (memoryEmit (hashSource p.sourceId.bytes)) ⟨.start g,[]⟩
      (tokenize U p.schemaVersion text) = w at hbase hepisodes hbackdrop ⊢
    have hspells : Spells (w.base.graph.countObservation w.base.sawToken)
        (v.learn (.of U text p.schemaVersion)) := by
      rw [hbase]
      exact (h.learned hall).of_outline (Graph.outline_countObservation _ _)
    have hcounted : Roomy (w.base.graph.countObservation w.base.sawToken) := by
      refine hroom.of_same ?_ (congrArg Backdrop.episodeMax
        ((w.base.graph.backdrop_countObservation _).trans hbackdrop))
      refine Eq.trans ?_ hepisodes
      unfold Graph.countObservation
      split <;> rfl
    have hstatus : w.base.status = .ok := by rw [hbase]; exact hall.status
    simp only
    rw [if_neg (not_not.mpr hstatus)]
    split
    · exact ⟨_,_,rfl,hspells,hcounted⟩
    · obtain ⟨hok,hroom'⟩ := hcounted.remembers env
        (buildEpisode (w.counts.mergeSort countBefore) p)
      refine ⟨_,_,Prod.ext rfl (Prod.ext hok rfl),?_,hroom'⟩
      exact hspells.of_outline (outline_rememberEpisode env _ _)
  · have happ : tokenize U p.schemaVersion text = (mid++[t])++post := by simp [hsplit]
    have habs : g.outline.Absorbs ((mid++[t])++post) := happ ▸ habsorbs
    rw [List.nil_append] at hhalt
    cases hhalt with
    | refused k _ href => exact absurd href habs.not_refuses
    | full _ _ hroom => exact absurd habs.shorter hroom

/-- An observation that is learned is one the ceilings admit. -/
theorem Spells.observed (h : Spells g v) {env : IndexEnv} {p : Provenance} {g' : Graph}
    {kept : Bool} (hok : observeWithMemory U env g text p = (g',.ok,kept)) :
    v.Admits g.ceilings (.of U text p.schemaVersion) := by
  refine (h.admits_iff U text _).mp ?_
  by_cases hfits : g.fitsBudget U text
  · refine ⟨hfits,?_⟩
    have hstart := learned_start h.wellFormed (fits_zero hfits)
    obtain ⟨hbad,-⟩ := observeWithMemory_walk hfits env p
    rcases hstart.walk (hashSource p.sourceId.bytes) (tokenize U p.schemaVersion text) with
      hall | ⟨mid,t,post,hsplit,-,hhalt⟩
    · exact hall.absorbs
    · have hstatus : (emitAll (observeEmit (hashSource p.sourceId.bytes)) (.start g)
          (tokenize U p.schemaVersion text)).status ≠ .ok := by
        cases hhalt with
        | refused k hst => simp [hst]
        | full hst => simp [hst]
      have hst := (hbad hstatus).2
      rw [hok] at hst
      exact absurd hst.symm hstatus
  · rw [observeWithMemory,if_pos hfits] at hok
    cases hok

end Learning

end Atperson.Core
