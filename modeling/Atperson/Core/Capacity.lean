import Atperson.Core.Observe
import Atperson.Core.Lifecycle

/-!
# Observation at a resource ceiling

Which tokens and pairs a text adds is a matter of outlines: the walk adds each unknown
token and each unjoined adjacent pair once. The dry run counts them with repetition, so
under one schema it never counts too few, and a text it lets pass meets no ceiling. But
the dry run reads the text under the current schema and the walk under the schema of the
entry. Where the two scanners disagree, the walk can meet a ceiling behind its first token,
after it has learned.
-/
namespace Atperson.Core
open Wire
open Ledger (Status)

/-! ## What a text adds to an outline -/

namespace Outline

def find (o : Outline) (t : Token) : Option ℕ := o.tokens.findIdx? (· = t)

def linked (o : Outline) (a b : Token) : Bool :=
  match o.find a,o.find b with
  | some i,some j => (i,j) ∈ o.links
  | _,_ => false

def newTokens (o : Outline) (ts : List Token) : Finset Token :=
  (ts.filter (· ∉ o.tokens)).toFinset

def newPairs (o : Outline) (ps : List (Token×Token)) : Finset (Token×Token) :=
  (ps.filter fun p => ¬o.linked p.1 p.2).toFinset

/-- Every link joins two tokens, and the node table is within its index type. -/
structure WellFormed (o : Outline) : Prop where
  inside : ∀ p ∈ o.links, p.1 < o.tokens.length ∧ p.2 < o.tokens.length
  indexed : o.tokens.length ≤ 2^32-1

theorem find_lt {o : Outline} {t : Token} {i : ℕ} (h : o.find t = some i) :
    i < o.tokens.length := by
  obtain ⟨hlt,-⟩ := List.findIdx?_eq_some_iff_getElem.mp h
  exact hlt

theorem find_at {o : Outline} {t : Token} {i : ℕ} (h : o.find t = some i) :
    o.tokens[i]? = some t := by
  obtain ⟨hlt,ht,-⟩ := List.findIdx?_eq_some_iff_getElem.mp h
  rw [List.getElem?_eq_getElem hlt]
  simpa using ht

theorem find_inj {o : Outline} {a b : Token} {i : ℕ} (ha : o.find a = some i)
    (hb : o.find b = some i) : a = b :=
  Option.some.inj ((find_at ha).symm.trans (find_at hb))

theorem find_none {o : Outline} {t : Token} : o.find t = none ↔ t ∉ o.tokens := by
  rw [find,List.findIdx?_eq_none_iff]
  constructor
  · intro h hmem
    simpa using h t hmem
  · intro h x hx
    have : x ≠ t := fun hxt => h (hxt ▸ hx)
    simpa using this

theorem find_isSome {o : Outline} {t : Token} (h : t ∈ o.tokens) : ∃ i, o.find t = some i := by
  cases hf : o.find t with
  | none => exact absurd h (find_none.mp hf)
  | some i => exact ⟨i,rfl⟩

theorem linked_iff {o : Outline} {a b : Token} : o.linked a b = true ↔
    ∃ i j, o.find a = some i ∧ o.find b = some j ∧ (i,j) ∈ o.links := by
  unfold linked
  split
  · rename_i i j hi hj
    simp [hi,hj]
  · rename_i hno
    constructor
    · intro h
      cases h
    · rintro ⟨i,j,hi,hj,-⟩
      exact absurd hj (fun hj => hno i j hi hj)

/-! ## Growth -/

def addToken (o : Outline) (t : Token) : Outline := {o with tokens := o.tokens++[t]}

def addLink (o : Outline) (p : ℕ×ℕ) : Outline := {o with links := o.links++[p]}

theorem find_addToken {o : Outline} {t : Token} (ht : t ∉ o.tokens) (a : Token) :
    (o.addToken t).find a = if a = t then some o.tokens.length else o.find a := by
  unfold find addToken
  rw [List.findIdx?_append]
  by_cases ha : a = t
  · subst ha
    have hnone : o.tokens.findIdx? (· = a) = none := find_none.mpr ht
    rw [hnone]
    simp
  · have hne : ¬t = a := fun h => ha h.symm
    simp [ha,hne,List.findIdx?_cons]

theorem WellFormed.addToken {o : Outline} (h : o.WellFormed) (t : Token)
    (hroom : o.tokens.length+1 ≤ 2^32-1) : (o.addToken t).WellFormed := by
  refine ⟨fun p hp => ?_,by simpa [Outline.addToken] using hroom⟩
  have := h.inside p hp
  simp only [Outline.addToken,List.length_append,List.length_singleton]
  omega

theorem WellFormed.addLink {o : Outline} (h : o.WellFormed) {i j : ℕ}
    (hi : i < o.tokens.length) (hj : j < o.tokens.length) : (o.addLink (i,j)).WellFormed := by
  refine ⟨fun p hp => ?_,h.indexed⟩
  rcases List.mem_append.mp hp with hp | hp
  · exact h.inside p hp
  · obtain rfl := List.mem_singleton.mp hp
    exact ⟨hi,hj⟩

theorem linked_addToken {o : Outline} (h : o.WellFormed) {t : Token} (ht : t ∉ o.tokens)
    (a b : Token) : (o.addToken t).linked a b = true ↔ o.linked a b = true := by
  rw [linked_iff,linked_iff]
  constructor
  · rintro ⟨i,j,hi,hj,hl⟩
    have hin := h.inside (i,j) hl
    rw [find_addToken ht] at hi hj
    refine ⟨i,j,?_,?_,hl⟩
    · split at hi
      · have := Option.some.inj hi
        omega
      · exact hi
    · split at hj
      · have := Option.some.inj hj
        omega
      · exact hj
  · rintro ⟨i,j,hi,hj,hl⟩
    have hne : ∀ {x : Token} {k : ℕ}, o.find x = some k → x ≠ t := fun hx hxt =>
      ht (hxt ▸ List.mem_of_getElem? (find_at hx))
    refine ⟨i,j,?_,?_,hl⟩
    · rw [find_addToken ht,if_neg (hne hi),hi]
    · rw [find_addToken ht,if_neg (hne hj),hj]

theorem linked_addLink {o : Outline} {a b : Token} {i j : ℕ} (ha : o.find a = some i)
    (hb : o.find b = some j) (x y : Token) : (o.addLink (i,j)).linked x y = true ↔
      o.linked x y = true ∨ (x,y) = (a,b) := by
  rw [linked_iff,linked_iff]
  constructor
  · rintro ⟨k,l,hk,hl,hmem⟩
    rcases List.mem_append.mp hmem with hm | hm
    · exact .inl ⟨k,l,hk,hl,hm⟩
    · obtain ⟨rfl,rfl⟩ := Prod.mk.inj (List.mem_singleton.mp hm)
      exact .inr (Prod.ext (find_inj hk ha) (find_inj hl hb))
  · rintro (⟨k,l,hk,hl,hm⟩ | he)
    · exact ⟨k,l,hk,hl,List.mem_append_left _ hm⟩
    · obtain ⟨rfl,rfl⟩ := Prod.mk.inj he
      exact ⟨i,j,ha,hb,List.mem_append_right _ List.mem_cons_self⟩

theorem newTokens_concat (o : Outline) (ts : List Token) (t : Token) :
    o.newTokens (ts++[t]) = if t ∈ o.tokens then o.newTokens ts else insert t (o.newTokens ts) := by
  unfold newTokens
  rw [List.filter_append]
  split
  · rename_i h
    simp [h]
  · rename_i h
    simp [h]

theorem newPairs_concat (o : Outline) (ps : List (Token×Token)) (p : Token×Token) :
    o.newPairs (ps++[p]) =
      if o.linked p.1 p.2 then o.newPairs ps else insert p (o.newPairs ps) := by
  unfold newPairs
  rw [List.filter_append]
  split
  · rename_i h
    simp [h]
  · rename_i h
    simp [h]

/-- One outline has grown to another by the tokens seen and the pairs joined. -/
structure Grows (o o' : Outline) (seen : List Token) (joined : List (Token×Token)) : Prop where
  config : o'.config = o.config
  known : ∀ a, a ∈ o'.tokens ↔ a ∈ o.tokens ∨ a ∈ seen
  nodes : o'.tokens.length = o.tokens.length+(o.newTokens seen).card
  linked : ∀ a b, o'.linked a b = true ↔ o.linked a b = true ∨ (a,b) ∈ joined
  edges : o'.links.length = o.links.length+(o.newPairs joined).card
  wellFormed : o'.WellFormed

theorem Grows.refl {o : Outline} (h : o.WellFormed) : o.Grows o [] [] where
  config := rfl
  known := by simp
  nodes := by simp [newTokens]
  linked := by simp
  edges := by simp [newPairs]
  wellFormed := h

section Grows
variable {o o' : Outline} {seen : List Token} {joined : List (Token×Token)}

theorem Grows.seeKnown (h : o.Grows o' seen joined) {t : Token} (ht : t ∈ o'.tokens) :
    o.Grows o' (seen++[t]) joined where
  config := h.config
  known := by
    intro a
    rw [h.known a,List.mem_append,List.mem_singleton]
    constructor
    · tauto
    · rintro (ha | ha | rfl)
      · exact .inl ha
      · exact .inr ha
      · exact (h.known a).mp ht
  nodes := by
    rw [h.nodes,newTokens_concat]
    split
    · rfl
    · rename_i hnew
      have hseen : t ∈ seen := ((h.known t).mp ht).resolve_left hnew
      rw [Finset.insert_eq_of_mem (by simp [newTokens,hseen,hnew])]
  linked := h.linked
  edges := h.edges
  wellFormed := h.wellFormed

theorem Grows.seeNew (h : o.Grows o' seen joined) {t : Token} (ht : t ∉ o'.tokens)
    (hroom : o'.tokens.length+1 ≤ 2^32-1) : o.Grows (o'.addToken t) (seen++[t]) joined where
  config := h.config
  known := by
    intro a
    rw [addToken,List.mem_append,h.known a,List.mem_append,or_assoc]
  nodes := by
    have hold : t ∉ o.tokens := fun hm => ht ((h.known t).mpr (.inl hm))
    have hnew : t ∉ o.newTokens seen := fun hm =>
      ht ((h.known t).mpr (.inr (List.mem_of_mem_filter (List.mem_toFinset.mp hm))))
    rw [newTokens_concat,if_neg hold,Finset.card_insert_of_notMem hnew]
    simp only [addToken,List.length_append,List.length_singleton]
    rw [h.nodes]
    omega
  linked := fun a b => (linked_addToken h.wellFormed ht a b).trans (h.linked a b)
  edges := h.edges
  wellFormed := h.wellFormed.addToken t hroom

theorem Grows.joinKnown (h : o.Grows o' seen joined) {a b : Token}
    (hl : o'.linked a b = true) : o.Grows o' seen (joined++[(a,b)]) where
  config := h.config
  known := h.known
  nodes := h.nodes
  linked := by
    intro x y
    rw [h.linked x y,List.mem_append,List.mem_singleton]
    constructor
    · tauto
    · rintro (hx | hx | hx)
      · exact .inl hx
      · exact .inr hx
      · obtain ⟨rfl,rfl⟩ := Prod.mk.inj hx
        exact (h.linked x y).mp hl
  edges := by
    rw [h.edges,newPairs_concat]
    split
    · rfl
    · rename_i hnew
      have hj : (a,b) ∈ joined := ((h.linked a b).mp hl).resolve_left hnew
      rw [Finset.insert_eq_of_mem (by simpa [newPairs,hj] using hnew)]
  wellFormed := h.wellFormed

theorem Grows.joinNew (h : o.Grows o' seen joined) {a b : Token} {i j : ℕ}
    (ha : o'.find a = some i) (hb : o'.find b = some j) (hl : ¬o'.linked a b = true) :
    o.Grows (o'.addLink (i,j)) seen (joined++[(a,b)]) where
  config := h.config
  known := h.known
  nodes := h.nodes
  linked := by
    intro x y
    rw [linked_addLink ha hb,h.linked x y,List.mem_append,List.mem_singleton,or_assoc]
  edges := by
    have hold : ¬o.linked a b = true := fun hm => hl ((h.linked a b).mpr (.inl hm))
    have hnew : (a,b) ∉ o.newPairs joined := fun hm =>
      hl ((h.linked a b).mpr (.inr (List.mem_of_mem_filter (List.mem_toFinset.mp hm))))
    rw [newPairs_concat,if_neg hold,Finset.card_insert_of_notMem hnew]
    simp only [addLink,List.length_append,List.length_singleton]
    rw [h.edges]
    omega
  wellFormed := h.wellFormed.addLink (find_lt ha) (find_lt hb)

end Grows

/-! ## Ceilings on an outline -/

def fits (o : Outline) (newNodes newEdges : ℕ) : Prop :=
  (o.config.nodeCapacityMax = 0 ∨ o.tokens.length+newNodes ≤ o.config.nodeCapacityMax) ∧
    (o.config.edgeCapacityMax = 0 ∨ o.links.length+newEdges ≤ o.config.edgeCapacityMax)

instance (o : Outline) (m n : ℕ) : Decidable (o.fits m n) := inferInstanceAs (Decidable (_ ∧ _))

/-- The adjacent pairs of a text. -/
def adjacent (ts : List Token) : List (Token×Token) := ts.zip ts.tail

/-- The walk gets through these tokens. -/
structure Absorbs (o : Outline) (ts : List Token) : Prop where
  fits : o.fits (o.newTokens ts).card (o.newPairs (adjacent ts)).card
  indexed : o.tokens.length+(o.newTokens ts).card ≤ 2^32-1

/-- The last of these tokens is one a ceiling refuses: it is one node too many, or it has a
node and is one edge too many. -/
def Refuses (o : Outline) (ts : List Token) : Prop :=
  (o.config.nodeCapacityMax ≠ 0 ∧
    o.config.nodeCapacityMax < o.tokens.length+(o.newTokens ts).card) ∨
  (o.tokens.length+(o.newTokens ts).card ≤ 2^32-1 ∧ o.config.edgeCapacityMax ≠ 0 ∧
    o.config.edgeCapacityMax < o.links.length+(o.newPairs (adjacent ts)).card)

theorem adjacent_concat (ts : List Token) (a t : Token) :
    adjacent (ts++[a]++[t]) = adjacent (ts++[a])++[(a,t)] := by
  induction ts with
  | nil => rfl
  | cons x rest ih =>
      cases rest with
      | nil => rfl
      | cons y rest => exact congrArg ((x,y)::·) ih

theorem adjacent_isPrefix (pre post : List Token) : adjacent pre <+: adjacent (pre++post) := by
  induction pre with
  | nil => exact List.nil_prefix
  | cons x rest ih =>
      cases rest with
      | nil => exact List.nil_prefix
      | cons y rest => exact List.cons_prefix_cons.mpr ⟨rfl,ih⟩

theorem newTokens_mono (o : Outline) (pre post : List Token) :
    (o.newTokens pre).card ≤ (o.newTokens (pre++post)).card := by
  refine Finset.card_le_card fun t ht => ?_
  simp only [newTokens,List.mem_toFinset,List.mem_filter,List.mem_append] at ht ⊢
  exact ⟨.inl ht.1,ht.2⟩

theorem newPairs_mono (o : Outline) (pre post : List Token) :
    (o.newPairs (adjacent pre)).card ≤ (o.newPairs (adjacent (pre++post))).card := by
  refine Finset.card_le_card fun p hp => ?_
  simp only [newPairs,List.mem_toFinset,List.mem_filter] at hp ⊢
  exact ⟨(adjacent_isPrefix pre post).subset hp.1,hp.2⟩

theorem fits_not_refuses {o : Outline} {pre post : List Token} {m n : ℕ} (h : o.fits m n)
    (hm : (o.newTokens (pre++post)).card ≤ m)
    (hn : (o.newPairs (adjacent (pre++post))).card ≤ n) : ¬o.Refuses pre := by
  have h1 := newTokens_mono o pre post
  have h2 := newPairs_mono o pre post
  rintro (⟨hne,hlt⟩ | ⟨-,hne,hlt⟩)
  · rcases h.1 with h0 | h0
    · exact hne h0
    · omega
  · rcases h.2 with h0 | h0
    · exact hne h0
    · omega

theorem Absorbs.not_refuses {o : Outline} {pre post : List Token} (h : o.Absorbs (pre++post)) :
    ¬o.Refuses pre := fits_not_refuses h.fits le_rfl le_rfl

theorem Absorbs.shorter {o : Outline} {pre post : List Token} (h : o.Absorbs (pre++post)) :
    o.tokens.length+(o.newTokens pre).card ≤ 2^32-1 :=
  (Nat.add_le_add_left (newTokens_mono o pre post) _).trans h.indexed

end Outline

/-! ## The dry run counts with repetition -/

/-- The adjacent pairs of a text behind a token. -/
def adjacentFrom (last : Option Token) (ts : List Token) : List (Token×Token) :=
  match last with
  | none => Outline.adjacent ts
  | some p => Outline.adjacent (p::ts)

theorem findEdge_isSome (g : Graph) (i j : ℕ) :
    (g.findEdge i j).isSome = true ↔ (i,j) ∈ g.links := by
  rw [Graph.findEdge_eq,List.findIdx?_isSome]
  simp

theorem budget_edge {g : Graph} (hwf : g.outline.WellFormed) (p t : Token) :
    ((g.findNode t).isSome &&
      (g.findEdge ((g.findNode p).getD g.nodes.length) ((g.findNode t).getD g.nodes.length)).isSome) =
      g.outline.linked p t := by
  have hfind : ∀ x, g.findNode x = g.outline.find x := fun x => g.findNode_eq x
  rw [Bool.eq_iff_iff,Bool.and_eq_true,findEdge_isSome,Outline.linked_iff,hfind,hfind]
  constructor
  · rintro ⟨ht,hl⟩
    obtain ⟨j,hj⟩ := Option.isSome_iff_exists.mp ht
    cases hp : g.outline.find p with
    | none =>
        rw [hp,Option.getD_none] at hl
        have := (hwf.inside _ hl).1
        simp only [Graph.outline,Graph.tokens_length] at this
        omega
    | some i =>
        rw [hp,hj] at hl
        exact ⟨i,j,rfl,hj,hl⟩
  · rintro ⟨i,j,hi,hj,hl⟩
    rw [hi,hj]
    exact ⟨rfl,hl⟩

theorem budgetWalk_from {g : Graph} (hwf : g.outline.WellFormed) (ts : List Token)
    (last : Option Token) (m n : ℕ) :
    (emitAll (budgetEmit g) ⟨m,n,last.map fun p => (g.findNode p).getD g.nodes.length⟩ ts).newNodes =
        m+(ts.filter (· ∉ g.outline.tokens)).length ∧
      (emitAll (budgetEmit g)
          ⟨m,n,last.map fun p => (g.findNode p).getD g.nodes.length⟩ ts).newEdges =
        n+((adjacentFrom last ts).filter fun p => ¬g.outline.linked p.1 p.2).length := by
  induction ts generalizing last m n with
  | nil => cases last <;> simp [emitAll,adjacentFrom,Outline.adjacent]
  | cons t ts ih =>
      have hknown : (g.findNode t).isSome = true ↔ t ∈ g.outline.tokens := by
        rw [g.findNode_eq,List.findIdx?_isSome]
        simp [Graph.outline]
      have hnodes : (if (g.findNode t).isSome then m else m+1) =
          m+([t].filter (· ∉ g.outline.tokens)).length := by
        by_cases h : t ∈ g.outline.tokens
        · simp [hknown.mpr h,h]
        · have h0 : ¬(g.findNode t).isSome = true := fun hs => h (hknown.mp hs)
          simp [h0,h]
      have hcons : ((t::ts).filter (· ∉ g.outline.tokens)).length =
          ([t].filter (· ∉ g.outline.tokens)).length+
            (ts.filter (· ∉ g.outline.tokens)).length := by
        rw [← List.length_append,← List.filter_append,List.singleton_append]
      unfold emitAll
      simp only [budgetEmit,if_true]
      cases last with
      | none =>
          obtain ⟨h1,h2⟩ := ih (some t) (if (g.findNode t).isSome then m else m+1) n
          refine ⟨h1.trans ?_,h2⟩
          rw [hnodes,hcons,Nat.add_assoc]
      | some p =>
          have hedge := budget_edge hwf p t
          simp only [Option.map_some,hedge]
          obtain ⟨h1,h2⟩ := ih (some t) (if (g.findNode t).isSome then m else m+1)
            (if g.outline.linked p t then n else n+1)
          refine ⟨h1.trans (by rw [hnodes,hcons,Nat.add_assoc]),h2.trans ?_⟩
          show _ = n+(((p,t)::adjacentFrom (some t) ts).filter _).length
          by_cases h : g.outline.linked p t = true
          · simp [h]
          · simp [h]
            omega

theorem budgetWalk_covers {g : Graph} (hwf : g.outline.WellFormed) (ts : List Token) :
    (g.outline.newTokens ts).card ≤ (budgetWalk g ts).newNodes ∧
      (g.outline.newPairs (Outline.adjacent ts)).card ≤ (budgetWalk g ts).newEdges := by
  obtain ⟨h1,h2⟩ := budgetWalk_from hwf ts none 0 0
  have h1' : (budgetWalk g ts).newNodes = _ := h1
  have h2' : (budgetWalk g ts).newEdges = _ := h2
  rw [h1',h2',Nat.zero_add,Nat.zero_add]
  exact ⟨List.toFinset_card_le _,List.toFinset_card_le _⟩

/-! ## The walk -/

theorem Outline.Grows.recount {o o' : Outline} {seen : List Token}
    {joined : List (Token×Token)} (h : o.Grows o' seen joined) (n : UInt64) :
    o.Grows {o' with tokenObservations := n} seen joined :=
  ⟨h.config,h.known,h.nodes,h.linked,h.edges,⟨h.wellFormed.inside,h.wellFormed.indexed⟩⟩

/-- What interning a token does. -/
theorem internNode_cases (g : Graph) (t : Token) :
    (∃ g' i, g.internNode t = (g',.ok i) ∧ g'.outline = g.outline ∧ g.outline.find t = some i) ∨
    (t ∉ g.outline.tokens ∧ g.nodesFull ∧ g.internNode t = (g.reject,.error .capacity)) ∨
    (t ∉ g.outline.tokens ∧ ¬g.nodesFull ∧ 2^32-1 ≤ g.nodes.length ∧
      g.internNode t = (g,.error .outOfMemory)) ∨
    (t ∉ g.outline.tokens ∧ ¬g.nodesFull ∧ g.nodes.length+1 ≤ 2^32-1 ∧
      ∃ g', g.internNode t = (g',.ok g.nodes.length) ∧ g'.outline = g.outline.addToken t) := by
  have hfind : g.findNode t = g.outline.find t := g.findNode_eq t
  cases hf : g.outline.find t with
  | some i =>
      refine .inl ⟨g.exposeNode i,i,?_,g.outline_exposeNode i,rfl⟩
      rw [Graph.internNode,hfind,hf]
  | none =>
      have hnew := Outline.find_none.mp hf
      have hnone : g.findNode t = none := hfind.trans hf
      by_cases hfull : g.nodesFull
      · refine .inr (.inl ⟨hnew,hfull,?_⟩)
        simp only [Graph.internNode,hnone,if_pos hfull]
      by_cases htable : 2^32-1 ≤ g.nodes.length
      · refine .inr (.inr (.inl ⟨hnew,hfull,htable,?_⟩))
        simp only [Graph.internNode,hnone,if_neg hfull,if_pos htable]
      · refine .inr (.inr (.inr ⟨hnew,hfull,by omega,g.createNode t,?_,g.outline_createNode t⟩))
        simp only [Graph.internNode,hnone,if_neg hfull,if_neg htable]

/-- What observing a pair of known tokens does. -/
theorem observePair_cases (g : Graph) {a b : Token} {i j : ℕ} (ha : g.outline.find a = some i)
    (hb : g.outline.find b = some j) (hash : UInt64) :
    (g.outline.linked a b = true ∧ ∃ g', g.observePair i j hash = (g',.ok) ∧
      g'.outline = g.outline) ∨
    (¬g.outline.linked a b = true ∧ g.edgesFull ∧ g.observePair i j hash = (g.reject,.capacity)) ∨
    (¬g.outline.linked a b = true ∧ ¬g.edgesFull ∧ ∃ g', g.observePair i j hash = (g',.ok) ∧
      g'.outline = g.outline.addLink (i,j)) := by
  have hi : i < g.nodes.length := by simpa [Graph.outline] using Outline.find_lt ha
  have hj : j < g.nodes.length := by simpa [Graph.outline] using Outline.find_lt hb
  have hlinked : g.outline.linked a b = true ↔ (g.findEdge i j).isSome = true := by
    rw [findEdge_isSome,Outline.linked,ha,hb]
    exact decide_eq_true_iff
  have hin : ¬¬(i < g.nodes.length ∧ j < g.nodes.length) := not_not.mpr ⟨hi,hj⟩
  cases he : g.findEdge i j with
  | some edge =>
      refine .inl ⟨hlinked.mpr (by rw [he]; rfl),_,?_,g.outline_learnPair edge i j hash⟩
      simp only [Graph.observePair,if_neg hin,he]
  | none =>
      have hnot : ¬g.outline.linked a b = true := fun h => by simpa [he] using hlinked.mp h
      by_cases hfull : g.edgesFull
      · refine .inr (.inl ⟨hnot,hfull,?_⟩)
        simp only [Graph.observePair,if_neg hin,he,if_pos hfull]
      · refine .inr (.inr ⟨hnot,hfull,(g.createEdge i j hash).learnPair g.edges.length i j hash,
          ?_,by rw [Graph.outline_learnPair,Graph.outline_createEdge]; rfl⟩)
        simp only [Graph.observePair,if_neg hin,he,if_neg hfull]

/-- The walk has learned from these tokens. -/
structure Learned (g : Graph) (ts : List Token) (w : ObserveWalk) : Prop where
  grows : g.outline.Grows w.graph.outline ts (Outline.adjacent ts)
  absorbs : g.outline.Absorbs ts
  previous : w.previous = ts.getLast?.bind w.graph.outline.find
  observed : w.graph.tokenObservations = g.tokenObservations+UInt64.ofNat ts.length
  status : w.status = .ok
  untouched : ts = [] → w.graph = g

/-- The walk stopped at a token behind these: a ceiling refused it, or the node table is
full. -/
inductive Halted (g : Graph) (ts : List Token) (t : Token) (w : ObserveWalk) : Prop
  | refused (k : ℕ) : w.status = .capacity → g.outline.Refuses (ts++[t]) →
      (ts = [] → w.graph = g.reject) → k ≤ 1 →
      w.graph.tokenObservations = g.tokenObservations+UInt64.ofNat (ts.length+k) →
      Halted g ts t w
  | full : w.status = .outOfMemory → ¬g.outline.Refuses (ts++[t]) →
      ¬g.outline.tokens.length+(g.outline.newTokens (ts++[t])).card ≤ 2^32-1 → Halted g ts t w

section Walk
variable {g : Graph} {ts : List Token} {w : ObserveWalk}

/-- A walk that has seen a token interned, before it looks at the pair. -/
structure Interned (g : Graph) (ts : List Token) (t : Token) (w : ObserveWalk) (h : Graph) (j : ℕ) :
    Prop where
  grows : g.outline.Grows h.outline (ts++[t]) (Outline.adjacent ts)
  found : h.outline.find t = some j
  stable : ∀ a i, w.graph.outline.find a = some i → h.outline.find a = some i
  fits : g.config.nodeCapacityMax = 0 ∨
    g.outline.tokens.length+(g.outline.newTokens (ts++[t])).card ≤ g.config.nodeCapacityMax
  indexed : g.outline.tokens.length+(g.outline.newTokens (ts++[t])).card ≤ 2^32-1
  observed : h.tokenObservations = w.graph.tokenObservations

theorem Learned.intern (h : Learned g ts w) (t : Token) :
    (∃ g' j, w.graph.internNode t = (g',.ok j) ∧ Interned g ts t w g' j) ∨
    (w.graph.internNode t = (w.graph.reject,.error .capacity) ∧ g.config.nodeCapacityMax ≠ 0 ∧
      g.config.nodeCapacityMax <
        g.outline.tokens.length+(g.outline.newTokens (ts++[t])).card) ∨
    (w.graph.internNode t = (w.graph,.error .outOfMemory) ∧
      ¬g.outline.tokens.length+(g.outline.newTokens (ts++[t])).card ≤ 2^32-1 ∧
      (g.config.nodeCapacityMax = 0 ∨ g.outline.tokens.length+
        (g.outline.newTokens (ts++[t])).card ≤ g.config.nodeCapacityMax)) := by
  have hconfig : w.graph.config = g.config := h.grows.config
  have hlen : w.graph.nodes.length = w.graph.outline.tokens.length := by simp [Graph.outline]
  have hcount : t ∉ w.graph.outline.tokens →
      g.outline.tokens.length+(g.outline.newTokens (ts++[t])).card = w.graph.nodes.length+1 := by
    intro hnew
    have hold : t ∉ g.outline.tokens := fun hm => hnew ((h.grows.known t).mpr (.inl hm))
    have hts : t ∉ g.outline.newTokens ts := fun hm => hnew ((h.grows.known t).mpr
      (.inr (List.mem_of_mem_filter (List.mem_toFinset.mp hm))))
    rw [hlen,h.grows.nodes,Outline.newTokens_concat,if_neg hold,Finset.card_insert_of_notMem hts]
    omega
  rcases internNode_cases w.graph t with ⟨g',i,hi,ho,hf⟩ | ⟨hnew,hfull,hi⟩ |
    ⟨hnew,hfull,htable,hi⟩ | ⟨hnew,hfull,hroom,g',hi,ho⟩
  · have hmem : t ∈ w.graph.outline.tokens := List.mem_of_getElem? (Outline.find_at hf)
    have hgrows := h.grows.seeKnown hmem
    have hsame : (g.outline.newTokens (ts++[t])).card = (g.outline.newTokens ts).card :=
      Nat.add_left_cancel (hgrows.nodes.symm.trans h.grows.nodes)
    refine .inl ⟨g',i,hi,?_⟩
    rw [← ho] at hgrows hf
    refine ⟨hgrows,hf,fun a i ha => by rw [ho]; exact ha,?_,?_,congrArg Outline.tokenObservations ho⟩
    · rw [hsame]
      exact h.absorbs.fits.1
    · rw [hsame]
      exact h.absorbs.indexed
  · refine .inr (.inl ⟨hi,hconfig ▸ hfull.1,?_⟩)
    rw [hcount hnew,← hconfig]
    exact Nat.lt_succ_of_le hfull.2
  · refine .inr (.inr ⟨hi,by rw [hcount hnew]; omega,?_⟩)
    rw [hcount hnew,← hconfig]
    by_cases h0 : w.graph.config.nodeCapacityMax = 0
    · exact .inl h0
    · exact .inr (Nat.not_le.mp fun hle => hfull ⟨h0,hle⟩)
  · have hgrows := h.grows.seeNew hnew (by rw [← hlen]; exact hroom)
    have hfound : (w.graph.outline.addToken t).find t = some w.graph.nodes.length := by
      rw [Outline.find_addToken hnew,if_pos rfl,hlen]
    refine .inl ⟨g',_,hi,?_⟩
    rw [← ho] at hgrows hfound
    refine ⟨hgrows,hfound,fun a i ha => ?_,?_,?_,congrArg Outline.tokenObservations ho⟩
    · have hne : a ≠ t := fun hat => hnew (hat ▸ List.mem_of_getElem? (Outline.find_at ha))
      rw [ho,Outline.find_addToken hnew,if_neg hne,ha]
    · rw [hcount hnew,← hconfig]
      by_cases h0 : w.graph.config.nodeCapacityMax = 0
      · exact .inl h0
      · exact .inr (Nat.not_le.mp fun hle => hfull ⟨h0,hle⟩)
    · rw [hcount hnew]
      exact hroom

/-- The state the pair is observed in: the token is interned and counted. -/
def ObserveWalk.seen (w : ObserveWalk) (h : Graph) : ObserveWalk :=
  {w with graph := {h with tokenObservations := h.tokenObservations+1},sawToken := true}

theorem ofNat_succ (n : ℕ) : UInt64.ofNat (n+1) = UInt64.ofNat n+1 := by
  rw [UInt64.ofNat_add]
  rfl

theorem Learned.step (h : Learned g ts w) (hash : UInt64) (t : Token) :
    ((observeEmit hash w t).2 = true ∧ Learned g (ts++[t]) (observeEmit hash w t).1) ∨
    ((observeEmit hash w t).2 = false ∧ Halted g ts t (observeEmit hash w t).1) := by
  have hne : ts++[t] ≠ [] := by simp
  rcases h.intern t with ⟨h1,j,hi,hin⟩ | ⟨hi,hmax,hlt⟩ | ⟨hi,hroom,hfits⟩
  · have hobs : h1.tokenObservations+1 =
        g.tokenObservations+UInt64.ofNat (ts++[t]).length := by
      rw [hin.observed,h.observed,List.length_append,List.length_singleton,ofNat_succ,add_assoc]
    have hgrows := hin.grows.recount (h1.tokenObservations+1)
    rcases List.eq_nil_or_concat ts with rfl | ⟨init,a,rfl⟩
    · have hprev : w.previous = none := h.previous
      have hemit : observeEmit hash w t = ({w.seen h1 with previous := some j},true) := by
        simp only [observeEmit,hi,hprev,ObserveWalk.seen]
      rw [hemit]
      refine .inl ⟨rfl,hgrows,⟨⟨hin.fits,?_⟩,hin.indexed⟩,hin.found.symm,hobs,h.status,
        fun h0 => absurd h0 hne⟩
      exact h.absorbs.fits.2
    · rw [List.concat_eq_append] at *
      have ha : a ∈ w.graph.outline.tokens := (h.grows.known a).mpr (.inr (by simp))
      obtain ⟨i,hia⟩ := Outline.find_isSome ha
      have hprev : w.previous = some i := by
        rw [h.previous,List.getLast?_concat]
        exact hia
      have hadj := Outline.adjacent_concat init a t
      have hia1 := hin.stable a i hia
      have hconfig : g.outline.config = h1.config := hin.grows.config.symm
      have hedges : h1.outline.links.length = h1.edges.length := by simp [Graph.outline]
      have hlast : ∀ o : Outline, o.find t = some j →
          some j = (init++[a]++[t]).getLast?.bind o.find := fun o ho => by
        rw [List.getLast?_concat]
        exact ho.symm
      have hnewEdge : ¬(w.seen h1).graph.outline.linked a t = true →
          g.outline.links.length+(g.outline.newPairs (Outline.adjacent (init++[a]++[t]))).card =
            h1.edges.length+1 := fun hl => by
        have hjoin := (hgrows.joinNew hia1 hin.found hl).edges
        rw [hadj,← hjoin,← hedges]
        exact List.length_append
      rcases observePair_cases (w.seen h1).graph hia1 hin.found hash with
        ⟨hl,h2,hp,ho⟩ | ⟨hl,hfull,hp⟩ | ⟨hl,hfull,h2,hp,ho⟩
      · have hemit : observeEmit hash w t =
            ({w.seen h1 with graph := h2,previous := some j},true) := by
          simp only [ObserveWalk.seen] at hp
          simp only [observeEmit,hi,hprev,ObserveWalk.seen,hp]
        have hjoin := hgrows.joinKnown hl
        have hsame : (g.outline.newPairs (Outline.adjacent (init++[a]++[t]))).card =
            (g.outline.newPairs (Outline.adjacent (init++[a]))).card := by
          rw [hadj]
          exact Nat.add_left_cancel (hjoin.edges.symm.trans hgrows.edges)
        rw [hemit]
        refine .inl ⟨rfl,?_,⟨⟨hin.fits,?_⟩,hin.indexed⟩,?_,
          (congrArg Outline.tokenObservations ho).trans hobs,h.status,fun h0 => absurd h0 hne⟩
        · rw [hadj,ho]
          exact hjoin
        · rw [hsame]
          exact h.absorbs.fits.2
        · rw [ho]
          exact hlast _ hin.found
      · have hemit : observeEmit hash w t =
            ({w.seen h1 with graph := (w.seen h1).graph.reject,status := .capacity},false) := by
          simp only [ObserveWalk.seen] at hp
          simp only [observeEmit,hi,hprev,ObserveWalk.seen,hp]
        rw [hemit]
        refine .inr ⟨rfl,.refused 1 rfl (.inr ⟨hin.indexed,?_,?_⟩) (by simp) le_rfl ?_⟩
        · rw [hconfig]
          exact hfull.1
        · rw [hnewEdge hl,hconfig]
          exact Nat.lt_succ_of_le hfull.2
        · rw [List.length_append,List.length_singleton] at hobs
          exact hobs
      · have hemit : observeEmit hash w t =
            ({w.seen h1 with graph := h2,previous := some j},true) := by
          simp only [ObserveWalk.seen] at hp
          simp only [observeEmit,hi,hprev,ObserveWalk.seen,hp]
        have hjoin := hgrows.joinNew hia1 hin.found hl
        rw [hemit]
        refine .inl ⟨rfl,?_,⟨⟨hin.fits,?_⟩,hin.indexed⟩,?_,
          (congrArg Outline.tokenObservations ho).trans hobs,h.status,fun h0 => absurd h0 hne⟩
        · rw [hadj,ho]
          exact hjoin
        · rw [hnewEdge hl,hconfig]
          by_cases h0 : h1.config.edgeCapacityMax = 0
          · exact .inl h0
          · exact .inr (Nat.not_le.mp fun hle => hfull ⟨h0,hle⟩)
        · rw [ho]
          exact hlast _ hin.found
  · have hemit : observeEmit hash w t =
        ({w with graph := w.graph.reject,status := .capacity},false) := by
      simp only [observeEmit,hi]
    rw [hemit]
    refine .inr ⟨rfl,.refused 0 rfl (.inl ⟨hmax,hlt⟩) (fun h0 => ?_) (Nat.zero_le 1) h.observed⟩
    rw [h.untouched h0]
  · have hemit : observeEmit hash w t = ({w with status := .outOfMemory},false) := by
      simp only [observeEmit,hi]
    rw [hemit]
    refine .inr ⟨rfl,.full rfl ?_ hroom⟩
    rintro (⟨hmax,hlt⟩ | ⟨hidx,-⟩)
    · rcases hfits with h0 | h0
      · exact hmax h0
      · exact absurd hlt (Nat.not_lt.mpr h0)
    · exact hroom hidx

/-- A walk learns from everything, or halts somewhere. -/
theorem Learned.walk {pre : List Token} (h : Learned g pre w) (hash : UInt64) (rest : List Token) :
    Learned g (pre++rest) (emitAll (observeEmit hash) w rest) ∨
    ∃ mid t post, rest = mid++t::post ∧ g.outline.Absorbs (pre++mid) ∧
      Halted g (pre++mid) t (emitAll (observeEmit hash) w rest) := by
  induction rest generalizing pre w with
  | nil =>
      rw [List.append_nil]
      exact .inl h
  | cons t rest ih =>
      rcases h.step hash t with ⟨hgo,hnext⟩ | ⟨hstop,hhalt⟩
      · have hemit : emitAll (observeEmit hash) w (t::rest) =
            emitAll (observeEmit hash) (observeEmit hash w t).1 rest := if_pos hgo
        rw [hemit]
        have happ : pre++[t]++rest = pre++t::rest := by simp
        rcases ih hnext with hall | ⟨mid,t',post,hsplit,habs,hhalt⟩
        · exact .inl (happ ▸ hall)
        · have happ' : pre++[t]++mid = pre++t::mid := by simp
          rw [happ'] at habs hhalt
          exact .inr ⟨t::mid,t',post,by rw [hsplit]; rfl,habs,hhalt⟩
      · have hemit : emitAll (observeEmit hash) w (t::rest) = (observeEmit hash w t).1 :=
          if_neg (by simp [hstop])
        rw [hemit]
        exact .inr ⟨[],t,rest,rfl,by rw [List.append_nil]; exact h.absorbs,
          by rw [List.append_nil]; exact hhalt⟩

end Walk

/-! ## No partial learning -/

theorem fits_iff (g : Graph) (m n : ℕ) : g.fits m n ↔ g.outline.fits m n := by
  unfold Graph.fits Outline.fits
  rw [show g.outline.tokens.length = g.nodes.length from g.tokens_length,
    show g.outline.links.length = g.edges.length from g.links_length]
  rfl

theorem memory_base (hash : UInt64) (w : MemoryWalk) (ts : List Token) :
    (emitAll (memoryEmit hash) w ts).base = emitAll (observeEmit hash) w.base ts := by
  induction ts generalizing w with
  | nil => rfl
  | cons t ts ih =>
      unfold emitAll
      rcases hc : observeEmit hash w.base t with ⟨base,go⟩
      cases go with
      | true =>
          have hm : memoryEmit hash w t = (⟨base,bumpCount (base.previous.getD 0) w.counts⟩,true) := by
            simp only [memoryEmit,hc]
          rw [hm,if_pos rfl,if_pos rfl]
          exact ih _
      | false =>
          have hm : memoryEmit hash w t = ({w with base := base},false) := by
            simp only [memoryEmit,hc]
          rw [hm]
          rfl

theorem outline_makeRoom (env : IndexEnv) (g : Graph) :
    (g.makeRoom env).1.outline = g.outline := by
  unfold Graph.makeRoom
  split <;> rfl

theorem appendEpisode_status (allocs : Allocs) (g : Graph) (e : Episode) :
    (g.appendEpisode allocs e).2 ≠ .capacity := by
  unfold Graph.appendEpisode
  split <;> simp

theorem outline_appendEpisode (allocs : Allocs) (g : Graph) (e : Episode) :
    (g.appendEpisode allocs e).1.outline = g.outline := by
  unfold Graph.appendEpisode
  split <;> rfl

@[simp] theorem outline_rememberEpisode (env : IndexEnv) (g : Graph) (e : Episode) :
    (g.rememberEpisode env e).1.outline = g.outline :=
  (outline_appendEpisode _ _ e).trans (outline_makeRoom env g)

/-- The promise of an observation: refused at a ceiling it has learned nothing, accepted it
is within the ceilings. -/
def NoPartialLearning (before after : Graph) (status : Status) : Prop :=
  (status = .capacity → after = before.reject) ∧ (status = .ok → after.fits 0 0)

/-- Some token behind the first is refused when the text is walked under its own schema. -/
def Outgrown (U : Utf8proc) (g : Graph) (text : Text) (schema : UInt32) : Prop :=
  ∃ pre t post, tokenize U schema text = pre++t::post ∧ pre ≠ [] ∧ g.outline.Absorbs pre ∧
    g.outline.Refuses (pre++[t])

section Promise
variable {U : Utf8proc} {g : Graph} {text : Text}

theorem learned_start (hwf : g.outline.WellFormed) (hfits : g.fits 0 0) :
    Learned g [] (.start g) := by
  refine ⟨.refl hwf,⟨(fits_iff g _ _).mp ?_,?_⟩,rfl,?_,rfl,fun _ => rfl⟩
  · simpa [Outline.newTokens,Outline.newPairs,Outline.adjacent] using hfits
  · simpa [Outline.newTokens] using hwf.indexed
  · simp [ObserveWalk.start]

theorem fits_zero {m n : ℕ} (h : g.fits m n) : g.fits 0 0 :=
  ⟨h.1.imp_right fun h1 => (Nat.add_le_add_left (Nat.zero_le m) _).trans h1,
    h.2.imp_right fun h2 => (Nat.add_le_add_left (Nat.zero_le n) _).trans h2⟩

theorem Learned.within {ts : List Token} {w : ObserveWalk} (h : Learned g ts w) :
    w.graph.fits 0 0 := by
  have hf := h.absorbs.fits
  rw [Outline.fits,← h.grows.nodes,← h.grows.edges,← h.grows.config] at hf
  exact (fits_iff _ _ _).mpr hf

/-- Under the schema of the dry run, a text that it lets pass is refused nowhere. -/
theorem fitsBudget_absorbs (hwf : g.outline.WellFormed) (hfits : g.fitsBudget U text)
    {pre post : List Token} (hts : tokenize U schemaVersion text = pre++post) :
    ¬g.outline.Refuses pre := by
  have hcover := budgetWalk_covers hwf (tokenize U schemaVersion text)
  rw [Graph.fitsBudget,fits_iff,hts] at hfits
  rw [hts] at hcover
  exact Outline.fits_not_refuses hfits hcover.1 hcover.2

theorem observeText_promise (hwf : g.outline.WellFormed) (sourceId : CString) :
    NoPartialLearning g (observeText U g text sourceId).1 (observeText U g text sourceId).2 := by
  unfold observeText
  by_cases hfits : g.fitsBudget U text
  · have hstart := learned_start hwf (fits_zero hfits)
    rw [if_neg (not_not.mpr hfits)]
    rcases hstart.walk (hashSource sourceId.bytes) (tokenize U schemaVersion text) with
      hall | ⟨mid,t,post,hsplit,-,hhalt⟩
    · simp only [hall.status,ne_eq,not_true_eq_false,if_false]
      refine ⟨fun h => by simp at h,fun _ => ?_⟩
      have hw := hall.within
      rw [fits_iff] at hw ⊢
      rwa [Graph.outline_countObservation]
    · rw [List.nil_append] at hhalt
      cases hhalt with
      | refused k hst href =>
          have happ : mid++t::post = (mid++[t])++post := by simp
          exact absurd href (fitsBudget_absorbs hwf hfits (hsplit.trans happ))
      | full hst =>
          simp only [hst]
          refine ⟨fun h => by simp at h,fun h => by simp at h⟩
  · rw [if_pos hfits]
    exact ⟨fun _ => rfl,fun h => by simp at h⟩

/-- Where the walk halted is the only place a ceiling can refuse it. -/
theorem refused_once {ts mid post mid' post' : List Token} {t t' : Token} {w : ObserveWalk}
    (hs : ts = mid++t::post) (habs : g.outline.Absorbs mid) (hhalt : Halted g mid t w)
    (hs' : ts = mid'++t'::post') (habs' : g.outline.Absorbs mid')
    (href' : g.outline.Refuses (mid'++[t'])) : mid' = mid ∧ t' = t := by
  have hsplit : mid++(t::post) = mid'++(t'::post') := hs.symm.trans hs'
  rcases List.append_eq_append_iff.mp hsplit with ⟨more,rfl,htail⟩ | ⟨more,rfl,htail⟩
  · cases more with
    | nil =>
        obtain ⟨rfl,-⟩ := List.cons.inj htail
        exact ⟨by simp,rfl⟩
    | cons x more =>
        obtain ⟨rfl,-⟩ := List.cons.inj htail
        rw [show mid++t::more = mid++[t]++more by simp] at habs'
        cases hhalt with
        | refused k hst href => exact absurd href habs'.not_refuses
        | full hst href hroom => exact absurd habs'.shorter hroom
  · cases more with
    | nil =>
        obtain ⟨rfl,-⟩ := List.cons.inj htail
        exact ⟨by simp,rfl⟩
    | cons x more =>
        obtain ⟨rfl,-⟩ := List.cons.inj htail
        rw [show mid'++t'::more = mid'++[t']++more by simp] at habs
        exact absurd href' habs.not_refuses

theorem observeWithMemory_walk (hfits : g.fitsBudget U text) (env : IndexEnv) (p : Provenance) :
    let w := emitAll (observeEmit (hashSource p.sourceId.bytes)) (.start g)
      (tokenize U p.schemaVersion text)
    (w.status ≠ .ok → (observeWithMemory U env g text p).1 = w.graph ∧
      (observeWithMemory U env g text p).2.1 = w.status) ∧
    (w.status = .ok → (observeWithMemory U env g text p).1.outline = w.graph.outline ∧
      (observeWithMemory U env g text p).2.1 ≠ .capacity) := by
  intro w
  have hbase := memory_base (hashSource p.sourceId.bytes) ⟨.start g,[]⟩
    (tokenize U p.schemaVersion text)
  unfold observeWithMemory
  rw [if_neg (not_not.mpr hfits)]
  simp only [hbase]
  refine ⟨fun hne => by rw [if_pos hne]; exact ⟨rfl,rfl⟩,fun hok => ?_⟩
  rw [if_neg (not_not.mpr hok)]
  split
  · exact ⟨Graph.outline_countObservation _ _,by simp⟩
  · exact ⟨(outline_rememberEpisode env _ _).trans (Graph.outline_countObservation _ _),
      appendEpisode_status _ _ _⟩

theorem refused_behind_first (hwf : g.outline.WellFormed) (hfits : g.fitsBudget U text)
    {schema : UInt32} {mid post : List Token} {t : Token} {w : ObserveWalk}
    (hsplit : tokenize U schema text = mid++t::post) (hmid : mid ≠ [])
    (hhalt : Halted g mid t w) (hst : w.status = .capacity) : w.graph ≠ g.reject := by
  intro heq
  cases hhalt with
  | full hst' => rw [hst] at hst'; cases hst'
  | refused k _ href _ hk hobs =>
      have hlegacy : schema ≤ 1 := by
        by_contra hnew
        have hsame : tokenize U schemaVersion text = (mid++[t])++post := by
          rw [show (mid++[t])++post = mid++t::post by simp,← hsplit,tokenize,tokenize,
            if_neg hnew,if_neg (by decide)]
        exact fitsBudget_absorbs hwf hfits hsame href
      have hcount : (mid++t::post).length ≤ text.bytes.length := by
        rw [← hsplit,tokenize,if_pos hlegacy]
        exact (legacyScan_length [] text.bytes).trans (by simp)
      have hsize := text.fits
      have hpos := List.length_pos_of_ne_nil hmid
      rw [List.length_append,List.length_cons] at hcount
      have hzero : UInt64.ofNat (mid.length+k) = 0 := by
        have hg : w.graph.tokenObservations = g.tokenObservations := by
          rw [heq]
          rfl
        rw [hg] at hobs
        simpa using hobs
      have hnat := congrArg UInt64.toNat hzero
      rw [UInt64.toNat_ofNat_of_lt' (by simp only [UInt64.size]; omega)] at hnat
      simp only [UInt64.toNat_zero] at hnat
      omega

end Promise

/-- Plain observation keeps the promise on every text. Observation with memory keeps it
unless the dry run lets the text pass and a ceiling then refuses a token behind the first. -/
theorem no_partial_learning (U : Utf8proc) (env : IndexEnv) {g : Graph}
    (hwf : g.outline.WellFormed) (text : Text) (sourceId : CString) (p : Provenance) :
    NoPartialLearning g (observeText U g text sourceId).1 (observeText U g text sourceId).2 ∧
    (NoPartialLearning g (observeWithMemory U env g text p).1 (observeWithMemory U env g text p).2.1 ↔
      ¬(g.fitsBudget U text ∧ Outgrown U g text p.schemaVersion)) := by
  refine ⟨observeText_promise hwf sourceId,?_⟩
  by_cases hfits : g.fitsBudget U text
  · obtain ⟨hbad,hgood⟩ := observeWithMemory_walk hfits env p
    have hstart := learned_start hwf (fits_zero hfits)
    rcases hstart.walk (hashSource p.sourceId.bytes) (tokenize U p.schemaVersion text) with
      hall | ⟨mid,t,post,hsplit,habs,hhalt⟩
    · obtain ⟨ho,hst⟩ := hgood hall.status
      refine iff_of_true ⟨fun h => absurd h hst,fun _ => ?_⟩ ?_
      · have hw := hall.within
        rw [fits_iff] at hw ⊢
        rwa [ho]
      · rintro ⟨-,pre,t,post,hsplit,-,-,href⟩
        have habs := hall.absorbs
        rw [List.nil_append,hsplit,show pre++t::post = pre++[t]++post by simp] at habs
        exact habs.not_refuses href
    · rw [List.nil_append] at habs hhalt
      by_cases hmid : mid = []
      · subst hmid
        refine iff_of_true ?_ ?_
        · cases hhalt with
          | refused k hst href hempty =>
              obtain ⟨hg,hs⟩ := hbad (by rw [hst]; simp)
              rw [hg,hs,hst]
              exact ⟨fun _ => hempty rfl,fun h => by simp at h⟩
          | full hst =>
              obtain ⟨hg,hs⟩ := hbad (by rw [hst]; simp)
              rw [hg,hs,hst]
              exact ⟨fun h => by simp at h,fun h => by simp at h⟩
        · rintro ⟨-,pre,t',post',hs',hpre,habs',href'⟩
          exact hpre (refused_once hsplit habs hhalt hs' habs' href').1
      · have hkeep := refused_behind_first hwf hfits hsplit hmid hhalt
        cases hhalt with
        | refused k hst href =>
            obtain ⟨hg,hs⟩ := hbad (by rw [hst]; simp)
            rw [hg,hs,hst]
            refine iff_of_false (fun h => hkeep hst (h.1 rfl)) (not_not.mpr ⟨hfits,?_⟩)
            exact ⟨mid,t,post,hsplit,hmid,habs,href⟩
        | full hst href hroom =>
            obtain ⟨hg,hs⟩ := hbad (by rw [hst]; simp)
            rw [hg,hs,hst]
            refine iff_of_true ⟨fun h => by simp at h,fun h => by simp at h⟩ ?_
            rintro ⟨-,pre,t',post',hs',-,habs',href'⟩
            obtain ⟨rfl,rfl⟩ := refused_once hsplit habs (.full hst href hroom) hs' habs' href'
            exact href href'
  · refine iff_of_true ?_ fun h => hfits h.1
    rw [observeWithMemory,if_pos hfits]
    exact ⟨fun _ => rfl,fun h => by simp at h⟩

/-! ## The gap between the scanners -/

/-- The letter a and an emoji, which only the byte scanner makes a token. -/
def emojiText : Text := ⟨[97,32,0xF0,0x9F,0x98,0x80],by decide,by decide⟩

def letterText : Text := ⟨[97],by decide,by decide⟩

def sampleSource : CString := ⟨[115],by decide⟩

/-- An entry recorded under a schema. -/
def sampleProvenance (schema : UInt32) : Provenance := ⟨sampleSource,.empty,5,9,schema,2⟩

/-- A graph that knows the letter, under a ceiling of one node. -/
def fullSample : Option Graph := (createGraph .default).map fun g =>
  (observeText .plain g letterText sampleSource).1.setCapacity 1 0

theorem fullSample_wellFormed {g : Graph} (h : fullSample = some g) : g.outline.WellFormed := by
  have hfacts : fullSample.map (fun g => (g.outline.tokens.length,g.outline.links)) =
      some (1,[]) := by decide +kernel
  rw [h,Option.map_some,Option.some.injEq,Prod.mk.injEq] at hfacts
  exact ⟨by simp [hfacts.2],by rw [hfacts.1]; decide⟩

theorem no_partial_learning_sample : ∃ g, fullSample = some g ∧
    NoPartialLearning g (observeText .plain g emojiText sampleSource).1
      (observeText .plain g emojiText sampleSource).2 := by
  obtain ⟨g,hg⟩ : ∃ g, fullSample = some g :=
    Option.isSome_iff_exists.mp (by decide +kernel)
  exact ⟨g,hg,(no_partial_learning .plain .calm (fullSample_wellFormed hg) emojiText sampleSource
    (sampleProvenance 2)).1⟩

/-- Replaying the emoji text under schema 1 learns the letter again and is then refused. -/
theorem partial_learning_past_dry_run : ∃ g, fullSample = some g ∧
    (observeWithMemory .plain .calm g emojiText (sampleProvenance 1)).2.1 = .capacity ∧
    ¬NoPartialLearning g (observeWithMemory .plain .calm g emojiText (sampleProvenance 1)).1
      (observeWithMemory .plain .calm g emojiText (sampleProvenance 1)).2.1 := by
  have hfacts : (fullSample.map fun g =>
      let r := observeWithMemory .plain .calm g emojiText (sampleProvenance 1)
      (r.2.1,g.tokenObservations,r.1.tokenObservations)) = some (.capacity,1,2) := by
    decide +kernel
  obtain ⟨g,hg,he⟩ := Option.map_eq_some_iff.mp hfacts
  simp only [Prod.mk.injEq] at he
  refine ⟨g,hg,he.1,fun h => ?_⟩
  have hsame := congrArg Graph.tokenObservations (h.1 he.1)
  rw [he.2.2] at hsame
  have hone : (2 : UInt64) = 1 := hsame.trans he.2.1
  exact absurd hone (by decide)

end Atperson.Core
