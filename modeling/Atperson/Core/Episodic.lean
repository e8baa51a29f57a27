import Atperson.Core.Ceilings
import Atperson.Core.Growth
import Atperson.Core.Recall
import Atperson.Core.Vocabulary
import Atperson.Floats.Counts
import Mathlib.Data.Prod.Lex

/-!
# Episodic memory

What an observation counts and which episode it leaves, which one goes when there is no room, and
what that comes to over a run of observations and recalls. The sorts are any that keep to their
comparators.
-/
namespace Atperson.Core
open Wire
open Ledger (Status)

/-! ## Tallies -/

/-- The counts of a sequence of nodes. -/
def tally (nodes : List ℕ) : List TokenCount := nodes.foldl (fun counts n => bumpCount n counts) []

theorem tally_concat (nodes : List ℕ) (n : ℕ) : tally (nodes++[n]) = bumpCount n (tally nodes) := by
  rw [tally,List.foldl_append]
  rfl

theorem mem_bumpCount {n : ℕ} {counts : List TokenCount}
    (hdistinct : (counts.map TokenCount.nodeIndex).Nodup) {c : TokenCount} :
    c ∈ bumpCount n counts ↔ (c ∈ counts ∧ c.nodeIndex ≠ n) ∨
      (∃ old ∈ counts, old.nodeIndex = n ∧ c = {old with count := old.count+1}) ∨
      (n ∉ counts.map TokenCount.nodeIndex ∧ c = ⟨n,1⟩) := by
  induction counts with
  | nil => simp [bumpCount]
  | cons d rest ih =>
      rw [List.map_cons,List.nodup_cons] at hdistinct
      unfold bumpCount
      by_cases hd : d.nodeIndex = n
      · subst hd
        have habsent : ∀ e ∈ rest, e.nodeIndex ≠ d.nodeIndex := fun e he heq =>
          hdistinct.1 (heq ▸ List.mem_map_of_mem he)
        rw [if_pos rfl]
        simp only [List.mem_cons,List.map_cons,true_or,not_true_eq_false,false_and,or_false]
        constructor
        · rintro (rfl | hc)
          · exact .inr ⟨d,.inl rfl,rfl,rfl⟩
          · exact .inl ⟨.inr hc,habsent c hc⟩
        · rintro (⟨rfl | hc,hne⟩ | ⟨old,rfl | hold,heq,rfl⟩)
          · exact (hne rfl).elim
          · exact .inr hc
          · exact .inl rfl
          · exact (habsent old hold heq).elim
      · rw [if_neg hd,List.mem_cons,ih hdistinct.2]
        simp only [List.mem_cons,List.map_cons,not_or]
        constructor
        · rintro (rfl | ⟨hc,hne⟩ | ⟨old,hold,heq,rfl⟩ | ⟨hnew,rfl⟩)
          · exact .inl ⟨.inl rfl,hd⟩
          · exact .inl ⟨.inr hc,hne⟩
          · exact .inr (.inl ⟨old,.inr hold,heq,rfl⟩)
          · exact .inr (.inr ⟨⟨Ne.symm hd,hnew⟩,rfl⟩)
        · rintro (⟨rfl | hc,hne⟩ | ⟨old,rfl | hold,heq,rfl⟩ | ⟨⟨-,hnew⟩,rfl⟩)
          · exact .inl rfl
          · exact .inr (.inl ⟨hc,hne⟩)
          · exact (hd heq).elim
          · exact .inr (.inr (.inl ⟨old,hold,heq,rfl⟩))
          · exact .inr (.inr (.inr ⟨hnew,rfl⟩))

theorem bumpCount_nodes (n : ℕ) (counts : List TokenCount) :
    (bumpCount n counts).map TokenCount.nodeIndex =
      if n ∈ counts.map TokenCount.nodeIndex then counts.map TokenCount.nodeIndex
      else counts.map TokenCount.nodeIndex++[n] := by
  induction counts with
  | nil => rfl
  | cons d rest ih =>
      unfold bumpCount
      by_cases hd : d.nodeIndex = n
      · rw [if_pos hd]
        simp [hd]
      · rw [if_neg hd,List.map_cons,ih,List.map_cons]
        by_cases hn : n ∈ rest.map TokenCount.nodeIndex
        · rw [if_pos hn,if_pos (List.mem_cons_of_mem _ hn)]
        · rw [if_neg hn,if_neg (by rw [List.mem_cons,not_or]; exact ⟨Ne.symm hd,hn⟩),List.cons_append]

/-- Each node of the sequence stands in its tally once, with how often it came. -/
theorem tally_spec (nodes : List ℕ) : ((tally nodes).map TokenCount.nodeIndex).Nodup ∧
    ∀ c, c ∈ tally nodes ↔ c.nodeIndex ∈ nodes ∧ c.count = UInt32.ofNat (nodes.count c.nodeIndex) := by
  induction nodes using List.reverseRecOn with
  | nil => simp [tally]
  | append_singleton nodes n ih =>
      obtain ⟨hdistinct,hmem⟩ := ih
      have hnodes : ∀ i, i ∈ (tally nodes).map TokenCount.nodeIndex ↔ i ∈ nodes := fun i => by
        rw [List.mem_map]
        refine ⟨fun ⟨c,hc,hi⟩ => hi ▸ ((hmem c).mp hc).1,fun hi => ?_⟩
        exact ⟨⟨i,UInt32.ofNat (nodes.count i)⟩,(hmem _).mpr ⟨hi,rfl⟩,rfl⟩
      rw [tally_concat]
      refine ⟨?_,fun c => ?_⟩
      · rw [bumpCount_nodes]
        split
        · exact hdistinct
        · rename_i hnew
          exact List.nodup_append.mpr ⟨hdistinct,List.nodup_singleton n,fun a ha b hb heq =>
            hnew (by rw [List.mem_singleton.mp hb] at heq; exact heq ▸ ha)⟩
      · rw [mem_bumpCount hdistinct,List.mem_append,List.mem_singleton,List.count_append,
          List.count_singleton]
        by_cases hc : c.nodeIndex = n
        · subst hc
          simp only [ne_eq,not_true_eq_false,and_false,false_or,or_true,true_and,beq_self_eq_true,
            if_true,UInt32.ofNat_add]
          constructor
          · rintro (⟨old,hold,hnode,rfl⟩ | ⟨hnew,heq⟩)
            · rw [((hmem old).mp hold).2]
              rfl
            · rw [heq,List.count_eq_zero_of_not_mem (fun h => hnew ((hnodes _).mpr h))]
              rfl
          · intro hcount
            by_cases hold : c.nodeIndex ∈ nodes
            · refine .inl ⟨⟨c.nodeIndex,UInt32.ofNat (nodes.count c.nodeIndex)⟩,(hmem _).mpr ⟨hold,rfl⟩,
                rfl,?_⟩
              rcases c with ⟨node,count⟩
              exact congrArg _ hcount
            · refine .inr ⟨fun h => hold ((hnodes _).mp h),?_⟩
              rw [List.count_eq_zero_of_not_mem hold] at hcount
              rcases c with ⟨node,count⟩
              exact congrArg _ hcount
        · simp only [hc,ne_eq,not_false_eq_true,and_true,or_false]
          rw [hmem c]
          have hb : (n == c.nodeIndex) = false := beq_false_of_ne (Ne.symm hc)
          simp only [hb,Bool.false_eq_true,if_false,Nat.add_zero]
          refine ⟨fun h => h.elim id fun h => h.elim ?_ ?_,.inl⟩
          · rintro ⟨old,-,hnode,rfl⟩
            exact (hc hnode).elim
          · rintro ⟨-,rfl⟩
            exact (hc rfl).elim

/-! ## The walk -/

/-- The node of a token, where it has one. -/
def nodeOf (g : Graph) (t : Token) : ℕ := (g.findNode t).getD 0

theorem nodeOf_eq {g : Graph} {t : Token} {i : ℕ} (h : g.findNode t = some i) : nodeOf g t = i := by
  rw [nodeOf,h,Option.getD_some]

/-- A walk that went through these tokens: each is known, and the counts are those of their nodes. -/
structure Tallied (ts : List Token) (w : MemoryWalk) : Prop where
  known : ∀ t ∈ ts, ∃ i, w.base.graph.findNode t = some i
  counts : w.counts = tally (ts.map (nodeOf w.base.graph))

theorem internNode_known {g g' : Graph} {t : Token} {i : ℕ} (h : g.internNode t = (g',.ok i)) :
    g'.findNode t = some i := by
  have hfind : g'.findNode t = g'.outline.find t := g'.findNode_eq t
  rcases internNode_cases g t with ⟨h1,j,hi,ho,hf⟩ | ⟨-,-,hi⟩ | ⟨-,-,-,hi⟩ | ⟨hnew,-,-,h1,hi,ho⟩
  · cases hi.symm.trans h
    rw [hfind,ho,hf]
  · cases hi.symm.trans h
  · cases hi.symm.trans h
  · cases hi.symm.trans h
    rw [hfind,ho,Outline.find_addToken hnew,if_pos rfl]
    exact congrArg some g.tokens_length

theorem observeEmit_known {hash : UInt64} {w w' : ObserveWalk} {t : Token}
    (h : observeEmit hash w t = (w',true)) :
    ∃ i, w'.previous = some i ∧ w'.graph.findNode t = some i := by
  unfold observeEmit at h
  rcases hi : w.graph.internNode t with ⟨g,status | i⟩
  · rw [hi] at h
    cases h
  · have hknown := internNode_known hi
    rw [hi] at h
    cases hp : w.previous with
    | none =>
        simp only [hp] at h
        cases h
        exact ⟨i,rfl,hknown⟩
    | some previous =>
        simp only [hp] at h
        have htokens := Graph.tokens_observePair {g with tokenObservations := g.tokenObservations+1}
          previous i hash
        rcases hpair : Graph.observePair {g with tokenObservations := g.tokenObservations+1} previous i
          hash with ⟨g',status⟩
        rw [hpair] at h htokens
        cases status <;> cases h
        refine ⟨i,rfl,?_⟩
        rw [Graph.findNode_eq] at hknown ⊢
        show g'.tokens.findIdx? _ = _
        rw [htokens]
        exact hknown

theorem Tallied.emit {ts : List Token} {w w' : MemoryWalk} (h : Tallied ts w) {hash : UInt64} {t : Token}
    (he : memoryEmit hash w t = (w',true)) : Tallied (ts++[t]) w' := by
  have hgrown : w.base.graph.tokens <+: w'.base.graph.tokens := by
    have := tokens_memoryEmit hash w t
    rwa [he] at this
  have hsame : ∀ a ∈ ts, w'.base.graph.findNode a = w.base.graph.findNode a := fun a ha => by
    obtain ⟨i,hi⟩ := h.known a ha
    rw [hi,Graph.findNode_prefix hgrown hi]
  unfold memoryEmit at he
  rcases hb : observeEmit hash w.base t with ⟨base,_ | _⟩
  · rw [hb] at he
    cases he
  · rw [hb] at he
    cases he
    obtain ⟨i,hprev,hfind⟩ := observeEmit_known hb
    refine ⟨fun a ha => ?_,?_⟩
    · rcases List.mem_append.mp ha with ha | ha
      · obtain ⟨j,hj⟩ := h.known a ha
        exact ⟨j,(hsame a ha).trans hj⟩
      · rw [List.mem_singleton.mp ha]
        exact ⟨i,hfind⟩
    · rw [List.map_append,List.map_singleton,tally_concat,nodeOf_eq hfind,hprev,h.counts]
      refine congrArg _ (congrArg tally (List.map_congr_left fun a ha => ?_))
      exact congrArg (Option.getD · 0) (hsame a ha).symm

/-- A walk that ends well has counted all of its tokens. -/
theorem Tallied.walk {pre rest : List Token} {w : MemoryWalk} (h : Tallied pre w) {hash : UInt64}
    (hok : (emitAll (memoryEmit hash) w rest).base.status = .ok) :
    Tallied (pre++rest) (emitAll (memoryEmit hash) w rest) := by
  induction rest generalizing pre w with
  | nil => rwa [List.append_nil]
  | cons t rest ih =>
      unfold emitAll at hok ⊢
      rcases he : memoryEmit hash w t with ⟨w',_ | _⟩
      · rw [he] at hok
        exact (memoryEmit_stopped he hok).elim
      · rw [he] at hok
        have hrest := ih (h.emit he) hok
        rwa [List.append_assoc,List.singleton_append] at hrest

/-- There are as many counts as different tokens. -/
theorem Tallied.distinct {ts : List Token} {w : MemoryWalk} (h : Tallied ts w) :
    w.counts.length = ts.toFinset.card := by
  obtain ⟨hdistinct,hmem⟩ := tally_spec (ts.map (nodeOf w.base.graph))
  rw [← h.counts] at hdistinct hmem
  have hnodes : (w.counts.map TokenCount.nodeIndex).toFinset =
      ts.toFinset.image (nodeOf w.base.graph) := by
    ext i
    rw [List.mem_toFinset,Finset.mem_image,List.mem_map]
    constructor
    · rintro ⟨c,hc,rfl⟩
      obtain ⟨t,ht,hi⟩ := List.mem_map.mp ((hmem c).mp hc).1
      exact ⟨t,List.mem_toFinset.mpr ht,hi⟩
    · rintro ⟨t,ht,rfl⟩
      have hin := List.mem_map_of_mem (f := nodeOf w.base.graph) (List.mem_toFinset.mp ht)
      exact ⟨⟨nodeOf w.base.graph t,UInt32.ofNat ((ts.map (nodeOf w.base.graph)).count
        (nodeOf w.base.graph t))⟩,(hmem _).mpr ⟨hin,rfl⟩,rfl⟩
  rw [← List.length_map (f := TokenCount.nodeIndex),← List.toFinset_card_of_nodup hdistinct,hnodes]
  refine Finset.card_image_of_injOn fun a ha b hb heq => ?_
  obtain ⟨i,hi⟩ := h.known a (List.mem_toFinset.mp ha)
  obtain ⟨j,hj⟩ := h.known b (List.mem_toFinset.mp hb)
  simp only [nodeOf_eq hi,nodeOf_eq hj] at heq
  subst heq
  rw [Graph.findNode_eq] at hi hj
  exact Outline.find_inj (o := w.base.graph.outline) hi hj

/-- The count of a token's node is that of the token. -/
theorem Tallied.mem_counts {ts : List Token} {w : MemoryWalk} (h : Tallied ts w) {c : TokenCount} :
    c ∈ w.counts ↔ ∃ t ∈ ts, w.base.graph.findNode t = some c.nodeIndex ∧
      c.count = UInt32.ofNat (ts.count t) := by
  have hcount : ∀ t ∈ ts, ∀ i, w.base.graph.findNode t = some i →
      (ts.map (nodeOf w.base.graph)).count i = ts.count t := by
    intro t ht i hi
    rw [List.count,List.countP_map,List.count]
    refine List.countP_congr fun a ha => ?_
    obtain ⟨j,hj⟩ := h.known a ha
    simp only [Function.comp_apply,nodeOf_eq hj,beq_iff_eq]
    constructor
    · rintro rfl
      rw [Graph.findNode_eq] at hi hj
      exact Outline.find_inj (o := w.base.graph.outline) hj hi
    · rintro rfl
      exact Option.some.inj (hj.symm.trans hi)
  rw [h.counts,(tally_spec _).2 c]
  constructor
  · rintro ⟨hmem,hc⟩
    obtain ⟨t,ht,hi⟩ := List.mem_map.mp hmem
    obtain ⟨i,hknown⟩ := h.known t ht
    rw [nodeOf_eq hknown] at hi
    subst hi
    exact ⟨t,ht,hknown,by rw [hc,hcount t ht _ hknown]⟩
  · rintro ⟨t,ht,hi,hc⟩
    refine ⟨List.mem_map.mpr ⟨t,ht,nodeOf_eq hi⟩,?_⟩
    rw [hc,hcount t ht _ hi]

/-! ## Sorting -/

/-- What `qsort` promises: the same items, in an order its comparator allows. -/
structure Sorts {α : Type} (before : α → α → Bool) (sort : List α → List α) : Prop where
  perm : ∀ l, (sort l).Perm l
  ordered : ∀ l, (sort l).Pairwise fun a b => before a b = true

theorem sorts_mergeSort {α : Type} {before : α → α → Bool}
    (trans : ∀ a b c, before a b = true → before b c = true → before a c = true)
    (total : ∀ a b, (before a b || before b a) = true) :
    Sorts before fun l => l.mergeSort before :=
  ⟨fun l => List.mergeSort_perm l before,fun l => List.pairwise_mergeSort trans total l⟩

theorem countBefore_iff {a b : TokenCount} : countBefore a b = true ↔
    b.count.toNat < a.count.toNat ∨ a.count.toNat = b.count.toNat ∧ a.nodeIndex ≤ b.nodeIndex := by
  rw [countBefore,Bool.or_eq_true,Bool.and_eq_true,decide_eq_true_eq,decide_eq_true_eq,
    decide_eq_true_eq,UInt32.lt_iff_toNat_lt,← UInt32.toNat_inj]

theorem sorts_counts : Sorts countBefore fun l => l.mergeSort countBefore := by
  refine sorts_mergeSort (fun a b c hab hbc => ?_) fun a b => ?_
  · rw [countBefore_iff] at hab hbc ⊢
    omega
  · rw [Bool.or_eq_true,countBefore_iff,countBefore_iff]
    omega

theorem countBefore_antisymm {a b : TokenCount} (hab : countBefore a b = true)
    (hba : countBefore b a = true) : a = b := by
  rw [countBefore_iff] at hab hba
  have hcount : a.count = b.count := UInt32.toNat_inj.mp (by omega)
  have hnode : a.nodeIndex = b.nodeIndex := by omega
  rcases a with ⟨node,count⟩
  rcases b with ⟨node',count'⟩
  exact congrArg₂ _ hnode hcount

/-- The counts have one order: every sort gives it. -/
theorem Sorts.counts_eq {sort : List TokenCount → List TokenCount} (h : Sorts countBefore sort)
    (l : List TokenCount) : sort l = l.mergeSort countBefore :=
  ((h.perm l).trans (sorts_counts.perm l).symm).eq_of_pairwise
    (fun _ _ _ _ hab hba => countBefore_antisymm hab hba) (h.ordered l) (sorts_counts.ordered l)

/-- What an episode keeps of a text: where it comes from, and of its different tokens, the highest
count first and the lowest node first of equal ones, the first few with their counts as floats. -/
structure Records (g : Graph) (ts : List Token) (p : Provenance) (e : Episode) : Prop where
  source : e.sourceId = CText.truncate p.sourceId ∧ e.authorDid = CText.truncate p.authorDid ∧
    e.observedAt = p.observedAt ∧ e.contentDigest = p.contentDigest ∧
    e.schemaVersion = p.schemaVersion ∧ e.ledgerId = p.ledgerId
  unrecalled : e.recallCount = 0 ∧ e.lastRecallAt = 0
  summary : ∃ ranking : List TokenCount,
    (ranking.Pairwise fun a b => b.count.toNat < a.count.toNat ∨
      a.count.toNat = b.count.toNat ∧ a.nodeIndex < b.nodeIndex) ∧
    (∀ c, c ∈ ranking ↔ ∃ t ∈ ts, g.findNode t = some c.nodeIndex ∧ c.count = UInt32.ofNat (ts.count t)) ∧
    e.summary = (ranking.take episodeSummarySize).map fun c => ⟨c.nodeIndex,c.count.toFloat32⟩
  exact : ∀ item ∈ e.summary, ∀ t, g.findNode t = some item.nodeIndex → ts.count t ≤ 2^24 →
    Floats.numberOf item.weight = ts.count t

theorem Tallied.records {ts : List Token} {w : MemoryWalk} (h : Tallied ts w) {g : Graph}
    (hsame : g.tokens = w.base.graph.tokens) (p : Provenance) :
    Records g ts p (buildEpisode (w.counts.mergeSort countBefore) p) := by
  have hfind : ∀ t, g.findNode t = w.base.graph.findNode t := fun t => by
    rw [Graph.findNode_eq,Graph.findNode_eq,hsame]
  have hmem : ∀ c, c ∈ w.counts.mergeSort countBefore ↔ ∃ t ∈ ts, g.findNode t = some c.nodeIndex ∧
      c.count = UInt32.ofNat (ts.count t) := fun c => by
    rw [(sorts_counts.perm w.counts).mem_iff,h.mem_counts]
    simp only [hfind]
  refine ⟨⟨rfl,rfl,rfl,rfl,rfl,rfl⟩,⟨rfl,rfl⟩,⟨w.counts.mergeSort countBefore,?_,hmem,rfl⟩,?_⟩
  · have hnodes : ((w.counts.mergeSort countBefore).map TokenCount.nodeIndex).Nodup := by
      refine ((sorts_counts.perm w.counts).map TokenCount.nodeIndex).nodup_iff.mpr ?_
      rw [h.counts]
      exact (tally_spec _).1
    refine ((sorts_counts.ordered w.counts).and (List.pairwise_map.mp hnodes)).imp fun {a b} hab => ?_
    have hlt := countBefore_iff.mp hab.1
    have hne := hab.2
    omega
  · intro item hitem t ht hcount
    obtain ⟨c,hc,rfl⟩ := List.mem_map.mp hitem
    obtain ⟨t',-,ht',hc'⟩ := (hmem c).mp (List.mem_of_mem_take hc)
    rw [Graph.findNode_eq] at ht ht'
    obtain rfl : t = t' := Outline.find_inj (o := g.outline) ht ht'
    have hword : c.count.toNat = ts.count t := by
      rw [hc',UInt32.toNat_ofNat_of_lt' (Nat.lt_of_le_of_lt hcount (by decide))]
    have hweight := Floats.numberOf_ofNat (n := c.count) (hword ▸ hcount)
    rw [hword] at hweight
    exact hweight

/-! ## Eviction -/

/-- What eviction goes by: recalls, then age, then the id. -/
def evictionKey (e : Episode) : ℕ ×ₗ ℕ ×ₗ ℕ :=
  toLex (e.recallCount.toNat,toLex (e.observedAt.toNat,e.ledgerId.toNat))

theorem evictedBefore_iff {a b : Episode} :
    evictedBefore a b = true ↔ evictionKey a < evictionKey b := by
  rw [evictionKey,evictionKey,Prod.Lex.toLex_lt_toLex,Prod.Lex.toLex_lt_toLex]
  simp only [evictedBefore,Bool.or_eq_true,Bool.and_eq_true,decide_eq_true_eq,UInt64.lt_iff_toNat_lt,
    ← UInt64.toNat_inj]
  tauto

/-- The first of the episodes with the least key. -/
structure Victim (episodes : List Episode) (v : ℕ) (e : Episode) : Prop where
  place : episodes[v]? = some e
  least : ∀ x ∈ episodes, evictionKey e ≤ evictionKey x
  first : ∀ j < v, ∀ x, episodes[j]? = some x → evictionKey e < evictionKey x

theorem findVictim_spec {pre rest : List Episode} {best : Episode} {v : ℕ}
    (h : Victim pre v best) : ∃ e, Victim (pre++rest) (findVictim best v pre.length rest) e := by
  induction rest generalizing pre best v with
  | nil =>
      rw [List.append_nil]
      exact ⟨best,h⟩
  | cons x rest ih =>
      have hlen : (pre++[x]).length = pre.length+1 := by simp
      have hsplit : pre++x::rest = pre++[x]++rest := by simp
      have hv := (List.getElem?_eq_some_iff.mp h.place).1
      unfold findVictim
      rw [hsplit,← hlen]
      split
      · rename_i hless
        have hlt := evictedBefore_iff.mp hless
        refine ih ⟨by simp,fun y hy => ?_,fun j hj y hy => ?_⟩
        · rcases List.mem_append.mp hy with hy | hy
          · exact (hlt.trans_le (h.least y hy)).le
          · rw [List.mem_singleton.mp hy]
        · rw [List.getElem?_append_left hj] at hy
          exact hlt.trans_le (h.least y (List.mem_of_getElem? hy))
      · rename_i hless
        have hle := not_lt.mp (mt evictedBefore_iff.mpr hless)
        refine ih ⟨by rw [List.getElem?_append_left hv,h.place],fun y hy => ?_,fun j hj y hy => ?_⟩
        · rcases List.mem_append.mp hy with hy | hy
          · exact h.least y hy
          · rw [List.mem_singleton.mp hy]
            exact hle
        · rw [List.getElem?_append_left (by omega)] at hy
          exact h.first j hj y hy

/-- An eviction takes the first episode with the least key. -/
theorem evictionVictim_spec {episodes : List Episode} (h : episodes ≠ []) :
    ∃ e, Victim episodes (evictionVictim episodes) e := by
  cases episodes with
  | nil => exact absurd rfl h
  | cons x rest =>
      have hone : Victim [x] 0 x := ⟨rfl,fun y hy => (by rw [List.mem_singleton.mp hy]),
        fun j hj => (Nat.not_lt_zero j hj).elim⟩
      exact findVictim_spec hone

/-! ## Observations and recalls under any sort -/

/-- `atp_graph_observe_with_memory` over any `qsort` of the counts. -/
def observeSorting (sort : List TokenCount → List TokenCount) (U : Utf8proc) (env : IndexEnv)
    (g : Graph) (text : Text) (p : Provenance) : Graph×Status×Bool :=
  if ¬g.fitsBudget U text then (g.reject,.capacity,false)
  else
    let w := emitAll (memoryEmit (hashSource p.sourceId.bytes)) ⟨.start g,[]⟩
      (tokenize U p.schemaVersion text)
    if w.base.status ≠ .ok then (w.base.graph,w.base.status,false)
    else
      let learned := w.base.graph.countObservation w.base.sawToken
      if ¬isRemembered g.nodes.length w then (learned,.ok,false)
      else
        let (g,status) := learned.rememberEpisode env (buildEpisode (sort w.counts) p)
        (g,status,true)

/-- An observation does not depend on how its sort breaks ties. -/
theorem observeSorting_eq {sort : List TokenCount → List TokenCount} (h : Sorts countBefore sort)
    (U : Utf8proc) (env : IndexEnv) (g : Graph) (text : Text) (p : Provenance) :
    observeSorting sort U env g text p = observeWithMemory U env g text p := by
  unfold observeSorting observeWithMemory
  simp only [h.counts_eq]

/-- `atp_graph_recall` over any `qsort` of the matches, as far as it changes the graph. -/
def recallSorting (sort : List RecallMatch → List RecallMatch) (U : Utf8proc) (env : IndexEnv)
    (g : Graph) (query : Text) (atEpoch : UInt64) (policy : RecallConfig) (capacity : ℕ) : Graph :=
  if policy.disable ∨ capacity = 0 ∨ g.episodes = [] then g
  else
    let nodes := queryNodes U g query
    if nodes = [] then g
    else ((sort (g.recallMatches policy nodes (g.index.scanFlags env nodes))).take capacity).foldl
      (fun g m => g.countRecall atEpoch m.episodeIndex) g

theorem recallSorting_mergeSort (U : Utf8proc) (env : IndexEnv) (g : Graph) (query : Text)
    (atEpoch : UInt64) (policy : RecallConfig) (capacity : ℕ) :
    recallSorting (fun l => l.mergeSort recallBefore) U env g query atEpoch policy capacity =
      (g.recallEpisodes U env query atEpoch policy capacity).1 := by
  unfold recallSorting Graph.recallEpisodes
  by_cases hoff : policy.disable = true
  · simp [hoff]
  · by_cases hnone : capacity = 0 ∨ g.episodes = []
    · simp [hoff,hnone]
    · by_cases hnodes : queryNodes U g query = []
      · simp [hoff,hnone,hnodes]
      · simp [hoff,hnone,hnodes]

/-! ## What a memory holds -/

structure Memory where
  episodes : List Episode
  max : ℕ
  evictions : UInt64

def Graph.memory (g : Graph) : Memory := ⟨g.episodes,g.episodeMax,g.episodeEvictions⟩

theorem aside_memory : Aside Graph.memory := fun _ _ _ _ _ _ _ _ _ _ _ _ => rfl

/-- An episode comes behind the others: there is room, or the first with the least key goes. -/
inductive Admits (e : Episode) (m : Memory) : Memory → Prop
  | room : m.episodes.length < m.max → Admits e m {m with episodes := m.episodes++[e]}
  | evicting {v : ℕ} {victim : Episode} : m.max ≤ m.episodes.length →
      Victim m.episodes v victim → Admits e m {m with
        episodes := m.episodes.eraseIdx v++[e]
        evictions := m.evictions+1}

theorem Roomy.admits {g : Graph} (h : Roomy g) (env : IndexEnv) (e : Episode) :
    (g.rememberEpisode env e).2 = .ok ∧ Admits e g.memory (g.rememberEpisode env e).1.memory := by
  have hok := (h.remembers env e).1
  refine ⟨hok,?_⟩
  unfold Graph.rememberEpisode Graph.appendEpisode at hok ⊢
  by_cases hmax : g.episodeMax ≤ g.episodes.length
  · have hroom : (g.makeRoom env).1.memory =
        ⟨g.episodes.eraseIdx (evictionVictim g.episodes),g.episodeMax,g.episodeEvictions+1⟩ := by
      rw [Graph.makeRoom,if_pos hmax]
      rfl
    have hne : g.episodes ≠ [] := List.ne_nil_of_length_pos (Nat.lt_of_lt_of_le h.positive hmax)
    obtain ⟨victim,hvictim⟩ := evictionVictim_spec hne
    split
    · rename_i hfull
      rw [if_pos hfull] at hok
      cases hok
    · have hcase : Admits e g.memory _ := .evicting hmax hvictim
      refine Eq.mp (congrArg (Admits e g.memory) ?_) hcase
      exact (congrArg (fun m : Memory => {m with episodes := m.episodes++[e]}) hroom).symm
  · have hroom : (g.makeRoom env).1.memory = g.memory := by
      rw [Graph.makeRoom,if_neg hmax]
    split
    · rename_i hfull
      rw [if_pos hfull] at hok
      cases hok
    · have hcase : Admits e g.memory _ := .room (Nat.lt_of_not_le hmax)
      refine Eq.mp (congrArg (Admits e g.memory) ?_) hcase
      exact (congrArg (fun m : Memory => {m with episodes := m.episodes++[e]}) hroom).symm

/-- What one observation does to a memory. -/
structure Observes (g : Graph) (ts : List Token) (p : Provenance) (g' : Graph) (status : Status)
    (remembered : Bool) : Prop where
  refused : status ≠ .ok → remembered = false
  selected : status = .ok →
    (remembered = true ↔ g.nodes.length < g'.nodes.length ∨ 2 ≤ ts.toFinset.card)
  passed : remembered = false → g'.memory = g.memory
  admitted : remembered = true → ∃ e, Records g' ts p e ∧ Admits e g.memory g'.memory

theorem Roomy.observes {g : Graph} (h : Roomy g) (U : Utf8proc) (env : IndexEnv) (text : Text)
    (p : Provenance) : Observes g (tokenize U p.schemaVersion text) p
      (observeWithMemory U env g text p).1 (observeWithMemory U env g text p).2.1
      (observeWithMemory U env g text p).2.2 := by
  have hmemory := aside_memory.memoryWalk (hashSource p.sourceId.bytes) ⟨.start g,[]⟩
    (tokenize U p.schemaVersion text)
  have hstart : Tallied [] ⟨.start g,[]⟩ := ⟨by simp,rfl⟩
  have htallied := @Tallied.walk [] (tokenize U p.schemaVersion text) ⟨.start g,[]⟩ hstart
    (hashSource p.sourceId.bytes)
  unfold observeWithMemory
  generalize emitAll (memoryEmit (hashSource p.sourceId.bytes)) ⟨.start g,[]⟩
    (tokenize U p.schemaVersion text) = w at hmemory htallied
  have hmemory' : w.base.graph.memory = g.memory := hmemory
  split
  · exact ⟨fun _ => rfl,fun h => (by cases h),fun _ => rfl,fun h => (by cases h)⟩
  simp only
  split
  · rename_i hbad
    exact ⟨fun _ => rfl,fun h => (hbad h).elim,fun _ => hmemory',fun h => (by cases h)⟩
  · rename_i hok
    rw [not_not] at hok
    have htally := htallied hok
    rw [List.nil_append] at htally
    have hlearned : (w.base.graph.countObservation w.base.sawToken).memory = g.memory := by
      refine Eq.trans ?_ hmemory'
      unfold Graph.countObservation
      split <;> rfl
    have htokens : (w.base.graph.countObservation w.base.sawToken).tokens = w.base.graph.tokens := by
      unfold Graph.countObservation
      split <;> rfl
    have hselect : isRemembered g.nodes.length w = true ↔ g.nodes.length < w.base.graph.nodes.length ∨
        2 ≤ (tokenize U p.schemaVersion text).toFinset.card := by
      rw [isRemembered,Bool.or_eq_true,decide_eq_true_eq,decide_eq_true_eq,htally.distinct]
    split
    · rename_i hnot
      have hnodes : (w.base.graph.countObservation w.base.sawToken).nodes.length =
          w.base.graph.nodes.length := by
        rw [← Graph.tokens_length,htokens,Graph.tokens_length]
      refine ⟨fun _ => rfl,fun _ => ?_,fun _ => hlearned,fun h => (by cases h)⟩
      rw [hnodes,← hselect]
      exact iff_of_false Bool.false_ne_true hnot
    · rename_i hkeep
      rw [not_not] at hkeep
      have hroomy : Roomy (w.base.graph.countObservation w.base.sawToken) :=
        h.of_same (congrArg Memory.episodes hlearned) (congrArg Memory.max hlearned)
      obtain ⟨hst,hadmits⟩ := hroomy.admits env (buildEpisode (w.counts.mergeSort countBefore) p)
      have hsame := (Graph.tokens_rememberEpisode env
        (w.base.graph.countObservation w.base.sawToken)
        (buildEpisode (w.counts.mergeSort countBefore) p)).trans htokens
      have hnodes : ((w.base.graph.countObservation w.base.sawToken).rememberEpisode env
          (buildEpisode (w.counts.mergeSort countBefore) p)).1.nodes.length =
          w.base.graph.nodes.length := by
        rw [← Graph.tokens_length,hsame,Graph.tokens_length]
      refine ⟨fun hbad => (hbad hst).elim,fun _ => ?_,fun h => (by cases h),fun _ => ?_⟩
      · show true = true ↔ g.nodes.length < ((w.base.graph.countObservation
          w.base.sawToken).rememberEpisode env _).1.nodes.length ∨ _
        rw [hnodes,← hselect]
        exact iff_of_true rfl hkeep
      · exact ⟨_,htally.records hsame p,hlearned ▸ hadmits⟩

/-! ## Runs -/

/-- An episode as it came, but for its recalls since. -/
def SameEpisode (e e' : Episode) : Prop :=
  {e' with recallCount := e.recallCount,lastRecallAt := e.lastRecallAt} = e

/-- The graphs that observations and recalls lead to, with the episodes that came on the way and how
many observations were remembered. A recall may count on any of its matches. -/
inductive Lives (U : Utf8proc) (g₀ : Graph) : Graph → List Episode → ℕ → Prop
  | created : Lives U g₀ g₀ [] 0
  | observed {g : Graph} {came : List Episode} {n : ℕ} {sort : List TokenCount → List TokenCount}
      {env : IndexEnv} {text : Text} {p : Provenance} {r : Graph×Status×Bool} : Lives U g₀ g came n →
      Sorts countBefore sort → observeSorting sort U env g text p = r →
      Lives U g₀ r.1 (if r.2.2 then came++r.1.episodes.getLast?.toList else came)
        (if r.2.2 then n+1 else n)
  | recalled {g : Graph} {came : List Episode} {n : ℕ} {sort : List RecallMatch → List RecallMatch}
      {env : IndexEnv} {query : Text} {atEpoch : UInt64} {policy : RecallConfig} {capacity : ℕ} :
      Lives U g₀ g came n →
      Lives U g₀ (recallSorting sort U env g query atEpoch policy capacity) came n

/-- What a run keeps: the bound, the order of arrival, and that each episode that came is there or
counted as evicted. -/
structure Keeps (g₀ g : Graph) (came : List Episode) : Prop where
  max : g.episodeMax = g₀.episodeMax
  roomy : Roomy g
  order : ∃ kept, kept.Sublist came ∧ List.Forall₂ SameEpisode kept g.episodes
  counted : ∃ evicted, g.episodes.length+evicted = came.length ∧
    g.episodeEvictions = g₀.episodeEvictions+UInt64.ofNat evicted

namespace Keeps
variable {g₀ g g' : Graph} {came : List Episode} {e : Episode}

theorem passed (h : Keeps g₀ g came) (hsame : g'.memory = g.memory) : Keeps g₀ g' came := by
  have hepisodes : g'.episodes = g.episodes := congrArg Memory.episodes hsame
  have hmax : g'.episodeMax = g.episodeMax := congrArg Memory.max hsame
  have hevictions : g'.episodeEvictions = g.episodeEvictions := congrArg Memory.evictions hsame
  refine ⟨hmax.trans h.max,h.roomy.of_same hepisodes hmax,?_,?_⟩
  · rw [hepisodes]
    exact h.order
  · rw [hepisodes,hevictions]
    exact h.counted

theorem forall₂_eraseIdx {α β : Type} {R : α → β → Prop} {l : List α} {m : List β}
    (h : List.Forall₂ R l m) (i : ℕ) : List.Forall₂ R (l.eraseIdx i) (m.eraseIdx i) := by
  induction h generalizing i with
  | nil => exact .nil
  | cons hab hrest ih =>
      cases i with
      | zero => exact hrest
      | succ i => exact .cons hab (ih i)

theorem admitted (h : Keeps g₀ g came) (ha : Admits e g.memory g'.memory) :
    Keeps g₀ g' (came++[e]) ∧ g'.episodes.getLast? = some e := by
  obtain ⟨kept,hkept,hsame⟩ := h.order
  obtain ⟨evicted,hcount,hevicted⟩ := h.counted
  have hself : List.Forall₂ SameEpisode [e] [e] := .cons rfl .nil
  generalize hm : g'.memory = m at ha
  cases ha with
  | room hroom =>
      have hepisodes : g'.episodes = g.episodes++[e] := congrArg Memory.episodes hm
      have hmax : g'.episodeMax = g.episodeMax := congrArg Memory.max hm
      have hevictions : g'.episodeEvictions = g.episodeEvictions := congrArg Memory.evictions hm
      refine ⟨⟨hmax.trans h.max,⟨hmax ▸ h.roomy.positive,?_⟩,⟨kept++[e],hkept.append_right [e],?_⟩,
        evicted,?_,hevictions.trans hevicted⟩,?_⟩
      · rw [hepisodes,hmax,List.length_append]
        exact hroom
      · rw [hepisodes]
        exact List.rel_append hsame hself
      · rw [hepisodes,List.length_append,List.length_append,← hcount]
        omega
      · rw [hepisodes,List.getLast?_concat]
  | @evicting v victim hfull hvictim =>
      have hepisodes : g'.episodes = g.episodes.eraseIdx v++[e] := congrArg Memory.episodes hm
      have hmax : g'.episodeMax = g.episodeMax := congrArg Memory.max hm
      have hevictions : g'.episodeEvictions = g.episodeEvictions+1 := congrArg Memory.evictions hm
      have hv : v < g.episodes.length := (List.getElem?_eq_some_iff.mp hvictim.place).1
      have hlen : (g.episodes.eraseIdx v).length+1 = g.episodes.length := by
        rw [List.length_eraseIdx_of_lt hv]
        omega
      refine ⟨⟨hmax.trans h.max,⟨hmax ▸ h.roomy.positive,?_⟩,
        ⟨kept.eraseIdx v++[e],((kept.eraseIdx_sublist v).trans hkept).append_right [e],?_⟩,
        evicted+1,?_,?_⟩,?_⟩
      · rw [hepisodes,hmax,List.length_append,List.length_singleton,hlen]
        exact h.roomy.within
      · rw [hepisodes]
        exact List.rel_append (forall₂_eraseIdx hsame v) hself
      · rw [hepisodes,List.length_append,List.length_append,List.length_singleton,hlen]
        omega
      · rw [hevictions,hevicted,UInt64.ofNat_add,UInt64.add_assoc]
        rfl
      · rw [hepisodes,List.getLast?_concat]

theorem counts (h : Keeps g₀ g came) (atEpoch : UInt64) (i : ℕ) :
    Keeps g₀ (g.countRecall atEpoch i) came := by
  obtain ⟨kept,hkept,hsame⟩ := h.order
  have hlen : (g.countRecall atEpoch i).episodes.length = g.episodes.length := List.length_modify _ _ _
  refine ⟨h.max,⟨h.roomy.positive,hlen ▸ h.roomy.within⟩,⟨kept,hkept,?_⟩,hlen ▸ h.counted⟩
  refine List.forall₂_iff_get.mpr ⟨hsame.length_eq.trans hlen.symm,fun j _ hj' => ?_⟩
  have hj : j < g.episodes.length := hlen ▸ hj'
  have hold := (List.forall₂_iff_get.mp hsame).2 j (hsame.length_eq ▸ hj) hj
  have hplace : (g.countRecall atEpoch i).episodes.get ⟨j,hj'⟩ =
      if i = j then {g.episodes[j] with
        recallCount := g.episodes[j].recallCount+1
        lastRecallAt := atEpoch} else g.episodes[j] := List.getElem_modify _ _ _ _ hj'
  rw [hplace]
  split
  · exact hold
  · exact hold

theorem countsAll (h : Keeps g₀ g came) (atEpoch : UInt64) (matched : List RecallMatch) :
    Keeps g₀ (matched.foldl (fun g m => g.countRecall atEpoch m.episodeIndex) g) came := by
  induction matched generalizing g with
  | nil => exact h
  | cons m rest ih => exact ih (h.counts atEpoch m.episodeIndex)

theorem recalls (h : Keeps g₀ g came) (sort : List RecallMatch → List RecallMatch) (U : Utf8proc)
    (env : IndexEnv) (query : Text) (atEpoch : UInt64) (policy : RecallConfig) (capacity : ℕ) :
    Keeps g₀ (recallSorting sort U env g query atEpoch policy capacity) came := by
  unfold recallSorting
  split
  · exact h
  · dsimp only
    split
    · exact h
    · exact h.countsAll atEpoch _

end Keeps

theorem Lives.keeps {U : Utf8proc} {g₀ g : Graph} {came : List Episode} {n : ℕ}
    (h : Lives U g₀ g came n) (hroomy : Roomy g₀) (hempty : g₀.episodes = []) :
    Keeps g₀ g came ∧ came.length = n := by
  induction h with
  | created =>
      refine ⟨⟨rfl,hroomy,⟨[],.slnil,?_⟩,0,?_,?_⟩,rfl⟩
      · rw [hempty]
        exact .nil
      · rw [hempty]
        rfl
      · exact (UInt64.add_zero _).symm
  | @observed g came n sort env text p r hrun hsort hr ih =>
      obtain ⟨ih,hlen⟩ := ih
      have hobserves := ih.roomy.observes U env text p
      rw [observeSorting_eq hsort] at hr
      rw [hr] at hobserves
      obtain ⟨g',status,remembered⟩ := r
      cases remembered with
      | false => exact ⟨ih.passed (hobserves.passed rfl),hlen⟩
      | true =>
          obtain ⟨e,-,hadmits⟩ := hobserves.admitted rfl
          obtain ⟨hkeeps,hlast⟩ := ih.admitted hadmits
          show Keeps g₀ g' (came++g'.episodes.getLast?.toList) ∧
            (came++g'.episodes.getLast?.toList).length = n+1
          rw [hlast,← hlen]
          exact ⟨hkeeps,List.length_append⟩
  | @recalled g came n sort env query atEpoch policy capacity hrun ih =>
      exact ⟨ih.1.recalls sort U env query atEpoch policy capacity,ih.2⟩

theorem created_blank {config : GraphConfig} {a : Architecture} {g : Graph}
    (h : createWithArchitecture config a = some g) : Roomy g ∧ g.episodes = [] ∧
      g.episodeMax = config.effective.episodeCapacity ∧ g.episodeEvictions = 0 := by
  rw [createWithArchitecture,Option.map_eq_some_iff] at h
  obtain ⟨r,-,rfl⟩ := h
  refine ⟨⟨?_,Nat.zero_le _⟩,rfl,rfl,rfl⟩
  show 0 < config.effective.episodeCapacity
  unfold GraphConfig.effective
  dsimp only
  split
  · decide
  · exact Nat.pos_of_ne_zero ‹_›

/-- What observations and recalls make of the memory of a fresh graph: the bound, the order, the
balance of remembered observations, and what each further observation does, whatever its sort. -/
theorem episodic_memory {U : Utf8proc} {config : GraphConfig} {a : Architecture} {g₀ g : Graph}
    {came : List Episode} {n : ℕ} (hcreated : createWithArchitecture config a = some g₀)
    (hrun : Lives U g₀ g came n) :
    g.episodeMax = config.effective.episodeCapacity ∧ g.episodes.length ≤ g.episodeMax ∧
    (∃ kept, kept.Sublist came ∧ List.Forall₂ SameEpisode kept g.episodes) ∧ came.length = n ∧
    (∃ evicted, g.episodes.length+evicted = n ∧ g.episodeEvictions = UInt64.ofNat evicted) ∧
    ∀ env text p sort, Sorts countBefore sort →
      observeSorting sort U env g text p = observeWithMemory U env g text p ∧
      Observes g (tokenize U p.schemaVersion text) p (observeWithMemory U env g text p).1
        (observeWithMemory U env g text p).2.1 (observeWithMemory U env g text p).2.2 := by
  obtain ⟨hroomy,hempty,hmax,hevictions⟩ := created_blank hcreated
  obtain ⟨hkeeps,hlen⟩ := hrun.keeps hroomy hempty
  obtain ⟨evicted,hcount,hevicted⟩ := hkeeps.counted
  refine ⟨hkeeps.max.trans hmax,hkeeps.roomy.within,hkeeps.order,hlen,⟨evicted,hlen ▸ hcount,?_⟩,?_⟩
  · rw [hevicted,hevictions,UInt64.zero_add]
  · exact fun env text p sort hsort =>
      ⟨observeSorting_eq hsort U env g text p,hkeeps.roomy.observes U env text p⟩

/-! ## Samples -/

namespace Sample

def twoWords : Text := ⟨[98,32,97],by decide,by decide⟩

/-- A graph of the default configuration remembers two words, with any sort of their counts. -/
theorem twoWords_remembered : ∃ g₀ g came, createWithArchitecture .default .legacy = some g₀ ∧
    Lives .plain g₀ g came 1 ∧ came.length = 1 := by
  obtain ⟨g₀,hcreated⟩ : ∃ g, createWithArchitecture .default .legacy = some g :=
    Option.isSome_iff_exists.mp (by decide +kernel)
  have hseen : (createWithArchitecture .default .legacy).map (fun g =>
      (observeWithMemory .plain .calm g twoWords (sampleProvenance 2)).2.2) = some true := by
    decide +kernel
  rw [hcreated,Option.map_some] at hseen
  have hone := Lives.observed (.created : Lives .plain g₀ g₀ [] 0) sorts_counts
    (Eq.refl (observeSorting _ .plain .calm g₀ twoWords (sampleProvenance 2)))
  rw [observeSorting_eq sorts_counts,Option.some.inj hseen] at hone
  exact ⟨g₀,_,_,hcreated,hone,(episodic_memory hcreated hone).2.2.2.1⟩

/-- Under a ceiling of one node two different words are refused and not remembered; and the two
counts next to the end of the exact ones have one weight. -/
theorem twoWords_refused : (∃ g₀, createWithArchitecture {GraphConfig.default with nodeCapacityMax := 1}
      .legacy = some g₀ ∧ 2 ≤ (tokenize .plain 2 twoWords).toFinset.card ∧
      (observeWithMemory .plain .calm g₀ twoWords (sampleProvenance 2)).2 = (.capacity,false)) ∧
    (16777217 : UInt32).toFloat32 = (16777216 : UInt32).toFloat32 := by
  obtain ⟨g₀,hcreated,hrefused⟩ := Option.map_eq_some_iff.mp (show
    (createWithArchitecture {GraphConfig.default with nodeCapacityMax := 1} .legacy).map (fun g =>
      (observeWithMemory .plain .calm g twoWords (sampleProvenance 2)).2) = some (.capacity,false) by
    decide +kernel)
  exact ⟨⟨g₀,hcreated,by decide +kernel,hrefused⟩,rfl⟩

end Sample

end Atperson.Core
