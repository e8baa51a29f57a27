import Atperson.Core.Capacity
import Atperson.Core.Expansion
import Atperson.Core.Lineage
import Atperson.Core.Settled
import Atperson.Runs.Guarded

/-!
# Plans go on from their own tokens

A plan reads its last token as a text to find the node it goes on from. Where the tokens of a
graph are settled, that node is the one of the token: the next step follows one edge of it, and
a plan without a next step has come to a node that nothing leaves.

Graphs are built by observing texts and by replaying ledgers. Whatever these come to, they add
the tokens that the scanners emit and edges between them, none twice.
-/
namespace Atperson.Core
open Wire Runs
open Ledger (Status LedgerEntry ConversationContext Item)

/-! ## The candidates of one node -/

namespace Graph

/-- An edge that goes from a node of the context into a node. -/
def into (g : Graph) (context : List ℕ) (j : ℕ) (e : Edge) : Bool :=
  g.leaves context e && e.target = j

section One
variable {g : Graph} {i j : ℕ} {c : ActionCandidate}

theorem aggregates_at (context : List ℕ) (edges : List Edge) (as : List Aggregate) (j : ℕ) :
    ((edges.foldl (fun as e => if g.leaves context e then as.modify e.target (g.aggregateEdge e)
      else as) as)[j]?).map Aggregate.contextMatches =
      as[j]?.map fun a => a.contextMatches+UInt32.ofNat (edges.countP (g.into context j)) := by
  induction edges generalizing as with
  | nil =>
      refine congrArg (as[j]?.map ·) (funext fun a => ?_)
      exact (UInt32.add_zero _).symm
  | cons e edges ih =>
      rw [List.foldl_cons,ih,List.countP_cons]
      by_cases hleaves : g.leaves context e = true
      · rw [if_pos hleaves,List.getElem?_modify,Option.map_eq_map,Option.map_map]
        refine congrArg (as[j]?.map ·) (funext fun a => ?_)
        by_cases htarget : e.target = j
        · have hinto : g.into context j e = true := by simp [into,hleaves,htarget]
          rw [if_pos hinto,UInt32.ofNat_add,Function.comp_apply,if_pos htarget]
          show a.contextMatches+1+_ = a.contextMatches+(_+1)
          rw [UInt32.add_assoc,UInt32.add_comm 1]
        · have hinto : ¬g.into context j e = true := by simp [into,htarget]
          rw [if_neg hinto,Nat.add_zero,Function.comp_apply,if_neg htarget]
      · have hinto : ¬g.into context j e = true := by simp [into,hleaves]
        rw [if_neg hinto,if_neg hleaves,Nat.add_zero]

theorem aggregates_matches {context : List ℕ} {a : Aggregate} (ha : (g.aggregates context)[j]? = some a) :
    a.contextMatches = UInt32.ofNat (g.edges.countP (g.into context j)) := by
  have hat := aggregates_at (g := g) context g.edges (List.replicate g.nodes.length Aggregate.zero) j
  have hlt : j < g.nodes.length := by
    rw [← aggregates_length g context]
    exact (List.getElem?_eq_some_iff.mp ha).1
  rw [aggregates] at ha
  rw [ha,List.getElem?_replicate_of_lt hlt,Option.map_some,Option.map_some] at hat
  rw [Option.some.inj hat]
  exact UInt32.zero_add _

/-- One node has at most one edge into another. -/
theorem into_le_one (hlinks : g.links.Nodup) : g.edges.countP (g.into [i] j) ≤ 1 := by
  have hcount := List.nodup_iff_count_le_one.mp hlinks (i,j)
  rw [links,List.count,List.countP_map] at hcount
  refine le_trans (List.countP_mono_left fun e _ he => ?_) hcount
  simp only [into,leaves,Bool.and_eq_true,decide_eq_true_eq,List.mem_singleton] at he
  simp [Edge.link,he.1.2,he.2]

theorem mem_candidatesFrom {context : List ℕ} (hne : context ≠ []) :
    c ∈ g.candidatesFrom context ↔ ∃ (j : ℕ) (n : Node) (a : Aggregate), g.nodes[j]? = some n ∧
      (g.aggregates context)[j]? = some a ∧ a.contextMatches ≠ 0 ∧ g.candidateAt n a = c := by
  rw [candidatesFrom,if_neg hne,List.mem_filterMap]
  constructor
  · rintro ⟨⟨n,a⟩,hmem,hc⟩
    obtain ⟨j,hj⟩ := List.mem_iff_getElem?.mp hmem
    obtain ⟨hn,ha⟩ := List.getElem?_zip_eq_some.mp hj
    dsimp only at hc
    split at hc
    · cases hc
    · next hmatches => exact ⟨j,n,a,hn,ha,hmatches,Option.some.inj hc⟩
  · rintro ⟨j,n,a,hn,ha,hmatches,hc⟩
    refine ⟨(n,a),List.mem_iff_getElem?.mpr ⟨j,List.getElem?_zip_eq_some.mpr ⟨hn,ha⟩⟩,?_⟩
    rw [if_neg hmatches,hc]

/-- A candidate of one node comes over one edge of it. -/
theorem candidate_single (hlinks : g.links.Nodup) (hc : c ∈ g.candidatesFrom [i]) :
    c.contextMatches = 1 ∧ ∃ e ∈ g.edges, e.source = i ∧ g.tokens[e.target]? = some c.token := by
  obtain ⟨j,n,a,hn,ha,hmatches,rfl⟩ := (mem_candidatesFrom (List.cons_ne_nil i [])).mp hc
  have hcount := aggregates_matches ha
  have hone := into_le_one (i := i) (j := j) hlinks
  have hpos : g.edges.countP (g.into [i] j) ≠ 0 := by
    intro hzero
    rw [hzero] at hcount
    exact hmatches hcount
  obtain ⟨e,he,hinto⟩ := List.countP_pos_iff.mp (Nat.pos_of_ne_zero hpos)
  simp only [into,leaves,Bool.and_eq_true,decide_eq_true_eq,List.mem_singleton] at hinto
  refine ⟨?_,e,he,hinto.1.2,?_⟩
  · rw [show g.edges.countP (g.into [i] j) = 1 by omega] at hcount
    exact hcount
  · rw [hinto.2,tokens,List.getElem?_map,hn]
    rfl

/-- A node without candidates is one that no edge leaves. -/
theorem no_candidates (hlinks : g.links.Nodup)
    (hinside : ∀ p ∈ g.links, p.1 < g.tokens.length ∧ p.2 < g.tokens.length)
    (hnil : g.candidatesFrom [i] = []) {e : Edge} (he : e ∈ g.edges) : e.source ≠ i := by
  rintro rfl
  obtain ⟨hsource,htarget⟩ := hinside e.link (List.mem_map_of_mem he)
  rw [tokens_length] at hsource htarget
  have hinto : g.into [e.source] e.target e = true := by
    simp only [into,leaves,Bool.and_eq_true,decide_eq_true_eq,List.mem_singleton]
    exact ⟨⟨⟨hsource,htarget⟩,trivial⟩,trivial⟩
  have hpos := List.countP_pos_iff.mpr ⟨e,he,hinto⟩
  have hone := into_le_one (i := e.source) (j := e.target) hlinks
  have hlt : e.target < (g.aggregates [e.source]).length := by
    rwa [aggregates_length]
  have hmatches := aggregates_matches (List.getElem?_eq_getElem hlt)
  rw [show g.edges.countP (g.into [e.source] e.target) = 1 by omega] at hmatches
  have hmem := (mem_candidatesFrom (List.cons_ne_nil e.source [])).mpr
    ⟨e.target,_,_,List.getElem?_eq_getElem htarget,List.getElem?_eq_getElem hlt,
      by rw [hmatches]; decide,rfl⟩
  rw [hnil] at hmem
  cases hmem

end One

end Graph

/-! ## What a graph is built of -/

/-- Every token is of a kind, and no two edges join the same nodes, which there are. -/
structure Grounded (Q : Token → Prop) (g : Graph) : Prop where
  tokens : ∀ t ∈ g.tokens, Q t
  distinct : g.links.Nodup
  inside : ∀ p ∈ g.links, p.1 < g.tokens.length ∧ p.2 < g.tokens.length

section Grounded
variable {Q : Token → Prop} {g g' : Graph} {U : Utf8proc} {env : IndexEnv}

theorem Grounded.of_same (h : Grounded Q g) (htokens : g'.tokens = g.tokens)
    (hlinks : g'.links = g.links) : Grounded Q g' := by
  refine ⟨?_,?_,?_⟩
  · rw [htokens]
    exact h.tokens
  · rw [hlinks]
    exact h.distinct
  · rw [htokens,hlinks]
    exact h.inside

theorem Grounded.of_outline (h : Grounded Q g) (ho : g'.outline = g.outline) : Grounded Q g' :=
  h.of_same (congrArg Outline.tokens ho) (congrArg Outline.links ho)

theorem Grounded.interned (h : Grounded Q g) {t : Token} (ht : Q t) :
    Grounded Q (g.internNode t).1 := by
  rcases internNode_cases g t with ⟨g',i,heq,ho,-⟩ | ⟨-,-,heq⟩ | ⟨-,-,-,heq⟩ |
    ⟨-,-,-,g',heq,ho⟩
  · rw [heq]
    exact h.of_outline ho
  · rw [heq]
    exact h.of_outline g.outline_reject
  · rw [heq]
    exact h
  · rw [heq]
    have htokens : g'.tokens = g.tokens++[t] := congrArg Outline.tokens ho
    have hlinks : g'.links = g.links := congrArg Outline.links ho
    refine ⟨fun s hs => ?_,hlinks ▸ h.distinct,fun p hp => ?_⟩
    · rw [htokens,List.mem_append,List.mem_singleton] at hs
      rcases hs with hs | rfl
      · exact h.tokens s hs
      · exact ht
    · rw [hlinks] at hp
      obtain ⟨hsource,htarget⟩ := h.inside p hp
      rw [htokens,List.length_append,List.length_singleton]
      exact ⟨Nat.lt_succ_of_lt hsource,Nat.lt_succ_of_lt htarget⟩

/-- An edge is only added where there is none. -/
theorem Grounded.paired (h : Grounded Q g) (source target : ℕ) (hash : UInt64) :
    Grounded Q (g.observePair source target hash).1 := by
  unfold Graph.observePair
  split
  · exact h
  · next hin =>
      split
      · exact h.of_outline (g.outline_learnPair _ _ _ _)
      · next hnone =>
          split
          · exact h.of_outline g.outline_reject
          · refine Grounded.of_outline (g := g.createEdge source target hash) ?_ ?_
            · have hlinks : (g.createEdge source target hash).links =
                  g.links++[(source,target)] := List.map_append
              have hnew : (source,target) ∉ g.links := by
                rw [Graph.findEdge_eq,List.findIdx?_eq_none_iff] at hnone
                intro hmem
                simpa using hnone _ hmem
              have hin : source < g.tokens.length ∧ target < g.tokens.length := by
                rw [Graph.tokens_length]
                exact not_not.mp hin
              refine ⟨h.tokens,?_,fun p hp => ?_⟩
              · rw [hlinks]
                exact h.distinct.append (List.nodup_singleton _)
                  (List.disjoint_singleton.mpr hnew)
              · rw [hlinks,List.mem_append,List.mem_singleton] at hp
                rcases hp with hp | rfl
                · exact h.inside p hp
                · exact hin
            · exact Graph.outline_learnPair _ _ _ _ _

theorem Grounded.emitted {w : ObserveWalk} (h : Grounded Q w.graph) (hash : UInt64) {t : Token}
    (ht : Q t) : Grounded Q (observeEmit hash w t).1.graph := by
  have hintern := h.interned ht
  unfold observeEmit
  generalize w.graph.internNode t = interned at hintern
  rcases interned with ⟨g,status | current⟩
  · exact hintern
  · have hcounted : Grounded Q {g with tokenObservations := g.tokenObservations+1} :=
      hintern.of_same rfl rfl
    cases w.previous with
    | none => exact hcounted
    | some previous =>
        have hpair := hcounted.paired previous current hash
        simp only
        generalize Graph.observePair {g with tokenObservations := g.tokenObservations+1} previous
          current hash = paired at hpair
        rcases paired with ⟨g',status⟩
        cases status <;> exact hpair

theorem Grounded.walked (hash : UInt64) {ts : List Token} (hts : ∀ t ∈ ts, Q t) {w : ObserveWalk}
    (h : Grounded Q w.graph) : Grounded Q (emitAll (observeEmit hash) w ts).graph := by
  induction ts generalizing w with
  | nil => exact h
  | cons t ts ih =>
      have hemit := h.emitted hash (hts t List.mem_cons_self)
      unfold emitAll
      split
      · exact ih (fun s hs => hts s (List.mem_cons_of_mem t hs)) hemit
      · exact hemit

/-- However an observation ends, the tokens added are those of the text. -/
theorem Grounded.observed (h : Grounded Q g) {text : Text}
    (htext : ∀ t ∈ tokenize U schemaVersion text, Q t) (sourceId : CString) :
    Grounded Q (observeText U g text sourceId).1 := by
  have hwalk := Grounded.walked (w := .start g) (hashSource sourceId.bytes) htext h
  unfold observeText
  split
  · exact h.of_outline g.outline_reject
  · simp only
    split
    · exact hwalk
    · exact hwalk.of_outline (Graph.outline_countObservation _ _)

theorem Grounded.remembered (h : Grounded Q g) {text : Text} {p : Provenance}
    (htext : ∀ t ∈ tokenize U p.schemaVersion text, Q t) :
    Grounded Q (observeWithMemory U env g text p).1 := by
  have hwalk := Grounded.walked (w := .start g) (hashSource p.sourceId.bytes) htext h
  have hbase := memory_base (hashSource p.sourceId.bytes) ⟨.start g,[]⟩
    (tokenize U p.schemaVersion text)
  unfold observeWithMemory
  generalize emitAll (memoryEmit (hashSource p.sourceId.bytes)) ⟨.start g,[]⟩
    (tokenize U p.schemaVersion text) = w at hbase
  rw [← hbase] at hwalk
  have hcount : Grounded Q (w.base.graph.countObservation w.base.sawToken) :=
    hwalk.of_outline (Graph.outline_countObservation _ _)
  split
  · exact h.of_outline g.outline_reject
  · simp only
    split
    · exact hwalk
    · split
      · exact hcount
      · exact hcount.of_outline (outline_rememberEpisode env _ _)

theorem Grounded.expanded (h : Grounded Q g) (m : Migration) : Grounded Q (g.expandNeural m).1 := by
  rcases hexpand : g.expandNeural m with ⟨g',status⟩
  by_cases hok : status = .ok
  · subst hok
    obtain ⟨-,-,layout,-,rfl⟩ := expandNeural_ok hexpand
    exact h.of_same (expandNodes_tokens _ _ _ _) rfl
  · rw [expandNeural_failed hexpand hok]
    exact h

theorem Grounded.mirrored (h : Grounded Q g) (entry : LedgerEntry)
    (context : ConversationContext) : Grounded Q (g.addLedgerEntry entry context).1 := by
  unfold Graph.addLedgerEntry
  split
  · exact h
  · exact h.of_same rfl rfl

/-! ## Replay -/

theorem Grounded.migrated {boundary : UInt64} {report : ReplayReport} {ms : List Migration}
    (h : Grounded Q g) : Grounded Q (applyReplayMigrations boundary g report ms).1.graph := by
  induction ms generalizing g report with
  | nil => exact h
  | cons m rest ih =>
      have hexpanded := h.expanded m
      unfold applyReplayMigrations
      generalize g.expandNeural m = expanded at hexpanded
      rcases expanded with ⟨g',status⟩
      split
      · cases status <;> first | exact ih hexpanded | exact hexpanded
      · exact h

/-- The text that a replay reads for an entry. -/
def replayedText (items : List Item) (e : LedgerEntry) : Text :=
  textOf (Ledger.entryPayload items e.id
    (some (Ledger.entryPayload items e.id none).2.length)).2

section Replay
variable {envs : UInt64 → IndexEnv} {items : List Item} {e : LedgerEntry}
  {context : ConversationContext}

theorem Grounded.relearned (h : Grounded Q g) {payload : Bytes}
    (htext : ∀ t ∈ tokenize U e.schemaVersion (textOf payload), Q t) :
    Grounded Q (relearn U envs g e context payload).1 := by
  have hobserved : Grounded Q (observeWithMemory U (envs e.id) g (textOf payload)
      (provenanceOf e)).1 := h.remembered htext
  unfold relearn
  generalize observeWithMemory U (envs e.id) g (textOf payload) (provenanceOf e) = observed at hobserved
  rcases observed with ⟨g',status,remembered⟩
  have hmirrored := Grounded.mirrored hobserved e context
  cases status <;> try exact hobserved
  simp only
  generalize Graph.addLedgerEntry g' e context = mirrored at hmirrored
  rcases mirrored with ⟨g'',status⟩
  cases status <;> exact hmirrored

theorem Grounded.replayedEntry (h : Grounded Q g)
    (htext : e.outcome = .learned → ∀ t ∈ tokenize U e.schemaVersion (replayedText items e), Q t) :
    Grounded Q (replayEntry U envs items g e context).1 := by
  unfold replayEntry
  split
  · next hlearned =>
      simp only
      split
      · exact h
      · split
        · exact h
        · split
          · exact h
          · exact h.relearned (htext hlearned)
  · have hmirrored := h.mirrored e context
    unfold mirror
    generalize g.addLedgerEntry e context = mirrored at hmirrored
    rcases mirrored with ⟨g',status⟩
    cases status <;> exact hmirrored
  · exact h
  · exact h
  · exact h

theorem Grounded.replayedStep {s : ReplayState} (h : Grounded Q s.graph)
    (htext : e.outcome = .learned → ∀ t ∈ tokenize U e.schemaVersion (replayedText items e), Q t) :
    Grounded Q (replayStep U envs items s e).1.graph := by
  unfold replayStep
  split
  · exact h
  · split
    · exact h
    · split
      · next context hcontext =>
          have hentry : Grounded Q (replayEntry U envs items s.graph e context).1 :=
            h.replayedEntry htext
          generalize replayEntry U envs items s.graph e context = entered at hentry
          rcases entered with ⟨g',status | what⟩
          · exact hentry
          · exact hentry.migrated
      · exact h

theorem Grounded.replayedFrom {s : ReplayState} {entries : List LedgerEntry}
    (h : Grounded Q s.graph) (htext : ∀ e ∈ entries, e.outcome = .learned →
      ∀ t ∈ tokenize U e.schemaVersion (replayedText items e), Q t) :
    Grounded Q (replayFrom U envs items s entries).1.graph := by
  induction entries generalizing s with
  | nil =>
      unfold replayFrom
      split <;> exact h
  | cons e rest ih =>
      have hstep : Grounded Q (replayStep U envs items s e).1.graph :=
        h.replayedStep (htext e List.mem_cons_self)
      unfold replayFrom
      generalize replayStep U envs items s e = stepped at hstep
      rcases stepped with ⟨s',status⟩
      cases status <;>
        first | exact ih hstep fun e he => htext e (List.mem_cons_of_mem _ he) | exact hstep

/-- However a replay ends, the tokens added are those of the texts it reads. -/
theorem Grounded.replayed (h : Grounded Q g) {ms : List Migration}
    (htext : ∀ it ∈ items, it.entry.outcome = .learned →
      ∀ t ∈ tokenize U it.entry.schemaVersion (replayedText items it.entry), Q t) :
    Grounded Q (replayLedger U envs items g ms).1 := by
  have hentries : ∀ e ∈ items.map Item.entry, e.outcome = .learned →
      ∀ t ∈ tokenize U e.schemaVersion (replayedText items e), Q t := by
    intro e he
    obtain ⟨it,hit,rfl⟩ := List.mem_map.mp he
    exact htext it hit
  have hmigrated : Grounded Q (applyReplayMigrations 0 g .zero ms).1.graph := h.migrated
  unfold replayLedger
  split
  · generalize applyReplayMigrations 0 g .zero ms = migrated at hmigrated
    rcases migrated with ⟨s,status⟩
    cases status <;> first | exact hmigrated.replayedFrom hentries | exact hmigrated
  · exact h

end Replay

end Grounded

/-! ## Plans over settled tokens -/

/-- The step after a token comes over one edge of the token's node, and a plan at a dead end is
at a node that no edge leaves. -/
structure GoesOn (g : Graph) (p : ActionPlan) : Prop where
  next : ∀ before t c after, p.steps = before++t::c::after → ∃ i, g.findNode t.token = some i ∧
    c ∈ g.candidatesFrom [i] ∧ c.contextMatches = 1 ∧
    ∃ e ∈ g.edges, e.source = i ∧ g.tokens[e.target]? = some c.token
  deadEnd : p.stopReason = .deadEnd → ∀ before t, p.steps = before++[t] →
    ∃ i, g.findNode t.token = some i ∧ ∀ e ∈ g.edges, e.source ≠ i

/-- Every stored token is read back as itself, and every raw plan goes on from its own tokens. -/
structure Continues (U : Utf8proc) (g : Graph) : Prop where
  retokenized : ∀ t ∈ g.tokens, tokenize U schemaVersion t.text = [t]
  plans : ∀ context config capacity status out,
    Plans U g context config capacity (status,out) → ∀ p ∈ out, GoesOn g p

section Continues
variable {U : Utf8proc} {g : Graph}

theorem stepContext_append (context : Text) (steps : List ActionCandidate) (c : ActionCandidate) :
    stepContext context (steps++[c]) = c.token.text := by
  rw [stepContext,List.getLast?_append,List.getLast?_singleton]
  rfl

/-- A settled token is the query of its own node. -/
theorem queryNodes_token {t : Token} (ht : t ∈ g.tokens) (hsettled : Settled U t.bytes) :
    ∃ i, g.findNode t = some i ∧ queryNodes U g t.text = [i] := by
  obtain ⟨i,hi⟩ := Outline.find_isSome (o := g.outline) ht
  have hfind : g.findNode t = some i := (g.findNode_eq t).trans hi
  refine ⟨i,hfind,?_⟩
  rw [queryNodes,retokenize hsettled,List.foldl_cons,List.foldl_nil,queryEmit,hfind]
  rfl

theorem candidate_known {context : Text} {c : ActionCandidate}
    (hc : c ∈ g.contextCandidates U context) : c.token ∈ g.tokens :=
  (g.candidatesFrom_tokens _).subset (List.mem_map_of_mem hc)

theorem Grounded.continues (h : Grounded (fun t => Settled U t.bytes) g) : Continues U g where
  retokenized := fun t ht => retokenize (h.tokens t ht)
  plans := by
    intro context config capacity status out hplans p hp
    have hraw := hplans.rawPlan hp
    refine ⟨fun before t c after hsteps => ?_,fun hstop before t hsteps => ?_⟩
    · have ht := candidate_known (hraw.follows before t (c::after) hsteps)
      obtain ⟨i,hfind,hnodes⟩ := queryNodes_token ht (h.tokens t.token ht)
      have hc := hraw.follows (before++[t]) c after (by rw [hsteps,List.append_assoc]; rfl)
      rw [stepContext_append,Graph.contextCandidates,hnodes] at hc
      obtain ⟨hmatches,hedge⟩ := Graph.candidate_single h.distinct hc
      exact ⟨i,hfind,hc,hmatches,hedge⟩
    · have ht := candidate_known (hraw.follows before t [] hsteps)
      obtain ⟨i,hfind,hnodes⟩ := queryNodes_token ht (h.tokens t.token ht)
      have hnone := (hraw.deadEnd.mp hstop).1
      rw [hsteps,stepContext_append,Graph.contextCandidates,hnodes] at hnone
      exact ⟨i,hfind,fun e he => Graph.no_candidates h.distinct h.inside hnone he⟩

end Continues

/-! ## The graphs there are -/

/-- What builds a graph. -/
inductive Study where
  | observe (text : Text) (sourceId : CString)
  | remember (env : IndexEnv) (text : Text) (p : Provenance)
  | replay (envs : UInt64 → IndexEnv) (items : List Item) (ms : List Migration)

/-- The graph after a lesson, whatever its status. -/
def study (U : Utf8proc) (g : Graph) : Study → Graph
  | .observe text sourceId => (observeText U g text sourceId).1
  | .remember env text p => (observeWithMemory U env g text p).1
  | .replay envs items ms => (replayLedger U envs items g ms).1

/-- Every text of a lesson is retold under the schema that it is read under. -/
def Study.Retold (U : Utf8proc) : Study → Prop
  | .observe text _ => Core.Retold U schemaVersion text
  | .remember _ text p => Core.Retold U p.schemaVersion text
  | .replay _ items _ => ∀ it ∈ items, it.entry.outcome = .learned →
      Core.Retold U it.entry.schemaVersion (replayedText items it.entry)

section Studies
variable {U : Utf8proc} {g : Graph}

theorem grounded_created {Q : Token → Prop} {config : GraphConfig} {a : Architecture}
    (h : createWithArchitecture config a = some g) : Grounded Q g := by
  obtain ⟨r,-,rfl⟩ := Option.map_eq_some_iff.mp h
  exact ⟨fun t ht => absurd ht List.not_mem_nil,.nil,fun p hp => absurd hp List.not_mem_nil⟩

theorem Grounded.studied (hU : Steady U) (h : Grounded (fun t => Settled U t.bytes) g) {s : Study}
    (hs : s.Retold U) : Grounded (fun t => Settled U t.bytes) (study U g s) := by
  cases s with
  | observe text sourceId => exact h.observed (fun t => Core.Retold.settled hU hs) sourceId
  | remember env text p => exact h.remembered fun t => Core.Retold.settled hU hs
  | replay envs items ms =>
      exact h.replayed fun it hit hlearned t => Core.Retold.settled hU (hs it hit hlearned)

/-- On a graph that was only built from texts whose tokens are settled, plans go on from their
own tokens. -/
theorem plans_continue (hU : Steady U) {config : GraphConfig} {a : Architecture}
    (hg : createWithArchitecture config a = some g) {studies : List Study}
    (h : Guarded (study U) (fun _ s => s.Retold U) g studies) :
    Continues U (runFrom (study U) g studies) :=
  Grounded.continues <| Guarded.invariant (P := Grounded fun t => Settled U t.bytes)
    (fun _ _ hs hretold => Grounded.studied hU hs hretold) h (grounded_created hg)

end Studies

/-! ## Samples -/

namespace Sample

/-- Two words. -/
def wordsText : Text := ⟨[97,32,98],by decide,by decide⟩

theorem words_retold : (Study.observe wordsText sampleSource).Retold .plain := by
  refine retold_brief (by decide) fun cs hcs => ?_
  obtain ⟨normalized,hmap,hspell⟩ := hcs
  have hknown : Utf8proc.plain.map (sanitizeUtf8 .plain wordsText.bytes.length wordsText.bytes) =
    some [97,32,98] := by decide +kernel
  obtain rfl := Option.some.inj (hknown.symm.trans hmap)
  rw [← hspell]
  decide

theorem plans_continue_words : ∃ g, createWithArchitecture .default .legacy = some g ∧
    Continues .plain (runFrom (study .plain) g [.observe wordsText sampleSource]) := by
  obtain ⟨g,hg⟩ : ∃ g, createWithArchitecture .default .legacy = some g :=
    Option.isSome_iff_exists.mp (by decide +kernel)
  exact ⟨g,hg,plans_continue steady_plain hg ⟨words_retold,trivial⟩⟩

/-- A letter, an emoji and a letter: under schema 1, three tokens. -/
def spokenText : Text := ⟨[98,32,0xF0,0x9F,0x98,0x80,32,97],by decide,by decide⟩

def spoken : Study := .remember .calm spokenText (sampleProvenance 1)

def firstText : Text := ⟨[98],by decide,by decide⟩

def emoji : Token := ⟨[0xF0,0x9F,0x98,0x80],by decide,by decide⟩

theorem spoken_facts : (createWithArchitecture .default .legacy).map (fun g =>
    ((study .plain g spoken).links,(study .plain g spoken).findNode emoji,
      ((study .plain g spoken).contextCandidates .plain firstText).map (·.token),
      ((study .plain g spoken).contextCandidates .plain emoji.text).map (·.token))) =
    some ([(0,1),(1,2)],some 1,[emoji],[]) := by
  decide +kernel

/-- A way of one step whose token is not read back. -/
def lost (c : ActionCandidate) : PlanWork := (PlanWork.start.extend c).stop .deadEnd

theorem plans_lost {g : Graph} {c : ActionCandidate} (hnodes : g.nodes ≠ []) (hedges : g.edges ≠ [])
    (hfirst : g.contextCandidates .plain firstText = [c])
    (hnone : g.contextCandidates .plain c.token.text = []) :
    Plans .plain g firstText (some ⟨2,1⟩) 1 (.ok,[(lost c).plan]) := by
  have hroom : ¬(1 = 0 ∨ g.nodes = [] ∨ g.edges = []) := by simp [hnodes,hedges]
  have hstep : g.Candidates .plain (stepContext firstText PlanWork.start.plan.steps) 1 [c] := by
    unfold Graph.Candidates
    rw [if_neg hroom,show stepContext firstText PlanWork.start.plan.steps = firstText from rfl,hfirst]
    exact ⟨[c],.singleton c,rfl⟩
  have hstop : g.Candidates .plain (stepContext firstText (PlanWork.start.extend c).plan.steps) 1
      [] := by
    unfold Graph.Candidates
    rw [if_neg hroom,show stepContext firstText (PlanWork.start.extend c).plan.steps =
      c.token.text from rfl,hnone]
    exact ⟨[],Ranked.nil_iff.mpr rfl,rfl⟩
  unfold Plans
  dsimp only [Option.getD_some]
  rw [if_neg (by decide),if_neg hroom]
  refine ⟨⟨1,[],[],[lost c]⟩,?_,.inr ⟨⟨rfl,.inr rfl⟩,[lost c],.singleton _,rfl⟩⟩
  have hpropose : BeamStep .plain g firstText ⟨2,1⟩ .start ⟨0,[],[PlanWork.start.extend c],[]⟩ :=
    .propose (by decide) hstep (List.cons_ne_nil c []) (by decide : 1 ≤ 1)
  have hprune : BeamStep .plain g firstText ⟨2,1⟩ ⟨0,[],[PlanWork.start.extend c],[]⟩
      ⟨1,[PlanWork.start.extend c],[],[]⟩ :=
    .prune (by decide) (List.cons_ne_nil _ _) (.singleton _)
  exact ((Relation.ReflTransGen.single hpropose).tail hprune).tail (.deadEnd (by decide) hstop)

/-- The emoji stops the plan at a node that an edge leaves. -/
theorem emoji_stops : Steady .plain ∧ ∃ g, createWithArchitecture .default .legacy = some g ∧
    ¬Continues .plain (runFrom (study .plain) g [spoken]) := by
  obtain ⟨g,hg,hfacts⟩ := Option.map_eq_some_iff.mp spoken_facts
  simp only [Prod.mk.injEq] at hfacts
  obtain ⟨hlinks,hfind,hfirst,hnone⟩ := hfacts
  refine ⟨steady_plain,g,hg,fun h => ?_⟩
  rw [runFrom_cons,runFrom_nil] at h
  obtain ⟨c,hc,htoken⟩ := List.map_eq_singleton_iff.mp hfirst
  have hnodes : (study .plain g spoken).nodes ≠ [] := by
    intro hnil
    rw [Graph.findNode,hnil] at hfind
    cases hfind
  have hedges : (study .plain g spoken).edges ≠ [] := by
    intro hnil
    rw [Graph.links,hnil] at hlinks
    cases hlinks
  have hplans := plans_lost hnodes hedges hc (by rw [htoken]; exact List.map_eq_nil_iff.mp hnone)
  obtain ⟨i,hi,hleaves⟩ :=
    (h.plans _ _ _ _ _ hplans _ List.mem_cons_self).deadEnd rfl [] c rfl
  rw [htoken,hfind] at hi
  obtain rfl := Option.some.inj hi
  have hmem : (1,2) ∈ (study .plain g spoken).links := by
    rw [hlinks]
    decide
  obtain ⟨e,he,hlink⟩ := List.mem_map.mp hmem
  exact hleaves e he (congrArg Prod.fst hlink)

end Sample

end Atperson.Core
