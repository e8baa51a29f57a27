import Atperson.Core.Replay

/-!
# Ceilings only refuse

A ceiling can refuse a token or a pair, which is counted, and has no other effect. So an
observation, and a replay, that comes through does the same where ceilings are lifted and
whatever the count of refusals is.
-/
namespace Atperson.Core
open Wire
open Ledger (Status LedgerEntry ConversationContext Item)

/-- A graph without its ceilings. -/
def Graph.unbounded (g : Graph) : Graph := g.setCapacity 0 0

/-- Each ceiling is kept or lifted, and the count of refusals rewritten. -/
structure Easing where
  nodes : ℕ → ℕ
  edges : ℕ → ℕ
  refusals : UInt64 → UInt64
  lifts_nodes : ∀ m, nodes m = 0 ∨ nodes m = m
  lifts_edges : ∀ m, edges m = 0 ∨ edges m = m

def Graph.eased (k : Easing) (g : Graph) : Graph :=
  {g with
    config := {g.config with
      nodeCapacityMax := k.nodes g.config.nodeCapacityMax
      edgeCapacityMax := k.edges g.config.edgeCapacityMax}
    capacityRejections := k.refusals g.capacityRejections}

/-- The ceilings are lifted. -/
def Easing.lift : Easing := ⟨fun _ => 0,fun _ => 0,id,fun _ => .inl rfl,fun _ => .inl rfl⟩

/-- The ceilings are lifted and the refusals counted as `r`. -/
def Easing.recount (r : UInt64) : Easing :=
  ⟨fun _ => 0,fun _ => 0,fun _ => r,fun _ => .inl rfl,fun _ => .inl rfl⟩

/-- What a graph holds, its ceilings and the count of refusals apart. -/
def Graph.knowledge (g : Graph) : Graph := g.eased (.recount 0)

variable {k : Easing}

namespace Graph

theorem knowledge_eased (g : Graph) (r : UInt64) : (g.eased (.recount r)).knowledge = g.knowledge :=
  rfl

/-- What is equal in knowledge is equal under the same count of refusals. -/
theorem eased_of_knowledge {g h : Graph} (he : g.knowledge = h.knowledge) (r : UInt64) :
    g.eased (.recount r) = h.eased (.recount r) :=
  congrArg (fun g : Graph => {g with capacityRejections := r}) he

theorem unbounded_unbounded (g : Graph) : g.unbounded.unbounded = g.unbounded := rfl

theorem unbounded_setCapacity (g : Graph) (m n : ℕ) : (g.setCapacity m n).unbounded = g.unbounded :=
  rfl

theorem not_nodesFull_eased {g : Graph} (h : ¬g.nodesFull) : ¬(g.eased k).nodesFull := by
  rintro ⟨hne,hle⟩
  rcases k.lifts_nodes g.config.nodeCapacityMax with hk | hk
  · exact hne hk
  · have hmax : (g.eased k).config.nodeCapacityMax = g.config.nodeCapacityMax := hk
    rw [hmax] at hne hle
    exact h ⟨hne,hle⟩

theorem not_edgesFull_eased {g : Graph} (h : ¬g.edgesFull) : ¬(g.eased k).edgesFull := by
  rintro ⟨hne,hle⟩
  rcases k.lifts_edges g.config.edgeCapacityMax with hk | hk
  · exact hne hk
  · have hmax : (g.eased k).config.edgeCapacityMax = g.config.edgeCapacityMax := hk
    rw [hmax] at hne hle
    exact h ⟨hne,hle⟩

/-! ## Tokens and pairs -/

theorem internNode_eased {g g' : Graph} {token : Token} {i : ℕ}
    (h : g.internNode token = (g',.ok i)) :
    (g.eased k).internNode token = (g'.eased k,.ok i) := by
  have hfind : (g.eased k).findNode token = g.findNode token := rfl
  cases hf : g.findNode token with
  | some j =>
      simp only [internNode,hf] at h
      simp only [internNode,hfind,hf]
      cases h
      rfl
  | none =>
      by_cases hfull : g.nodesFull
      · simp only [internNode,hf,if_pos hfull] at h
        cases h
      · simp only [internNode,hf,if_neg hfull] at h
        simp only [internNode,hfind,hf,if_neg (not_nodesFull_eased hfull)]
        have hlen : (g.eased k).nodes.length = g.nodes.length := rfl
        rw [hlen]
        -- the kernel must not count up to the bound
        generalize 2^32-1 = limit at h ⊢
        split at h
        · cases h
        · rename_i hroom
          rw [if_neg hroom]
          cases h
          rfl

theorem trainOn_eased (g : Graph) (source target : ℕ) (expected : Float32) :
    (g.eased k).trainOn source target expected = (g.trainOn source target expected).eased k := rfl

theorem rng_eased (g : Graph) (rng : UInt64) :
    {g.eased k with rngState := rng} = {g with rngState := rng}.eased k := rfl

/-- `trainNegative` behind its draw. -/
def trainDrawn (g : Graph) (source target : ℕ) (drawn : UInt64×ℕ) : Graph :=
  let g := {g with rngState := drawn.1}
  if drawn.2 ≠ source ∧ drawn.2 ≠ target then g.trainOn source drawn.2 0 else g

theorem trainNegative_drawn (g : Graph) (source target : ℕ) :
    g.trainNegative source target = if 2 < g.nodes.length then
      g.trainDrawn source target (drawNegative g.nodes.length source target 8 g.rngState 0)
    else g := rfl

theorem trainDrawn_eased (g : Graph) (source target : ℕ) (drawn : UInt64×ℕ) :
    (g.eased k).trainDrawn source target drawn =
      (g.trainDrawn source target drawn).eased k := by
  simp only [trainDrawn,rng_eased]
  split
  · rw [trainOn_eased]
  · rfl

theorem trainNegative_eased (g : Graph) (source target : ℕ) :
    (g.eased k).trainNegative source target = (g.trainNegative source target).eased k := by
  have hlen : (g.eased k).nodes.length = g.nodes.length := rfl
  have hrng : (g.eased k).rngState = g.rngState := rfl
  rw [trainNegative_drawn,trainNegative_drawn,hlen,hrng]
  generalize drawNegative g.nodes.length source target 8 g.rngState 0 = drawn
  split
  · exact trainDrawn_eased g source target drawn
  · rfl

theorem strengthen_eased (g : Graph) (edge source target : ℕ) (sourceHash : UInt64) :
    (g.eased k).strengthen edge source target sourceHash =
      (g.strengthen edge source target sourceHash).eased k := rfl

theorem learnPair_eased (g : Graph) (edge source target : ℕ) (sourceHash : UInt64) :
    (g.eased k).learnPair edge source target sourceHash =
      (g.learnPair edge source target sourceHash).eased k := by
  rw [learnPair,learnPair,trainOn_eased,trainNegative_eased,strengthen_eased]

theorem createEdge_eased (g : Graph) (source target : ℕ) (sourceHash : UInt64) :
    (g.eased k).createEdge source target sourceHash =
      (g.createEdge source target sourceHash).eased k := rfl

theorem observePair_eased {g g' : Graph} {source target : ℕ} {sourceHash : UInt64}
    (h : g.observePair source target sourceHash = (g',.ok)) :
    (g.eased k).observePair source target sourceHash = (g'.eased k,.ok) := by
  have hlen : (g.eased k).nodes.length = g.nodes.length := rfl
  have hedges : (g.eased k).edges.length = g.edges.length := rfl
  have hfind : (g.eased k).findEdge source target = g.findEdge source target := rfl
  by_cases hin : ¬(source < g.nodes.length ∧ target < g.nodes.length)
  · simp only [observePair,if_pos hin] at h
    cases h
  · simp only [observePair,if_neg hin] at h
    simp only [observePair,hlen,if_neg hin,hfind,hedges]
    cases hf : g.findEdge source target with
    | some edge =>
        simp only [hf] at h
        cases h
        simp only [learnPair_eased]
    | none =>
        simp only [hf] at h
        by_cases hfull : g.edgesFull
        · rw [if_pos hfull] at h
          cases h
        · rw [if_neg hfull] at h
          simp only [if_neg (not_edgesFull_eased hfull)]
          cases h
          rw [createEdge_eased,learnPair_eased]

end Graph

/-! ## The walk -/

def ObserveWalk.eased (k : Easing) (w : ObserveWalk) : ObserveWalk :=
  {w with graph := w.graph.eased k}

def MemoryWalk.eased (k : Easing) (w : MemoryWalk) : MemoryWalk := {w with base := w.base.eased k}

/-- A step that goes on does the same without ceilings. -/
theorem observeEmit_eased {hash : UInt64} {w w' : ObserveWalk} {token : Token}
    (h : observeEmit hash w token = (w',true)) :
    observeEmit hash (w.eased k) token = (w'.eased k,true) := by
  have hprev : (w.eased k).previous = w.previous := rfl
  rcases hi : w.graph.internNode token with ⟨g,status | current⟩
  · simp only [observeEmit,hi] at h
    cases h
  · have hi' : (w.eased k).graph.internNode token = (g.eased k,.ok current) :=
      Graph.internNode_eased hi
    have hcount : {g.eased k with tokenObservations := (g.eased k).tokenObservations+1} =
        {g with tokenObservations := g.tokenObservations+1}.eased k := rfl
    simp only [observeEmit,hi] at h
    simp only [observeEmit,hi',hprev,hcount]
    cases hp : w.previous with
    | none =>
        simp only [hp] at h
        cases h
        rfl
    | some previous =>
        simp only [hp] at h
        generalize {g with tokenObservations := g.tokenObservations+1} = counted at h ⊢
        rcases hpair : counted.observePair previous current hash with ⟨g',status⟩
        rw [hpair] at h
        cases status with
        | ok =>
            simp only [Graph.observePair_eased hpair]
            cases h
            rfl
        | _ => cases h

theorem internNode_error {g g' : Graph} {token : Token} {status : Status}
    (h : g.internNode token = (g',.error status)) : status ≠ .ok := by
  unfold Graph.internNode at h
  generalize 2^32-1 = limit at h
  split at h
  · cases h
  · split at h
    · cases h
      simp
    · split at h
      · cases h
        simp
      · cases h

/-- A step that stops leaves an error. -/
theorem observeEmit_stopped {hash : UInt64} {w w' : ObserveWalk} {token : Token}
    (h : observeEmit hash w token = (w',false)) : w'.status ≠ .ok := by
  rcases hi : w.graph.internNode token with ⟨g,status | current⟩
  · simp only [observeEmit,hi] at h
    cases h
    exact internNode_error hi
  · simp only [observeEmit,hi] at h
    cases hp : w.previous with
    | none =>
        simp only [hp] at h
        cases h
    | some previous =>
        simp only [hp] at h
        generalize {g with tokenObservations := g.tokenObservations+1} = counted at h
        rcases hpair : counted.observePair previous current hash with ⟨g',status⟩
        rw [hpair] at h
        cases status with
        | ok => cases h
        | _ =>
            cases h
            simp

theorem memoryEmit_eased {hash : UInt64} {w w' : MemoryWalk} {token : Token}
    (h : memoryEmit hash w token = (w',true)) :
    memoryEmit hash (w.eased k) token = (w'.eased k,true) := by
  unfold memoryEmit at h ⊢
  split at h
  · cases h
  · rename_i hb
    rw [show observeEmit hash (w.eased k).base token = _ from observeEmit_eased hb]
    cases h
    rfl

theorem memoryEmit_stopped {hash : UInt64} {w w' : MemoryWalk} {token : Token}
    (h : memoryEmit hash w token = (w',false)) : w'.base.status ≠ .ok := by
  unfold memoryEmit at h
  split at h
  · rename_i hb
    cases h
    exact observeEmit_stopped hb
  · cases h

theorem memoryWalk_eased {hash : UInt64} {w : MemoryWalk} {tokens : List Token}
    (h : (emitAll (memoryEmit hash) w tokens).base.status = .ok) :
    emitAll (memoryEmit hash) (w.eased k) tokens =
      (emitAll (memoryEmit hash) w tokens).eased k := by
  induction tokens generalizing w with
  | nil => rfl
  | cons token rest ih =>
      rcases he : memoryEmit hash w token with ⟨w',_ | _⟩
      · simp only [emitAll,he] at h
        exact absurd h (memoryEmit_stopped he)
      · simp only [emitAll,he,memoryEmit_eased he] at h ⊢
        exact ih h

/-! ## Observations -/

theorem rememberEpisode_eased (env : IndexEnv) (g : Graph) (e : Episode) :
    (g.eased k).rememberEpisode env e =
      ((g.rememberEpisode env e).1.eased k,(g.rememberEpisode env e).2) := by
  have hroom : (g.eased k).makeRoom env = ((g.makeRoom env).1.eased k,(g.makeRoom env).2) := by
    have hmax : (g.eased k).episodeMax = g.episodeMax := rfl
    have hepisodes : (g.eased k).episodes.length = g.episodes.length := rfl
    unfold Graph.makeRoom
    rw [hmax,hepisodes]
    split <;> rfl
  unfold Graph.rememberEpisode
  rw [hroom]
  generalize g.makeRoom env = r
  have hmax : (r.1.eased k).episodeMax = r.1.episodeMax := rfl
  have hepisodes : (r.1.eased k).episodes = r.1.episodes := rfl
  unfold Graph.appendEpisode
  simp only [hmax,hepisodes]
  split <;> rfl

theorem countObservation_eased (g : Graph) (sawToken : Bool) :
    (g.eased k).countObservation sawToken = (g.countObservation sawToken).eased k := by
  unfold Graph.countObservation
  split <;> rfl

theorem fits_eased {g : Graph} {m n : ℕ} (h : g.fits m n) : (g.eased k).fits m n := by
  refine ⟨?_,?_⟩
  · rcases k.lifts_nodes g.config.nodeCapacityMax with hk | hk
    · exact .inl hk
    · have hmax : (g.eased k).config.nodeCapacityMax = g.config.nodeCapacityMax := hk
      rw [hmax]
      exact h.1
  · rcases k.lifts_edges g.config.edgeCapacityMax with hk | hk
    · exact .inl hk
    · have hmax : (g.eased k).config.edgeCapacityMax = g.config.edgeCapacityMax := hk
      rw [hmax]
      exact h.2

theorem observeWithMemory_eased {U : Utf8proc} {env : IndexEnv} {g g' : Graph} {text : Text}
    {p : Provenance} {kept : Bool} (h : observeWithMemory U env g text p = (g',.ok,kept)) :
    observeWithMemory U env (g.eased k) text p = (g'.eased k,.ok,kept) := by
  have hnodes : (g.eased k).nodes.length = g.nodes.length := rfl
  have hstart : (⟨.start (g.eased k),[]⟩ : MemoryWalk) = MemoryWalk.eased k ⟨.start g,[]⟩ := rfl
  unfold observeWithMemory at h ⊢
  split at h
  · cases h
  · rename_i hfits
    have heased : (g.eased k).fitsBudget U text := fits_eased (not_not.mp hfits)
    rw [if_neg (not_not_intro heased),hstart,hnodes]
    simp only at h ⊢
    by_cases hstatus : (emitAll (memoryEmit (hashSource p.sourceId.bytes)) ⟨.start g,[]⟩
        (tokenize U p.schemaVersion text)).base.status = .ok
    · rw [memoryWalk_eased hstatus]
      generalize emitAll (memoryEmit (hashSource p.sourceId.bytes)) ⟨.start g,[]⟩
        (tokenize U p.schemaVersion text) = w at h hstatus
      have hbase : (w.eased k).base.status = w.base.status := rfl
      have hkept : isRemembered g.nodes.length (w.eased k) = isRemembered g.nodes.length w := rfl
      have hcount : (w.eased k).base.graph.countObservation (w.eased k).base.sawToken =
          (w.base.graph.countObservation w.base.sawToken).eased k :=
        countObservation_eased w.base.graph w.base.sawToken
      have hcounts : (w.eased k).counts = w.counts := rfl
      rw [if_neg (not_not_intro hstatus)] at h
      rw [hbase,if_neg (not_not_intro hstatus),hkept,hcount,hcounts]
      split at h
      · rename_i hnot
        rw [if_pos hnot]
        cases h
        rfl
      · rename_i hkeep
        rw [if_neg hkeep,rememberEpisode_eased]
        generalize (w.base.graph.countObservation w.base.sawToken).rememberEpisode env
          (buildEpisode (w.counts.mergeSort countBefore) p) = r at h ⊢
        obtain ⟨g₁,status⟩ := r
        cases h
        rfl
    · rw [if_pos hstatus] at h
      exact absurd (congrArg (fun r => r.2.1) h) hstatus

/-! ## Replay -/

section Replay
variable {U : Utf8proc} {env : UInt64 → IndexEnv} {items : List Item}

theorem addLedgerEntry_eased {g g' : Graph} {e : LedgerEntry} {context : ConversationContext}
    (h : g.addLedgerEntry e context = (g',.ok)) :
    (g.eased k).addLedgerEntry e context = (g'.eased k,.ok) := by
  unfold Graph.addLedgerEntry at h ⊢
  split at h
  · cases h
  · rename_i hs
    rw [if_neg hs]
    cases h
    rfl

theorem mirror_eased {g g' : Graph} {e : LedgerEntry} {context : ConversationContext}
    {what : Replayed} (h : mirror g e context = (g',.ok what)) :
    mirror (g.eased k) e context = (g'.eased k,.ok what) := by
  unfold mirror at h ⊢
  split at h
  · rename_i hm
    rw [addLedgerEntry_eased hm]
    cases h
    rfl
  · cases h

theorem relearn_eased {g g' : Graph} {e : LedgerEntry} {context : ConversationContext}
    {payload : Bytes} {what : Replayed} (h : relearn U env g e context payload = (g',.ok what)) :
    relearn U env (g.eased k) e context payload = (g'.eased k,.ok what) := by
  unfold relearn at h ⊢
  split at h
  · rename_i ho
    rw [observeWithMemory_eased ho]
    split at h
    · rename_i hm
      simp only [addLedgerEntry_eased hm]
      cases h
      rfl
    · cases h
  · cases h

theorem replayEntry_eased {g g' : Graph} {e : LedgerEntry} {context : ConversationContext}
    {what : Replayed} (h : replayEntry U env items g e context = (g',.ok what)) :
    replayEntry U env items (g.eased k) e context = (g'.eased k,.ok what) := by
  unfold replayEntry at h ⊢
  split at h
  · simp only at h ⊢
    split at h
    · rename_i hrel
      rw [if_pos hrel]
      cases h
      rfl
    · rename_i hrel
      rw [if_neg hrel]
      split at h
      · cases h
      · rename_i hpay
        rw [if_neg hpay]
        split at h
        · cases h
        · rename_i hread
          rw [if_neg hread]
          exact relearn_eased h
  · exact mirror_eased h
  · cases h
    rfl
  · cases h
    rfl
  · cases h
    rfl

theorem mirror_error {g g' : Graph} {e : LedgerEntry} {context : ConversationContext}
    {status : Status} (h : mirror g e context = (g',.error status)) : status ≠ .ok := by
  unfold mirror at h
  rcases hm : g.addLedgerEntry e context with ⟨g₁,st⟩
  rw [hm] at h
  cases st with
  | ok => cases h
  | _ =>
      cases h
      simp

theorem relearn_error {g g' : Graph} {e : LedgerEntry} {context : ConversationContext}
    {payload : Bytes} {status : Status} (h : relearn U env g e context payload = (g',.error status)) :
    status ≠ .ok := by
  unfold relearn at h
  rcases ho : observeWithMemory U (env e.id) g (textOf payload) (provenanceOf e) with ⟨g₁,st,kept⟩
  rw [ho] at h
  cases st with
  | ok =>
      simp only at h
      rcases hm : g₁.addLedgerEntry e context with ⟨g₂,st⟩
      rw [hm] at h
      cases st with
      | ok => cases h
      | _ =>
          cases h
          simp
  | _ =>
      cases h
      simp

theorem replayEntry_error {g g' : Graph} {e : LedgerEntry} {context : ConversationContext}
    {status : Status} (h : replayEntry U env items g e context = (g',.error status)) :
    status ≠ .ok := by
  unfold replayEntry at h
  split at h
  · simp only at h
    split at h
    · cases h
    · split at h
      · cases h
        simp
      · split at h
        · cases h
          simp
        · exact relearn_error h
  · exact mirror_error h
  · cases h
  · cases h
  · cases h

/-- The entry a replay passes, without migrations to come. -/
theorem replayStep_eased {g : Graph} {s : ReplayState} {report : ReplayReport}
    {e : LedgerEntry} (h : replayStep U env items ⟨g,[],report⟩ e = (s,.ok)) :
    replayStep U env items ⟨g.eased k,[],report⟩ e = (⟨s.graph.eased k,[],s.report⟩,.ok) ∧
      s.pending = [] := by
  unfold replayStep at h ⊢
  simp only [List.head?_nil,Option.filter_none] at h ⊢
  by_cases hschema : ¬schemaCanReplay e.schemaVersion
  · rw [if_pos hschema] at h
    cases h
  rw [if_neg hschema] at h ⊢
  rcases hctx : Ledger.entryContext items e.id with ⟨status,context⟩
  rw [hctx] at h
  cases status with
  | ok =>
      simp only at h ⊢
      rcases hentry : replayEntry U env items g e context with ⟨g',status | what⟩
      · rw [hentry] at h
        have hstatus : status = .ok := congrArg Prod.snd h
        exact absurd hstatus (replayEntry_error hentry)
      · rw [hentry] at h
        rw [replayEntry_eased hentry]
        cases h
        exact ⟨rfl,rfl⟩
  | _ => cases h

/-- Without migrations a replay that succeeds under ceilings succeeds where they are lifted. -/
theorem replayFrom_eased {g : Graph} {s : ReplayState} {report : ReplayReport}
    {entries : List LedgerEntry}
    (h : replayFrom U env items ⟨g,[],report⟩ entries = (s,.ok)) :
    replayFrom U env items ⟨g.eased k,[],report⟩ entries =
      (⟨s.graph.eased k,[],s.report⟩,.ok) := by
  induction entries generalizing g report with
  | nil =>
      cases h
      rfl
  | cons e rest ih =>
      unfold replayFrom at h ⊢
      rcases hstep : replayStep U env items ⟨g,[],report⟩ e with ⟨s₁,status⟩
      rw [hstep] at h
      cases status with
      | ok =>
          obtain ⟨hstep',hpending⟩ := replayStep_eased hstep
          rw [hstep']
          obtain ⟨g₁,pending,report₁⟩ := s₁
          obtain rfl : pending = [] := hpending
          exact ih h
      | _ => cases h

theorem replayFrom_unbounded {g : Graph} {s : ReplayState} {report : ReplayReport}
    {entries : List LedgerEntry} (h : replayFrom U env items ⟨g,[],report⟩ entries = (s,.ok)) :
    replayFrom U env items ⟨g.unbounded,[],report⟩ entries =
      (⟨s.graph.unbounded,[],s.report⟩,.ok) :=
  replayFrom_eased (k := .lift) h

end Replay

end Atperson.Core
