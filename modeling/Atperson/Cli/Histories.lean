import Atperson.Runs.Guarded
import Atperson.Ledger.Clean
import Atperson.Cli.Restorable
import Atperson.Sync.Learning

/-!
# The histories of a host

A host has a ledger, a snapshot and a journal, and a graph while a process runs. The process
observes, applies valence lines, and saves; operators withdraw, release and compact, expand
the network and rebuild. Whatever else a process does to its graph leaves the lineage alone.

Only histories whose ledger writes do not fail are followed: a step whose files fail is no
step. A process may end anywhere, and a line may be lost between the graph and the journal.
-/
namespace Atperson.Cli
open Wire
open Atperson.Core (Utf8proc IndexEnv Architecture Migration Lineage lastBoundary
  createWithArchitecture)
open Atperson.Sync (Thrown Learner ItemEnv SyncObservation processObservation)
open Atperson.Journal (JournalContents JournalValence)
open Ledger (Item Session Faults Op Disk Status)
open Runs

structure Host where
  session : Session
  snapshot : Option Core.Graph
  process : Option Core.Graph
  journal : List JournalValence

def Host.items (h : Host) : List Item := h.session.handle.items

inductive HostAct where
  /-- `load_or_create_graph`, with the topology planned for a new graph. -/
  | start (a : Topology)
  | setCapacity (nodes edges : ℕ)
  | observe (index : IndexEnv) (o : SyncObservation)
  /-- Any operation on the ledger. -/
  | ledger (faults : Faults) (op : Op)
  /-- A valence event, and its line unless the process ends before it is written. -/
  | valence (entry : JournalValence) (written : Bool)
  /-- Pruning, recall and whatever else leaves topology and migrations alone. -/
  | rework (g : Core.Graph)
  /-- `LanguageGraph::rebuild_from_ledger`. -/
  | rebuildFromLedger (env : UInt64 → IndexEnv)
  | save
  | stop
  /-- `run_neural_expand`. -/
  | expand (seed : UInt64) (target : Architecture)
  /-- `run_rebuild`. -/
  | rebuild (r : RebuildResources) (env : UInt64 → IndexEnv)

/-- A failed write of the ledger. -/
def isFileError : Thrown → Bool
  | .failed _ .io => true
  | _ => false

def lastEntryId (items : List Item) : UInt64 := (items.getLast?.map fun it => it.entry.id).getD 0

/-- The migration that `run_neural_expand` records. -/
def expansion (seed : UInt64) (target : Architecture) (items : List Item) (g : Core.Graph) :
    Migration where
  version := Core.migrationVersion
  seed
  ledgerBoundaryId := lastEntryId items
  source := g.neuralArchitecture
  target

/-- The snapshot behind an expansion, which leaves it alone where it is refused. -/
def expanded (seed : UInt64) (target : Architecture) (items : List Item) (g : Core.Graph) :
    Core.Graph :=
  match g.expandNeural (expansion seed target items g) with
  | (g,.ok) => g
  | _ => g

def reworked (g' g : Core.Graph) : Core.Graph :=
  if g'.neuralArchitecture = g.neuralArchitecture ∧ g'.neuralMigrations = g.neuralMigrations then g'
  else g

section Steps
variable (migrate : ℕ → Disk → Disk×Status) (U : Utf8proc)

/-- The graph of a process that rebuilds it, or as it was if the rebuild throws. -/
def rebuiltOr (env : UInt64 → IndexEnv) (items : List Item) (g : Core.Graph) : Core.Graph :=
  match rebuildFromLedger U env g items with
  | .ok (g,_) => g
  | .error _ => g

def Host.step (h : Host) : HostAct → Host
  | .start a =>
      match h.process with
      | some _ => h
      | none => {h with process := match h.snapshot with
          | some g => some g
          | none => createWithArchitecture .default a.architecture}
  | .setCapacity nodes edges => {h with process := h.process.map fun g => g.setCapacity nodes edges}
  | .observe index o =>
      match h.process with
      | none => h
      | some g =>
          match processObservation U ⟨none,index,none,none⟩ ⟨g,h.session,[]⟩ o with
          | (w,.ok _) => {h with session := w.session,process := some w.graph}
          | (w,.error e) =>
              if isFileError e then h else {h with session := w.session,process := none}
  | .ledger faults op =>
      match op.run migrate faults h.session with
      | none => h
      | some (s,statuses) => if ∀ st ∈ statuses, st ≠ .io then {h with session := s} else h
  | .valence entry written =>
      match h.process with
      | none => h
      | some g =>
          match applyJournalValence g entry with
          | .error _ => {h with process := none}
          | .ok g => {h with
              process := if written then some g else none
              journal := if written then h.journal++[entry] else h.journal}
  | .rework g' => {h with process := h.process.map (reworked g')}
  | .rebuildFromLedger env => {h with process := h.process.map (rebuiltOr U env h.items)}
  | .save =>
      match h.process with
      | none => h
      | some g => {h with snapshot := some g}
  | .stop => {h with process := none}
  | .expand seed target => {h with snapshot := h.snapshot.map (expanded seed target h.items)}
  | .rebuild r env =>
      match runRebuild U env r h.snapshot h.items {valence := h.journal} with
      | .ok g => {h with snapshot := some g}
      | .error _ => h

end Steps

def Host.fresh : Host := ⟨Ledger.createdSession,none,none,[]⟩

/-! ## The ledger only grows -/

/-- A sound ledger with no fewer entries. -/
structure Grown (s s' : Session) : Prop where
  sound : Ledger.Sound s'
  length : s.handle.items.length ≤ s'.handle.items.length

section Ledgers
variable {migrate : ℕ → Disk → Disk×Status} {s s' : Session}

theorem grown_advance (h : Ledger.Sound s) (hstep : Ledger.Advance migrate s s') : Grown s s' := by
  refine ⟨h.advance hstep,?_⟩
  cases hstep with
  | appended => simp [Session.withItems]
  | changed => simp [Session.withItems]
  | rewritten hrw => rw [hrw.length_eq]
  | reopened ho => rw [(h.reopen ho).2.1]

theorem grown_advances (h : Ledger.Sound s) (hrun : Ledger.Advances migrate s s') : Grown s s' := by
  refine hrun.invariant (P := Grown s) ⟨h,le_rfl⟩ fun a b ha hstep => ?_
  have hb := grown_advance ha.sound hstep
  exact ⟨hb.sound,ha.length.trans hb.length⟩

/-- Nothing was thrown because a file failed. -/
def FilesHeld {β : Type} (r : Except Thrown β) : Prop := ∀ e, r = .error e → isFileError e = false

theorem ledgerAppend_advances {fault : Option Ledger.CommitFault} {a : Ledger.AppendArgs}
    {r : Except Thrown (Ledger.LookupResult×UInt64)} (h : Sync.ledgerAppend fault s a = (s',r))
    (hr : FilesHeld r) : Ledger.Advances migrate s s' := by
  have hadv : (Ledger.append fault s a).2.status ≠ .io →
      Ledger.Advances migrate s (Ledger.append fault s a).1 := Ledger.append_advances
  unfold Sync.ledgerAppend at h
  rcases happ : Ledger.append fault s a with ⟨s₁,⟨result,id,status⟩⟩
  rw [happ] at h hadv
  have hs : s₁ = s' := by
    cases result <;> cases status <;> cases h <;> rfl
  refine hs ▸ hadv ?_
  rintro rfl
  cases result <;> cases h <;> exact absurd (hr _ rfl) (by decide)

theorem commitObservation_advances {U : Utf8proc} {env : ItemEnv} {w w' : Learner}
    {o : SyncObservation} {context : Ledger.ConversationContext} {id : UInt64}
    {r : Except Thrown Bool} (h : Sync.commitObservation U env w o context id = (w',r))
    (hr : FilesHeld r) : Ledger.Advances migrate w.session w'.session := by
  have hadv : (Ledger.setOutcome env.outcome w.session id o.outcome.toByte).2 ≠ .io →
      Ledger.Advances migrate w.session
        (Ledger.setOutcome env.outcome w.session id o.outcome.toByte).1 :=
    Ledger.setOutcome_advances
  unfold Sync.commitObservation at h
  split at h
  · cases h
    exact .refl
  · rcases hset : Ledger.setOutcome env.outcome w.session id o.outcome.toByte with ⟨s₁,status⟩
    rw [hset] at h hadv
    have hs : s₁ = w'.session := by
      cases status with
      | ok =>
          simp only at h
          split at h <;> cases h <;> rfl
      | _ => cases h; rfl
    refine hs ▸ hadv ?_
    rintro rfl
    cases h
    exact absurd (hr _ rfl) (by decide)

theorem processObservation_advances {U : Utf8proc} {env : ItemEnv} {w w' : Learner}
    {o : SyncObservation} {r : Except Thrown Bool} (h : processObservation U env w o = (w',r))
    (hr : FilesHeld r) : Ledger.Advances migrate w.session w'.session := by
  unfold processObservation at h
  split at h
  · cases h
    exact .refl
  · rename_i context _
    rcases happ : Sync.ledgerAppend env.append w.session (o.appendArgs context) with ⟨s₁,e | ⟨a,id⟩⟩
    · rw [happ] at h
      cases h
      exact ledgerAppend_advances happ fun x hx => hr x (by rw [Except.error.inj hx])
    · have hfirst : Ledger.Advances migrate w.session s₁ := ledgerAppend_advances happ nofun
      rw [happ] at h
      cases a with
      | existsCommitted =>
          cases h
          exact hfirst
      | _ => exact hfirst.trans (commitObservation_advances h hr)

end Ledgers

/-! ## The lineage goes on -/

section Lineages
variable {n : ℕ} {g g' : Core.Graph}

theorem Pedigree.mono (h : Pedigree n g) {n' : ℕ} (hle : n ≤ n') : Pedigree n' g := by
  obtain ⟨a,ha,hl⟩ := h
  exact ⟨a,ha,hl.mono hle⟩

theorem Pedigree.of_same (h : Pedigree n g) (ha : g'.neuralArchitecture = g.neuralArchitecture)
    (hm : g'.neuralMigrations = g.neuralMigrations) : Pedigree n g' := by
  unfold Pedigree
  rw [ha,hm]
  exact h

theorem newGraph_pedigree {a : Architecture} (h : newGraph a = .ok g) :
    (Core.layoutBuild a).isSome = true ∧ Pedigree n g := by
  have hlaid : (Core.layoutBuild a).isSome = true := by
    unfold newGraph createWithArchitecture Core.networkInit at h
    cases hl : Core.layoutBuild a with
    | none =>
        rw [hl] at h
        cases h
    | some layout => rfl
  refine ⟨hlaid,a,hlaid,?_⟩
  rw [newGraph_architecture h,(newGraph_ok h).2.1]
  exact rfl

theorem Pedigree.reworked (h : Pedigree n g) (g' : Core.Graph) : Pedigree n (Cli.reworked g' g) := by
  unfold Cli.reworked
  split
  · rename_i hsame
    exact h.of_same hsame.1 hsame.2
  · exact h

theorem Pedigree.rebuiltOr (h : Pedigree n g) (U : Utf8proc) (env : UInt64 → IndexEnv)
    (items : List Item) : Pedigree n (Cli.rebuiltOr U env items g) := by
  unfold Cli.rebuiltOr
  split
  · rename_i rebuilt report hr
    obtain ⟨fresh,hnew,hreplay⟩ := bind_ok.mp hr
    have hret := Core.retains_replayLedger (replayGraph_ok.mp hreplay)
    obtain ⟨-,hp⟩ := newGraph_pedigree (n := n) hnew
    refine hp.of_same (hret.topology rfl) ?_
    rw [hret.migrations,List.append_nil]
  · exact h

theorem Pedigree.expanded {items : List Item} (hm : Ledger.IdsMatch items)
    (h : Pedigree items.length g) (seed : UInt64) (target : Architecture) :
    Pedigree items.length (Cli.expanded seed target items g) := by
  unfold Cli.expanded
  rcases hexp : g.expandNeural (expansion seed target items g) with ⟨g',status⟩
  cases status with
  | ok =>
      obtain ⟨a,ha,hl⟩ := h
      have hid : (expansion seed target items g).ledgerBoundaryId.toNat = items.length := by
        have hlast := Core.lastId_length hm
        unfold expansion lastEntryId
        generalize items.getLast? = l at hlast ⊢
        cases l <;> exact hlast
      unfold Core.Graph.expandNeural at hexp
      split at hexp
      · cases hexp
      · rename_i hpass
        have hvalid : (expansion seed target items g).valid = true :=
          not_not.mp (not_or.mp hpass).1
        split at hexp
        · cases hexp
        · cases hexp
          refine ⟨a,ha,hl.concat hvalid rfl (Nat.zero_le _) ?_ hid.le⟩
          rw [hid]
          exact hl.lastBoundary_le
  | _ => exact h

theorem Pedigree.restored {persisted : Option Core.Graph} {items : List Item}
    (hp : ∀ g ∈ persisted, Pedigree n g) {U : Utf8proc} {env : UInt64 → IndexEnv}
    {r : RebuildResources} {journal : JournalContents}
    (h : runRebuild U env r persisted items journal = .ok g') : Pedigree n g' := by
  unfold runRebuild at h
  generalize hplan : rebuildPlan r persisted = plan at h
  obtain ⟨-,-,h⟩ := bind_ok.mp h
  obtain ⟨-,-,h⟩ := bind_ok.mp h
  obtain ⟨-,-,h⟩ := bind_ok.mp h
  obtain ⟨fresh,hnew,h⟩ := bind_ok.mp h
  obtain ⟨-,-,h⟩ := bind_ok.mp h
  obtain ⟨⟨replayed,report⟩,hreplay,h⟩ := bind_ok.mp h
  obtain ⟨u,htop,h⟩ := bind_ok.mp h
  obtain ⟨-,-,h⟩ := bind_ok.mp h
  have happ := foldlM_applied h
  have hret := Core.retains_replayLedger (replayGraph_ok.mp hreplay)
  have htop := of_decide_eq_true (checkThat_ok.mp htop)
  have hnone : (fresh.setCapacity (r.ceilings plan.1).1
      (r.ceilings plan.1).2).neuralMigrations = [] := (newGraph_ok hnew).2.1
  have hmig := happ.migrations.trans hret.migrations
  rw [hnone,List.nil_append] at hmig
  subst hplan
  cases persisted with
  | none =>
      obtain ⟨hlaid,-⟩ := newGraph_pedigree (n := n) hnew
      refine ⟨_,hlaid,?_⟩
      rw [hmig,happ.topology]
      exact htop.symm
  | some g => exact (hp g rfl).of_same (happ.topology.trans htop) hmig

/-- What follows the reservation leaves all but the mirror of the graph's frame alone. -/
theorem commitObservation_lineage {U : Utf8proc} {env : ItemEnv} {w w' : Learner}
    {o : SyncObservation} {context : Ledger.ConversationContext} {id : UInt64}
    {r : Except Thrown Bool} (h : Sync.commitObservation U env w o context id = (w',r)) :
    w'.graph.neuralArchitecture = w.graph.neuralArchitecture ∧
      w'.graph.neuralMigrations = w.graph.neuralMigrations := by
  have hback := Sync.rememberObservation_backdrop U env w.graph o id
  have harch := congrArg Core.Backdrop.neuralArchitecture hback
  have hmig := congrArg Core.Backdrop.neuralMigrations hback
  unfold Sync.commitObservation at h
  rcases hrem : Sync.rememberObservation U env w.graph o id with ⟨g,e | u⟩
  · rw [hrem] at h harch hmig
    cases h
    exact ⟨harch,hmig⟩
  · rw [hrem] at h harch hmig
    rcases hset : Ledger.setOutcome env.outcome w.session id o.outcome.toByte with ⟨s₁,status⟩
    rw [hset] at h
    cases status with
    | ok =>
        rcases hadd : g.addLedgerEntry (o.entry id) context with ⟨g',status⟩
        have hsame : g'.neuralArchitecture = g.neuralArchitecture ∧
            g'.neuralMigrations = g.neuralMigrations := by
          unfold Core.Graph.addLedgerEntry at hadd
          split at hadd <;> cases hadd <;> exact ⟨rfl,rfl⟩
        simp only [hadd] at h
        have hw : w'.graph = g' := by
          cases status <;> cases h <;> rfl
        rw [hw]
        exact ⟨hsame.1.trans harch,hsame.2.trans hmig⟩
    | _ =>
        cases h
        exact ⟨harch,hmig⟩

/-- An observation leaves all but the mirror of the graph's frame alone. -/
theorem processObservation_lineage {U : Utf8proc} {env : ItemEnv} {w w' : Learner}
    {o : SyncObservation} {r : Except Thrown Bool} (h : processObservation U env w o = (w',r)) :
    w'.graph.neuralArchitecture = w.graph.neuralArchitecture ∧
      w'.graph.neuralMigrations = w.graph.neuralMigrations := by
  unfold processObservation at h
  split at h
  · cases h
    exact ⟨rfl,rfl⟩
  · rename_i context _
    rcases happ : Sync.ledgerAppend env.append w.session (o.appendArgs context) with ⟨s₁,e | ⟨a,id⟩⟩
    · rw [happ] at h
      cases h
      exact ⟨rfl,rfl⟩
    · rw [happ] at h
      cases a with
      | existsCommitted =>
          cases h
          exact ⟨rfl,rfl⟩
      | _ => exact commitObservation_lineage (w := {w with session := s₁}) h

end Lineages

/-! ## Every history -/

/-- What every history keeps. -/
structure Host.Sound (h : Host) : Prop where
  ledger : Ledger.Sound h.session
  snapshot : ∀ g ∈ h.snapshot, Pedigree h.items.length g
  process : ∀ g ∈ h.process, Pedigree h.items.length g
  sayable : ∀ entry ∈ h.journal, Sayable entry

theorem Host.sound_fresh : Host.fresh.Sound :=
  ⟨Ledger.sound_created,nofun,nofun,nofun⟩

section Histories
variable {migrate : ℕ → Disk → Disk×Status} {U : Utf8proc} {h : Host}

/-- A ledger that grew, under the same snapshot and the same journal. -/
theorem Host.Sound.grown (hs : h.Sound) {s : Session} (hg : Grown h.session s)
    {process : Option Core.Graph} (hp : ∀ g ∈ process, Pedigree s.handle.items.length g) :
    Host.Sound {h with session := s, process} :=
  ⟨hg.sound,fun g hg' => (hs.snapshot g hg').mono hg.length,hp,hs.sayable⟩

/-- A process whose graph is of the same lineage. -/
theorem Host.Sound.ran (hs : h.Sound) {process : Option Core.Graph}
    (hp : ∀ g ∈ process, Pedigree h.items.length g) : Host.Sound {h with process} :=
  ⟨hs.ledger,hs.snapshot,hp,hs.sayable⟩

theorem Host.Sound.saved (hs : h.Sound) {snapshot : Option Core.Graph}
    (hp : ∀ g ∈ snapshot, Pedigree h.items.length g) : Host.Sound {h with snapshot} :=
  ⟨hs.ledger,hp,hs.process,hs.sayable⟩

theorem Host.Sound.step (hs : h.Sound) (act : HostAct) : (h.step migrate U act).Sound := by
  obtain ⟨log,hclean⟩ := hs.ledger.clean
  cases act with
  | start a =>
      simp only [Host.step]
      split
      · exact hs
      · refine hs.ran fun g hg => ?_
        split at hg
        · rename_i p hp
          cases hg
          exact hs.snapshot _ hp
        · have hnew : newGraph a.architecture = .ok g := by
            unfold newGraph
            rw [Option.mem_def.mp hg]
          exact (newGraph_pedigree hnew).2
  | setCapacity nodes edges =>
      refine hs.ran fun g hg => ?_
      obtain ⟨p,hp,rfl⟩ := Option.map_eq_some_iff.mp hg
      exact (hs.process p hp).of_same rfl rfl
  | observe index o =>
      simp only [Host.step]
      split
      · exact hs
      · rename_i g hg
        split
        · rename_i w b hw
          have hadv : Ledger.Advances migrate h.session w.session :=
            processObservation_advances hw nofun
          have hgrown := grown_advances hs.ledger hadv
          obtain ⟨ha,hm⟩ := processObservation_lineage hw
          refine hs.grown hgrown fun g' hg' => ?_
          cases hg'
          exact ((hs.process g hg).of_same ha hm).mono hgrown.length
        · rename_i w e hw
          split
          · exact hs
          · rename_i hio
            have hadv : Ledger.Advances migrate h.session w.session :=
              processObservation_advances hw fun x hx => by
                rw [← Except.error.inj hx]
                exact Bool.eq_false_iff.mpr hio
            exact hs.grown (grown_advances hs.ledger hadv) nofun
  | ledger faults op =>
      simp only [Host.step]
      split
      · exact hs
      · rename_i s statuses hrun
        split
        · rename_i hok
          have hgrown := grown_advances hs.ledger (Op.run_advances hrun hok)
          exact hs.grown hgrown fun g hg => (hs.process g hg).mono hgrown.length
        · exact hs
  | valence entry written =>
      simp only [Host.step]
      split
      · exact hs
      · rename_i g hg
        split
        · exact hs.ran nofun
        · rename_i g' hg'
          obtain ⟨hsay,hmarks⟩ := applyJournalValence_marks hg'
          have hp := (hs.process g hg).of_same hmarks.topology hmarks.migrations
          cases written with
          | false => exact hs.ran nofun
          | true =>
              refine ⟨hs.ledger,hs.snapshot,fun x hx => ?_,fun x hx => ?_⟩
              · cases hx
                exact hp
              · rcases List.mem_append.mp hx with hx | hx
                · exact hs.sayable x hx
                · exact List.mem_singleton.mp hx ▸ hsay
  | rework g' =>
      refine hs.ran fun g hg => ?_
      obtain ⟨p,hp,rfl⟩ := Option.map_eq_some_iff.mp hg
      exact (hs.process p hp).reworked g'
  | rebuildFromLedger env =>
      refine hs.ran fun g hg => ?_
      obtain ⟨p,hp,rfl⟩ := Option.map_eq_some_iff.mp hg
      exact (hs.process p hp).rebuiltOr U env h.items
  | save =>
      simp only [Host.step]
      split
      · exact hs
      · rename_i g hg
        refine hs.saved fun x hx => ?_
        cases hx
        exact hs.process g hg
  | stop => exact hs.ran nofun
  | expand seed target =>
      refine hs.saved fun g hg => ?_
      obtain ⟨p,hp,rfl⟩ := Option.map_eq_some_iff.mp hg
      exact (hs.snapshot p hp).expanded hclean.idsMatch seed target
  | rebuild r env =>
      simp only [Host.step]
      split
      · rename_i g hg
        refine hs.saved fun x hx => ?_
        cases hx
        exact Pedigree.restored hs.snapshot hg
      · exact hs

theorem Host.Sound.run (hs : h.Sound) (acts : List HostAct) :
    (runFrom (Host.step migrate U) h acts).Sound := by
  induction acts generalizing h with
  | nil => exact hs
  | cons act rest ih => exact ih (hs.step act)

end Histories

/-- In every history, with ample headroom: the rebuild completes, with every token's valence
the fold of its lines, exactly where the ledger is legible, the ceilings admit its texts, and
every journal line names a token of a text that is still learned. -/
theorem rebuild_completes_iff (migrate : ℕ → Disk → Disk×Status) (U : Utf8proc)
    (env : UInt64 → IndexEnv) (c : ℕ×ℕ) (a : Topology) (acts : List HostAct) :
    (∃ g, runRebuild U env (.ample c a.architecture)
        (runFrom (Host.step migrate U) .fresh acts).snapshot
        (runFrom (Host.step migrate U) .fresh acts).items
        {valence := (runFrom (Host.step migrate U) .fresh acts).journal} = .ok g ∧
      Folded (runFrom (Host.step migrate U) .fresh acts).journal g) ↔
    Restorable U c (runFrom (Host.step migrate U) .fresh acts).items
      (runFrom (Host.step migrate U) .fresh acts).journal := by
  have hs : (runFrom (Host.step migrate U) .fresh acts).Sound := Host.sound_fresh.run acts
  obtain ⟨log,hclean⟩ := hs.ledger.clean
  exact runRebuild_iff hclean.idsMatch hs.ledger.sourced a.laidOut hs.snapshot hs.sayable

/-! A post is learned, its token is given a valence, and the post is withdrawn. -/

namespace Sample

def post : SyncObservation where
  text := [97]
  sourceUri := [115]
  authorDid := []
  createdAt := []
  policyReason := .eligible
  context := ⟨[],[],[]⟩

def topology : Topology := ⟨.legacy,by decide +kernel⟩

def withdrawing : List HostAct :=
  [.start topology,.observe .calm post,.valence valenceLine true,.save,.stop,
    .ledger .none (.withdraw 1)]

def withdrawn : Host := runFrom (Host.step Ledger.noMigration .plain) .fresh withdrawing

def restoring : Except Thrown Core.Graph :=
  runRebuild .plain (fun _ => .calm) (.ample (0,0) Architecture.legacy) withdrawn.snapshot
    withdrawn.items {valence := withdrawn.journal}

/-- The snapshot has the token, the journal the line, and the ledger no text any more. -/
def summary : Option ℕ×ℕ×List Ledger.Outcome×Bool :=
  (withdrawn.snapshot.map fun g => g.valenceRecords.length,withdrawn.journal.length,
    withdrawn.items.map fun it => it.entry.outcome,restoring.toOption.isSome)

/-- The line the live graph accepted stops the rebuild. -/
theorem withdrawal_stops_rebuild :
    (withdrawn.snapshot.map fun g => g.valenceRecords.length) = some 1 ∧
      withdrawn.journal.length = 1 ∧ ¬∃ g, restoring = .ok g := by
  have hsummary : summary = (some 1,1,[.withdrawn],false) := by decide +kernel
  obtain ⟨hrecords,hrest⟩ := Prod.mk.inj hsummary
  obtain ⟨hlines,hrest⟩ := Prod.mk.inj hrest
  obtain ⟨-,hfailed⟩ := Prod.mk.inj hrest
  refine ⟨hrecords,hlines,?_⟩
  rintro ⟨g,hg⟩
  rw [hg] at hfailed
  cases hfailed

end Sample

end Atperson.Cli
