import Atperson.Runs.Guarded
import Atperson.Sync.Faithful

/-!
# What a restart remembers

The ledger is durable entry by entry, the graph only when its snapshot is saved. A process that
starts takes the snapshot as it is: what was committed behind it is in the ledger, is never
trained again, and is not in the graph.

A process takes one observation after another and saves now and then, as the commands that
ingest and sync and the daemon do. It ends without a save when it crashes, and when an
observation throws. A crash inside an observation leaves the ledger behind one of its two
commits, and the commit itself is all or nothing. A text was trained as often as the graph was
taught it; the ids it was taught under are kept beside the graph.
-/
namespace Atperson.Sync
open Wire
open Atperson.Core (Graph Utf8proc IndexEnv Architecture Mirrored createWithArchitecture textOf)
open Ledger (Outcome LedgerEntry Session Item Numbered setOutcomeAt)
open Runs

/-- A graph with the ids it was taught under. -/
structure Memory where
  graph : Graph
  trained : List UInt64

/-- The ledger, the snapshot, and the memory of the process if there is one. -/
structure Station where
  session : Session
  snapshot : Option Memory
  process : Option Memory

/-- Behind which commit of an observation a crash falls. -/
inductive CrashPoint where
  | reserved
  | committed
  deriving DecidableEq

inductive StationAct where
  /-- `load_or_create_graph`, with the topology of a new graph and whether there is headroom. -/
  | start (a : Architecture) (headroom : Bool)
  | setCapacity (nodes edges : ℕ)
  | observe (index : IndexEnv) (o : SyncObservation)
  | crashIn (index : IndexEnv) (o : SyncObservation) (point : CrashPoint)
  | crash
  | save

/-- An observation whose commits succeed. -/
def ItemEnv.committing (index : IndexEnv) : ItemEnv := ⟨none,index,none,none⟩

def Station.items (s : Station) : List Item := s.session.handle.items

section Steps
variable (U : Utf8proc)

/-- The id under which an observation trains its text, if it does. -/
def trains (env : ItemEnv) (w : Learner) (o : SyncObservation) : Option UInt64 :=
  match o.context.toC with
  | .error _ => none
  | .ok context =>
      match ledgerAppend env.append w.session (o.appendArgs context) with
      | (_,.error _) => none
      | (_,.ok (.existsCommitted,_)) => none
      | (_,.ok (_,id)) =>
          if o.outcome = .learned ∧ w.graph.fitsBudget U (textOf o.text) then some id else none

def loadOrCreateGraph (snapshot : Option Memory) (a : Architecture) (headroom : Bool) :
    Option Memory :=
  if headroom then
    match snapshot with
    | some m => some m
    | none => (createWithArchitecture .default a).map fun g => ⟨g,[]⟩
  else none

/-- The ledger a crash leaves. -/
def crashedSession (index : IndexEnv) (m : Memory) (s : Session) (o : SyncObservation) :
    CrashPoint → Session
  | .reserved =>
      match o.context.toC with
      | .error _ => s
      | .ok context => (ledgerAppend none s (o.appendArgs context)).1
  | .committed => (processObservation U (.committing index) ⟨m.graph,s,[]⟩ o).1.session

/-- One step; a step that needs a process, or none, changes nothing otherwise. -/
def Station.step (s : Station) : StationAct → Station
  | .start a headroom =>
      match s.process with
      | some _ => s
      | none => {s with process := loadOrCreateGraph s.snapshot a headroom}
  | .setCapacity nodes edges =>
      {s with process := s.process.map fun m => {m with graph := m.graph.setCapacity nodes edges}}
  | .observe index o =>
      match s.process with
      | none => s
      | some m =>
          let w : Learner := ⟨m.graph,s.session,[]⟩
          match processObservation U (.committing index) w o with
          | (w',.ok _) => {s with
              session := w'.session
              process := some ⟨w'.graph,m.trained++(trains U (.committing index) w o).toList⟩}
          | (w',.error _) => {s with session := w'.session,process := none}
  | .crashIn index o point =>
      match s.process with
      | none => s
      | some m => {s with session := crashedSession U index m s.session o point,process := none}
  | .crash => {s with process := none}
  | .save =>
      match s.process with
      | none => s
      | some m => {s with snapshot := some m}

end Steps

/-- The mirror lists an id. -/
def Lists (g : Graph) (id : UInt64) : Prop := ∃ x ∈ g.ledger, x.entry.id = id

/-- Every learned entry is in the mirror and was trained once. -/
def Remembers (items : List Item) (m : Memory) : Prop :=
  ∀ it ∈ items, it.outcome = .learned → Lists m.graph it.entry.id ∧ m.trained.count it.entry.id = 1

/-- A process that starts finds every learned entry in the mirror of the snapshot. -/
def Caught (s : Station) : StationAct → Prop
  | .start _ _ => s.process = none → ∀ it ∈ s.items, it.outcome = .learned →
      ∃ m, s.snapshot = some m ∧ Lists m.graph it.entry.id
  | _ => True

/-! ## What an observation leaves of the ledger -/

/-- Committed entries stay. -/
def Extends (items items' : List Item) : Prop :=
  ∀ it ∈ items, it.outcome.isCommitted = true → it ∈ items'

section Ledgers
variable {U : Utf8proc} {env : ItemEnv} {w w' : Learner} {o : SyncObservation}

theorem Extends.refl (items : List Item) : Extends items items := fun _ hit _ => hit

theorem Extends.trans {items items' items'' : List Item} (h : Extends items items')
    (h' : Extends items' items'') : Extends items items'' :=
  fun it hit hc => h' it (h it hit hc) hc

theorem extends_append (items : List Item) (it : Item) : Extends items (items++[it]) :=
  fun _ hit _ => List.mem_append_left _ hit

theorem extends_setOutcomeAt {items : List Item} {i : ℕ} {it : Item} (o : Outcome)
    (hi : items[i]? = some it) (hun : it.outcome.isCommitted = false) :
    Extends items (setOutcomeAt i o items) := by
  intro x hx hc
  obtain ⟨j,hj⟩ := List.mem_iff_getElem?.mp hx
  refine List.mem_of_getElem? (i := j) ?_
  rw [Ledger.getElem?_setOutcomeAt]
  split
  · rename_i he
    subst he
    obtain rfl := Option.some.inj (hi.symm.trans hj)
    rw [hc] at hun
    cases hun
  · exact hj

theorem Reserves.extends {s s' : Session} {id : UInt64} (h : Reserves s s' id) :
    Extends s.handle.items s'.handle.items := by
  rcases h.grown with he | ⟨it,he,-⟩
  · rw [he]
    exact .refl _
  · rw [he]
    exact extends_append _ _

theorem extends_ledgerAppend {fault : Option Ledger.CommitFault} {s s' : Session}
    {context : Ledger.ConversationContext} {r : Except Thrown (Ledger.LookupResult×UInt64)}
    (hnum : Numbered s) (h : ledgerAppend fault s (o.appendArgs context) = (s',r)) :
    Extends s.handle.items s'.handle.items := by
  rcases r with e | ⟨r,id⟩
  · rw [ledgerAppend_failed h]
    exact .refl _
  · rcases ledgerAppend_cases hnum rfl h with ⟨-,rfl⟩ | ⟨-,hres⟩
    · exact .refl _
    · exact hres.extends

theorem extends_commitObservation {context : Ledger.ConversationContext} {id : UInt64}
    {s : Session} {r : Except Thrown Bool} (hres : Reserves s w.session id)
    (h : commitObservation U env w o context id = (w',r)) : Extends w.items w'.items := by
  obtain ⟨it,hit,-,hun⟩ := hres.uncommitted
  unfold commitObservation at h
  split at h
  · cases h
    exact .refl _
  · rcases hset : Ledger.setOutcome env.outcome w.session id o.outcome.toByte with ⟨s',status⟩
    rw [hset] at h
    cases status with
    | ok =>
        have hitems := setOutcome_commits (outcome_committed o) hit hun hset
        have hext : Extends w.items s'.handle.items := by
          rw [hitems]
          exact extends_setOutcomeAt _ hit hun
        simp only at h
        split at h <;> cases h <;> exact hext
    | _ =>
        have hitems := setOutcome_failed hset (by simp)
        cases h
        rw [Learner.items,Learner.items,hitems]
        exact .refl _

theorem extends_processObservation {reply : Except Thrown Bool} (hnum : Numbered w.session)
    (h : processObservation U env w o = (w',reply)) : Extends w.items w'.items := by
  unfold processObservation at h
  split at h
  · cases h
    exact .refl _
  · rename_i context hctx
    rcases ha : ledgerAppend env.append w.session (o.appendArgs context) with ⟨s,e | ⟨r,id⟩⟩
    · rw [ha] at h
      cases h
      exact extends_ledgerAppend hnum ha
    · rw [ha] at h
      rcases ledgerAppend_cases hnum rfl ha with ⟨rfl,rfl⟩ | ⟨hr,hres⟩
      · cases h
        exact .refl _
      · have h' : commitObservation U env {w with session := s} o context id = (w',reply) := by
          cases r with
          | existsCommitted => exact absurd rfl hr
          | _ => exact h
        exact hres.extends.trans (extends_commitObservation (w := {w with session := s}) hres h')

/-- What an observation that returns has done: nothing, or the entry it reserved is committed and
mirrored, and its text trained under its id if it is learned. -/
inductive Taken (U : Utf8proc) (env : ItemEnv) (w w' : Learner) (o : SyncObservation) : Prop
  | known : w'.graph = w.graph → w'.items = w.items → trains U env w o = none → Taken U env w w' o
  | new (s : Session) (id : UInt64) (context : Ledger.ConversationContext) :
      Reserves w.session s id → w'.items = setOutcomeAt (id.toNat-1) o.outcome s.handle.items →
      w'.graph.ledger = w.graph.ledger++[⟨o.entry id,context⟩] →
      trains U env w o = (if o.outcome = .learned then some id else none) → Taken U env w w' o

theorem fitsBudget_of_remembered {g g' : Graph} {id : UInt64} (hl : o.outcome = .learned)
    (h : rememberObservation U env g o id = (g',.ok ())) : g.fitsBudget U (textOf o.text) := by
  by_contra hfits
  unfold rememberObservation Core.observeWithMemory at h
  rw [if_pos hl,if_pos hfits] at h
  cases h

theorem taken_processObservation {new : Bool} (hnum : Numbered w.session)
    (h : processObservation U env w o = (w',.ok new)) : Taken U env w w' o := by
  unfold processObservation at h
  split at h
  · cases h
  rename_i context hctx
  rcases ha : ledgerAppend env.append w.session (o.appendArgs context) with ⟨s,e | ⟨r,id⟩⟩
  · rw [ha] at h
    cases h
  rw [ha] at h
  rcases ledgerAppend_cases hnum rfl ha with ⟨rfl,rfl⟩ | ⟨hr,hres⟩
  · cases h
    exact .known rfl rfl (by simp only [trains,hctx,ha])
  have hc : commitObservation U env {w with session := s} o context id = (w',.ok new) := by
    cases r with
    | existsCommitted => exact absurd rfl hr
    | _ => exact h
  have htrains : trains U env w o =
      if o.outcome = .learned ∧ w.graph.fitsBudget U (textOf o.text) then some id else none := by
    simp only [trains,hctx,ha]
  obtain ⟨it,hit,-,hun⟩ := hres.uncommitted
  have hback := rememberObservation_backdrop U env w.graph o id
  unfold commitObservation at hc
  rcases hrem : rememberObservation U env w.graph o id with ⟨g,e | u⟩
  · rw [hrem] at hc
    cases hc
  rw [hrem] at hc hback
  simp only at hc
  split at hc
  · rename_i s' hset
    split at hc
    · rename_i g' hmirror
      cases hc
      refine .new s id context hres (setOutcome_commits (outcome_committed o) hit hun hset) ?_ ?_
      · have hledger := congrArg Core.Backdrop.ledger (Core.backdrop_addLedgerEntry hmirror)
        have hkept := congrArg Core.Backdrop.ledger hback
        change g'.ledger = g.ledger++_ at hledger
        change g.ledger = w.graph.ledger at hkept
        rw [hledger,hkept]
      · rw [htrains]
        by_cases hl : o.outcome = .learned
        · rw [if_pos hl,if_pos ⟨hl,fitsBudget_of_remembered hl hrem⟩]
        · rw [if_neg hl,if_neg fun hand => hl hand.1]
    · cases hc
  · cases hc

end Ledgers

/-! ## What a memory keeps -/

/-- A memory was trained once on what it lists as learned, and what it lists is committed. -/
structure Kept (items : List Item) (m : Memory) : Prop where
  once : m.trained.Nodup
  listed : ∀ id ∈ m.trained, Lists m.graph id
  taught : ∀ x ∈ m.graph.ledger, x.entry.outcome = .learned → x.entry.id ∈ m.trained
  committed : ∀ x ∈ m.graph.ledger, ∃ it ∈ items, it.entry.id = x.entry.id ∧
    it.outcome = x.entry.outcome ∧ it.outcome.isCommitted = true

/-- The mirror lists every learned entry. -/
def ListsAll (items : List Item) (m : Memory) : Prop :=
  ∀ it ∈ items, it.outcome = .learned → Lists m.graph it.entry.id

section Memories
variable {U : Utf8proc} {items items' : List Item} {m : Memory}

theorem Kept.extends (h : Kept items m) (he : Extends items items') : Kept items' m where
  once := h.once
  listed := h.listed
  taught := h.taught
  committed := fun x hx => by
    obtain ⟨it,hit,hid,hout,hc⟩ := h.committed x hx
    exact ⟨it,he it hit hc,hid,hout,hc⟩

theorem Kept.setCapacity (h : Kept items m) (nodes edges : ℕ) :
    Kept items {m with graph := m.graph.setCapacity nodes edges} :=
  ⟨h.once,h.listed,h.taught,h.committed⟩

/-- Entries with the same id are the same. -/
theorem eq_of_id (hm : Ledger.IdsMatch items) {it it' : Item} (hit : it ∈ items)
    (hit' : it' ∈ items) (h : it.entry.id = it'.entry.id) : it = it' := by
  obtain ⟨i,hi⟩ := List.mem_iff_getElem?.mp hit
  obtain ⟨j,hj⟩ := List.mem_iff_getElem?.mp hit'
  have hi' := hm i it hi
  have hj' := hm j it' hj
  rw [h] at hi'
  obtain rfl : i = j := by omega
  exact Option.some.inj (hi.symm.trans hj)

theorem Kept.remembers (hm : Ledger.IdsMatch items) (h : Kept items m) (hall : ListsAll items m) :
    Remembers items m := by
  intro it hit hl
  obtain ⟨x,hx,hid⟩ := hall it hit hl
  refine ⟨⟨x,hx,hid⟩,?_⟩
  obtain ⟨it',hit',hid',hout,-⟩ := h.committed x hx
  obtain rfl := eq_of_id hm hit hit' (hid.symm.trans hid'.symm)
  have htrained := h.taught x hx (hout ▸ hl)
  rw [hid] at htrained
  exact List.count_eq_one_of_mem h.once htrained

/-- An observation that returns is kept. -/
theorem Kept.take {env : ItemEnv} {w w' : Learner} {o : SyncObservation} {trained : List UInt64}
    (h : Kept w.items ⟨w.graph,trained⟩)
    (hall : ListsAll w.items ⟨w.graph,trained⟩) (htaken : Taken U env w w' o) :
    Kept w'.items ⟨w'.graph,trained++(trains U env w o).toList⟩ ∧
      ListsAll w'.items ⟨w'.graph,trained++(trains U env w o).toList⟩ := by
  cases htaken with
  | known hgraph hitems hnone =>
      rw [hgraph,hitems,hnone,Option.toList_none,List.append_nil]
      exact ⟨h,hall⟩
  | new s id context hres hitems hledger htrains =>
      obtain ⟨it,hit,hid,hun⟩ := hres.uncommitted
      have hext : Extends w.items w'.items := by
        rw [hitems]
        exact hres.extends.trans (extends_setOutcomeAt _ hit hun)
      have hnew : it.withOutcome o.outcome ∈ w'.items := by
        refine List.mem_of_getElem? (i := id.toNat-1) ?_
        rw [hitems,Ledger.getElem?_setOutcomeAt,if_pos rfl,hit]
        rfl
      have hlists : Lists w'.graph id := ⟨⟨o.entry id,context⟩,by rw [hledger]; simp,rfl⟩
      have hgrown : ∀ id', Lists w.graph id' → Lists w'.graph id' := by
        rintro id' ⟨x,hx,hx'⟩
        exact ⟨x,by rw [hledger]; exact List.mem_append_left _ hx,hx'⟩
      -- an id that was trained is committed, and the reserved entry was not
      have hfresh : id ∉ trained := by
        intro hmem
        obtain ⟨x,hx,hx'⟩ := h.listed id hmem
        obtain ⟨it',hit',hid',-,hc⟩ := h.committed x hx
        obtain rfl := eq_of_id hres.numbered.ids (hres.extends it' hit' hc)
          (List.mem_of_getElem? hit) (hid'.trans (hx'.trans hid.symm))
        rw [hc] at hun
        cases hun
      rw [htrains]
      refine ⟨⟨?_,?_,?_,?_⟩,?_⟩
      · split
        · exact List.nodup_append.mpr ⟨h.once,List.nodup_singleton _,fun a ha b hb hab =>
            hfresh (List.mem_singleton.mp hb ▸ hab ▸ ha)⟩
        · simpa using h.once
      · intro id' hid'
        rcases List.mem_append.mp hid' with hold | hlast
        · exact hgrown id' (h.listed id' hold)
        · split at hlast
          · rw [List.mem_singleton.mp hlast]
            exact hlists
          · cases hlast
      · intro x hx hl
        rw [hledger] at hx
        rcases List.mem_append.mp hx with hold | hlast
        · exact List.mem_append_left _ (h.taught x hold hl)
        · obtain rfl := List.mem_singleton.mp hlast
          have hlearned : o.outcome = .learned := hl
          rw [if_pos hlearned]
          exact List.mem_append_right _ (List.mem_singleton.mpr rfl)
      · intro x hx
        rw [hledger] at hx
        rcases List.mem_append.mp hx with hold | hlast
        · obtain ⟨it',hit',hid',hout,hc⟩ := h.committed x hold
          exact ⟨it',hext it' hit' hc,hid',hout,hc⟩
        · obtain rfl := List.mem_singleton.mp hlast
          exact ⟨_,hnew,hid,rfl,outcome_committed o⟩
      · intro it' hit' hl
        obtain ⟨i,hi⟩ := List.mem_iff_getElem?.mp hit'
        rw [hitems,Ledger.getElem?_setOutcomeAt] at hi
        split at hi
        · rename_i he
          rw [← he,hit] at hi
          obtain rfl := Option.some.inj hi
          exact hid ▸ hlists
        · have hc : it'.outcome.isCommitted = true := by rw [hl]; rfl
          exact hgrown _ (hall it' (List.mem_of_getElem? (hres.outcomes.2 i it' hi hc)) hl)

end Memories

/-! ## Runs -/

/-- The snapshot and the memory are kept, and the memory lists every learned entry. -/
structure Station.Sound (s : Station) : Prop where
  numbered : Numbered s.session
  snapshot : ∀ m, s.snapshot = some m → Kept s.items m
  process : ∀ m, s.process = some m → Kept s.items m ∧ ListsAll s.items m

section Runs
variable {U : Utf8proc} {s : Station}

/-- A process that ends takes its memory with it. -/
theorem Station.Sound.ended (h : s.Sound) {session : Session} (hnum : Numbered session)
    (he : Extends s.items session.handle.items) :
    ({s with session := session,process := none} : Station).Sound where
  numbered := hnum
  snapshot := fun m hm => (h.snapshot m hm).extends he
  process := nofun

theorem crashedSession_extends (index : IndexEnv) (m : Memory) (o : SyncObservation)
    {session : Session} (hnum : Numbered session) (point : CrashPoint) :
    Numbered (crashedSession U index m session o point) ∧
      Extends session.handle.items (crashedSession U index m session o point).handle.items := by
  cases point with
  | reserved =>
      simp only [crashedSession]
      split
      · exact ⟨hnum,.refl _⟩
      · exact ⟨ledgerAppend_numbered hnum rfl,extends_ledgerAppend hnum rfl⟩
  | committed =>
      have hw : Numbered (Learner.mk m.graph session []).session := hnum
      exact ⟨processObservation_numbered hw rfl,extends_processObservation hw rfl⟩

theorem loadOrCreateGraph_kept (h : s.Sound) {a : Architecture} {headroom : Bool} {m : Memory}
    (hcaught : ∀ it ∈ s.items, it.outcome = .learned →
      ∃ m, s.snapshot = some m ∧ Lists m.graph it.entry.id)
    (hm : loadOrCreateGraph s.snapshot a headroom = some m) :
    Kept s.items m ∧ ListsAll s.items m := by
  unfold loadOrCreateGraph at hm
  split at hm
  · split at hm
    · rename_i m' hsnap
      obtain rfl := Option.some.inj hm
      refine ⟨h.snapshot _ hsnap,fun it hit hl => ?_⟩
      obtain ⟨m'',hm'',hlists⟩ := hcaught it hit hl
      obtain rfl := Option.some.inj (hsnap.symm.trans hm'')
      exact hlists
    · rename_i hsnap
      obtain ⟨g,hg,rfl⟩ := Option.map_eq_some_iff.mp hm
      have hledger : g.ledger = [] := by
        unfold createWithArchitecture at hg
        obtain ⟨r,-,rfl⟩ := Option.map_eq_some_iff.mp hg
        rfl
      refine ⟨⟨List.nodup_nil,nofun,?_,?_⟩,fun it hit hl => ?_⟩
      · rw [hledger]; exact nofun
      · rw [hledger]; exact nofun
      · obtain ⟨m'',hm'',-⟩ := hcaught it hit hl
        rw [hsnap] at hm''
        cases hm''
  · cases hm

theorem Station.Sound.step {act : StationAct} (h : s.Sound) (hcaught : Caught s act) :
    (s.step U act).Sound := by
  cases act with
  | start a headroom =>
      simp only [Station.step]
      split
      · exact h
      · rename_i hnone
        exact ⟨h.numbered,h.snapshot,fun m hm => loadOrCreateGraph_kept h (hcaught hnone) hm⟩
  | setCapacity nodes edges =>
      refine ⟨h.numbered,h.snapshot,fun m hm => ?_⟩
      obtain ⟨m',hm',rfl⟩ := Option.map_eq_some_iff.mp hm
      obtain ⟨hkept,hall⟩ := h.process m' hm'
      exact ⟨hkept.setCapacity nodes edges,hall⟩
  | observe index o =>
      simp only [Station.step]
      split
      · exact h
      · rename_i m hm
        have hw : Numbered (Learner.mk m.graph s.session []).session := h.numbered
        split
        · rename_i w' new hp
          obtain ⟨hkept,hall⟩ := h.process m hm
          have hext := extends_processObservation hw hp
          refine ⟨processObservation_numbered hw hp,fun m' hm' => (h.snapshot m' hm').extends hext,
            fun m' hm' => ?_⟩
          obtain rfl := Option.some.inj hm'
          exact Kept.take (w := ⟨m.graph,s.session,[]⟩) hkept hall
            (taken_processObservation hw hp)
        · rename_i w' t hp
          exact h.ended (processObservation_numbered hw hp) (extends_processObservation hw hp)
  | crashIn index o point =>
      simp only [Station.step]
      split
      · exact h
      · rename_i m hm
        obtain ⟨hnum,hext⟩ := crashedSession_extends (U := U) index m o h.numbered point
        exact h.ended hnum hext
  | crash => exact h.ended h.numbered (.refl _)
  | save =>
      simp only [Station.step]
      split
      · exact h
      · rename_i m hm
        refine ⟨h.numbered,fun m' hm' => ?_,h.process⟩
        obtain rfl := Option.some.inj hm'
        exact (h.process _ hm).1

end Runs

/-! ## The traversal is such a run -/

section Traversal
variable {U : Utf8proc} {linker : Bool}

/-- Acts that are observations. -/
def Observes (acts : List StationAct) : Prop := ∀ act ∈ acts, ∃ index o, act = .observe index o

/-- A station as a learner leaves it. -/
def Station.behind (s : Station) (w : Learner) (trained : List UInt64) : Station :=
  {s with session := w.session,process := some ⟨w.graph,trained⟩}

/-- From one learner to the other by observations. -/
def Reaches (U : Utf8proc) (w w' : Learner) : Prop :=
  ∀ (s : Station) trained, ∃ acts trained', Observes acts ∧
    runFrom (Station.step U) (s.behind w trained) acts = s.behind w' trained'

theorem Reaches.refl (w : Learner) : Reaches U w w :=
  fun _ trained => ⟨[],trained,nofun,rfl⟩

theorem Reaches.trans {w w' w'' : Learner} (h : Reaches U w w') (h' : Reaches U w' w'') :
    Reaches U w w'' := by
  intro s trained
  obtain ⟨acts,trained',hacts,hrun⟩ := h s trained
  obtain ⟨acts',trained'',hacts',hrun'⟩ := h' s trained'
  refine ⟨acts++acts',trained'',?_,by rw [runFrom_append,hrun,hrun']⟩
  intro act hact
  exact (List.mem_append.mp hact).elim (hacts act) (hacts' act)

theorem processObservation_linked (env : ItemEnv) (w : Learner) (o : SyncObservation)
    (l : List SyncObservation) : processObservation U env {w with linked := l} o =
      ({(processObservation U env w o).1 with linked := l},(processObservation U env w o).2) := by
  unfold processObservation
  split
  · rfl
  · dsimp only
    split
    · rfl
    · rfl
    · unfold commitObservation
      dsimp only
      split
      · rfl
      · split
        · split <;> rfl
        · rfl

/-- No commit fails. -/
def Commits (env : ItemEnv) : Prop := env.append = none ∧ env.outcome = none

theorem processObservation_reaches {env : ItemEnv} {w w' : Learner} {o : SyncObservation}
    {new : Bool} (hc : Commits env) (h : processObservation U env w o = (w',.ok new)) :
    Reaches U w w' := by
  intro s trained
  obtain ⟨append,index,outcome,link⟩ := env
  obtain ⟨rfl,rfl⟩ : append = none ∧ outcome = none := hc
  have hp : processObservation U (.committing index) ⟨w.graph,w.session,[]⟩ o =
      (⟨w'.graph,w'.session,[]⟩,.ok new) := by
    have hlinked := processObservation_linked (U := U) ⟨none,index,none,link⟩ w o []
    rw [h] at hlinked
    exact hlinked
  refine ⟨[.observe index o],trained++(trains U (.committing index) ⟨w.graph,w.session,[]⟩ o).toList,
    fun act hact => ⟨index,o,List.mem_singleton.mp hact⟩,?_⟩
  simp only [runFrom_cons,runFrom_nil,Station.step,Station.behind,hp]

theorem callLinker_reaches {env : ItemEnv} {w w' : Learner} {o : SyncObservation}
    (h : callLinker linker env w o = (w',.ok ())) : Reaches U w w' := by
  unfold callLinker at h
  split at h
  · split at h <;> cases h
    exact fun _ trained => ⟨[],trained,nofun,rfl⟩
  · cases h
    exact .refl _

theorem syncItem_reaches {env : ItemEnv} {p p' : Progress} {o : SyncObservation}
    (hc : Commits env) (h : syncItem U linker env p o = (p',.ok ())) :
    Reaches U p.learner p'.learner := by
  unfold syncItem at h
  rcases hp : processObservation U env p.learner o with ⟨w,t | new⟩
  · rw [hp] at h
    cases h
  · have hreach := processObservation_reaches hc hp
    rw [hp] at h
    cases new with
    | false =>
        cases h
        exact hreach
    | true =>
        simp only at h
        split at h
        · cases h
        · rename_i hlink
          cases h
          exact hreach.trans (callLinker_reaches hlink)

theorem syncItems_reaches {env : ℕ → ItemEnv} {items : List SyncObservation} {p p' : Progress}
    (hc : ∀ k, Commits (env k)) (h : syncItems U linker env p items = (p',.ok ())) :
    Reaches U p.learner p'.learner := by
  induction items generalizing p with
  | nil =>
      cases h
      exact .refl _
  | cons o rest ih =>
      unfold syncItems at h
      split at h
      · cases h
      · rename_i hitem
        exact (syncItem_reaches (hc _) hitem).trans (ih h)

theorem syncPages_reaches {limits : SyncLimits} {env : SyncEnv} {pages k : ℕ}
    {cursor next : Option Bytes} {p p' : Progress} (hc : ∀ k, Commits (env.item k))
    (h : syncPages U linker limits env pages k cursor p = (p',.ok next)) :
    Reaches U p.learner p'.learner := by
  induction pages generalizing k cursor p with
  | zero =>
      cases h
      exact .refl _
  | succ pages ih =>
      unfold syncPages at h
      split at h
      · cases h
      · split at h
        · cases h
        · rename_i hitems
          have hreach := syncItems_reaches hc hitems
          dsimp only at h
          split at h
          · cases h
            exact hreach
          · split at h
            · cases h
              exact hreach
            · have hrest := ih h
              exact hreach.trans hrest

/-- A `run_sync` that returns, and whose commits succeed, is a run of observations. -/
theorem runSync_reaches {env : SyncEnv} {w : Learner} {state : IngestionState}
    {limits : SyncLimits} {r : SyncResult} (hc : ∀ k, Commits (env.item k))
    (h : (runSync U linker env w state limits).outcome = .ok r) :
    Reaches U w (runSync U linker env w state limits).learner := by
  unfold runSync at h ⊢
  split
  · exact .refl _
  · rename_i hlimits
    rw [if_neg hlimits] at h
    rcases hp : syncPages U linker limits env limits.maxPages.toNat 0 state.start ⟨w,.empty⟩ with
      ⟨p,t | cursor⟩
    · rw [hp] at h
      cases h
    · exact syncPages_reaches hc hp

end Traversal

/-! ## Restarts -/

/-- A host without a past. -/
def Station.fresh : Station := ⟨Ledger.createdSession,none,none⟩

theorem sound_fresh : Station.fresh.Sound :=
  ⟨Ledger.numbered_opened (Ledger.openLedger_fresh Ledger.noMigration),nofun,nofun⟩

namespace Sample

end Sample
end Atperson.Sync
