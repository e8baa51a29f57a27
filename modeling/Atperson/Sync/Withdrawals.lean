import Mathlib.Data.List.Forall2
import Atperson.Runs.Fallible
import Atperson.Sync.Faithful
import Atperson.Sync.Jetstream

/-!
# When withdrawals reach the graph

A withdrawal is owed to the graph until a rebuild, and the only trace of the debt is the count
of the call that withdraws. A call that throws after a withdrawal takes the count with it: the
calls behind it find nothing to withdraw, and return over a graph that still holds the entry.

So a graph equals the rebuild of its ledger if every call since the start, or since the last
call that rebuilt it, met events alone that leave it so.
-/
namespace Atperson.Sync
open Wire
open Atperson.Core (Graph Utf8proc Matters)
open Ledger (Outcome LedgerEntry Session Item Numbered CommitFault)
open Runs (bind_ok)

/-- The graph equals the rebuild of the ledger, ceilings and refusals apart. -/
def Faithful (U : Utf8proc) (w : Learner) : Prop :=
  ∃ g report, Cli.rebuildFromLedger U calmReplay w.graph w.items = .ok (g,report) ∧
    w.graph.knowledge = g.knowledge

/-! ## The condition -/

section Conditions
variable (U : Utf8proc) (linker evidence : Bool)

/-- A deletion that withdraws nothing that matters, or an orderly observation. -/
def Harmless (env : EventEnv) (w : Learner) (e : JetstreamEvent) : Prop :=
  if e.deleted then
    ∀ (i : ℕ) (it : Item), w.items[i]? = some it → Matters it →
      (Ledger.withdrawSource env.withdraw w.session
        (CString.ofRaw e.sourceUri)).1.handle.items[i]? = some it
  else Orderly U env.item w e.toObservation

/-- Every event that gets to the end of the callback is harmless. -/
def HarmlessIntake (enter : EventEnv → Intake → JetstreamEvent → Intake×Except Thrown Bool) :
    Intake → List (EventEnv×JetstreamEvent) → Prop
  | _, [] => True
  | p, (env,e)::rest =>
      match enter env p e with
      | (_,.error _) => True
      | (p,.ok false) => HarmlessIntake enter p rest
      | (p,.ok true) => Harmless U env p.learner e ∧
          match p.take U linker env e with
          | (_,.error _) => True
          | (p,.ok ()) => HarmlessIntake enter p rest

structure Host where
  learner : Learner
  state : IngestionState

inductive Call where
  | backfill (b : Batch)
  | archive (client : ReplaySource) (afterSeq : UInt64) (beforeSeq relativeSpan : Option UInt64)

namespace Host

def call (h : Host) : Call → JetstreamReply
  | .backfill b => runJetstreamBackfill U linker evidence h.learner h.state b
  | .archive client afterSeq beforeSeq relativeSpan =>
      runJetstreamArchive U linker evidence h.learner h.state client afterSeq beforeSeq relativeSpan

/-- The host behind a call, however the call ends. -/
def after (h : Host) (c : Call) : Host :=
  ⟨(h.call U linker evidence c).learner,(h.call U linker evidence c).state⟩

def run (h : Host) (calls : List Call) : Host := calls.foldl (after U linker evidence) h

/-- The events of a call are harmless where it meets them. -/
def HarmlessCall (h : Host) : Call → Prop
  | .backfill b => HarmlessIntake U linker
      (Intake.enter evidence (!b.filtered) b.recordCommitEvidence)
      ⟨h.learner,h.state.begin,h.state.catchup.protocolCursor,0,.empty⟩ b.events
  | .archive client afterSeq beforeSeq relativeSpan =>
      match client.resolveWindow afterSeq beforeSeq relativeSpan with
      | .error _ => True
      | .ok (afterSeq,beforeSeq) => HarmlessIntake U linker
          (fun env p _ => p.enterArchived evidence env)
          ⟨h.learner,h.state,⟨0,[],[],false⟩,0,.empty⟩ (client.fetchWindow afterSeq beforeSeq).1

/-- A call that returns after it withdrew an entry. -/
def Reconciles (h : Host) (c : Call) : Prop :=
  ∃ r, (h.call U linker evidence c).outcome = .ok r ∧ 0 < r.withdrawn

/-- Every call since the last that reconciles, or since the start of a run that starts `fresh`,
is harmless. -/
def Settled : Prop → Host → List Call → Prop
  | fresh, _, [] => fresh
  | fresh, h, c::rest =>
      Settled (h.Reconciles U linker evidence c ∨ (fresh ∧ h.HarmlessCall U linker evidence c))
        (h.after U linker evidence c) rest

end Host

end Conditions

/-! ## Rebuilds -/

section Rebuilds
variable {U : Utf8proc} {w w' : Learner}

theorem rebuildFromLedger_ok {env : UInt64 → Core.IndexEnv} {g g' : Graph} {items : List Item}
    {report : Core.ReplayReport} :
    Cli.rebuildFromLedger U env g items = .ok (g',report) ↔
      ∃ fresh, Cli.newGraph g.neuralArchitecture = .ok fresh ∧
        Core.replayLedger U env items fresh [] = (g',report,.ok) := by
  unfold Cli.rebuildFromLedger
  rw [bind_ok]
  simp only [Cli.replayGraph_ok]

/-- A rebuild makes a graph that retells the ledger over the same fresh graph. -/
theorem rebuilds_iff (hnum : Numbered w.session) : Faithful U w ↔
    ∃ fresh, Cli.newGraph w.graph.neuralArchitecture = .ok fresh ∧ Retells U fresh w := by
  constructor
  · rintro ⟨g,report,hrebuilt,hsame⟩
    obtain ⟨fresh,hfresh,hreplay⟩ := rebuildFromLedger_ok.mp hrebuilt
    exact ⟨fresh,hfresh,g,(Core.replayLedger_learns hnum.ids).mp ⟨report,hreplay⟩,hsame⟩
  · rintro ⟨fresh,hfresh,told,hlearn,hsame⟩
    obtain ⟨report,hreplay⟩ := (Core.replayLedger_learns hnum.ids).mpr hlearn
    exact ⟨told,report,rebuildFromLedger_ok.mpr ⟨fresh,hfresh,hreplay⟩,hsame⟩

/-- Whoever retells a ledger over a fresh graph has its topology. -/
theorem Retells.faithful {fresh : Graph} {a : Core.Architecture} (hnum : Numbered w.session)
    (hfresh : Cli.newGraph a = .ok fresh) (h : Retells U fresh w) : Faithful U w := by
  obtain ⟨told,hlearn,hsame⟩ := h
  have ha : w.graph.neuralArchitecture = a := by
    have htold : told.neuralArchitecture = fresh.neuralArchitecture :=
      (Core.retains_learnItems hlearn).topology rfl
    have hw := congrArg Graph.neuralArchitecture hsame
    change w.graph.neuralArchitecture = told.neuralArchitecture at hw
    rw [hw,htold,Cli.newGraph_architecture hfresh]
  exact (rebuilds_iff hnum).mpr ⟨fresh,by rw [ha]; exact hfresh,told,hlearn,hsame⟩

end Rebuilds

/-! ## Events -/

/-- From `items`, some entries were withdrawn. -/
def Withdraws (items items' : List Item) : Prop :=
  items'.length = items.length ∧ ∀ (i : ℕ) (it : Item), items[i]? = some it →
    items'[i]? = some it ∨ items'[i]? = some (it.withOutcome .withdrawn)

theorem withdrawWhere_withdraws (matching : LedgerEntry → Bool)
    (faults : ℕ → Option CommitFault) (n : ℕ) (s : Session) :
    Withdraws s.handle.items (Ledger.withdrawWhere matching faults n s).1.handle.items := by
  induction n with
  | zero => exact ⟨rfl,fun _ _ h => .inl h⟩
  | succ n ih =>
      unfold Ledger.withdrawWhere
      simp only
      generalize Ledger.withdrawWhere matching faults n s = r at ih ⊢
      split
      · exact ih
      · rename_i x _
        split
        · rcases Ledger.setOutcome_cases (faults n) r.1 x.entry.id Outcome.withdrawn.toByte with
            ⟨status,-,he⟩ | ⟨o,y,ok,-,hch,hc,-⟩
          · rw [Ledger.withdraw,he]
            exact ih
          · have hitems := hc.items
            have hvalid := hch.valid
            rw [Outcome.ofByte?_toByte] at hvalid
            obtain rfl := Option.some.inj hvalid
            show Withdraws s.handle.items
              (Ledger.setOutcome (faults n) r.1 x.entry.id Outcome.withdrawn.toByte).1.handle.items
            rw [hitems]
            cases ok with
            | false => exact ih
            | true =>
                refine ⟨(Ledger.setOutcomeAt_length _ _ _).trans ih.1,fun i it hi => ?_⟩
                rw [if_pos rfl,Ledger.getElem?_setOutcomeAt]
                split
                · rcases ih.2 i it hi with h | h <;> exact .inr (by rw [h]; rfl)
                · exact ih.2 i it hi
        · exact ih

section Events
variable {U : Utf8proc} {linker evidence : Bool} {fresh : Graph} {env : EventEnv} {p p' : Intake}
  {e : JetstreamEvent}

/-- The end of a callback keeps the ledger numbered. -/
theorem take_numbered {r : Except Thrown Unit} (hnum : Numbered p.learner.session)
    (h : p.take U linker env e = (p',r)) : Numbered p'.learner.session := by
  unfold Intake.take at h
  split at h
  · cases h
    exact hnum.withdrawWhere _ _ _
  · simp only at h
    rcases hp : processObservation U env.item p.learner e.toObservation with ⟨w,t | new⟩
    · rw [hp] at h
      cases h
      exact processObservation_numbered hnum hp
    · have hnum' := processObservation_numbered hnum hp
      rw [hp] at h
      cases new with
      | false =>
          cases h
          exact hnum'
      | true =>
          simp only at h
          rcases hl : callLinker linker env.item w e.toObservation with ⟨w',t | u⟩
          all_goals
            rw [hl] at h
            cases h
            rw [(callLinker_leaves hl).2]
            exact hnum'

/-- A harmless event, whether it throws or not. -/
theorem Retells.take {r : Except Thrown Unit} (hfresh : fresh.unbounded = fresh)
    (hnum : Numbered p.learner.session) (h : Retells U fresh p.learner)
    (he : Harmless U env p.learner e) (ht : p.take U linker env e = (p',r)) :
    Retells U fresh p'.learner := by
  unfold Harmless at he
  unfold Intake.take at ht
  split at ht
  · rename_i hdel
    rw [if_pos hdel] at he
    cases ht
    refine h.withdrawn (List.forall₂_iff_get.mpr ?_) rfl
    obtain ⟨hlen,hitems⟩ := withdrawWhere_withdraws
      (Ledger.fromSource (CString.ofRaw e.sourceUri)) env.withdraw
      p.learner.session.handle.items.length p.learner.session
    refine ⟨hlen.symm,fun i hi hi' => ?_⟩
    have hat := List.getElem?_eq_getElem hi
    have hat' := List.getElem?_eq_getElem hi'
    by_cases hm : Matters (p.learner.items.get ⟨i,hi⟩)
    · exact .inl (Option.some.inj (hat'.symm.trans (he i _ hat hm)))
    · rcases hitems i _ hat with hsame | hwith
      · exact .inl (Option.some.inj (hat'.symm.trans hsame))
      · exact .inr ⟨hm,Option.some.inj (hat'.symm.trans hwith)⟩
  · rename_i hdel
    rw [if_neg hdel] at he
    simp only at ht
    rcases hp : processObservation U env.item p.learner e.toObservation with ⟨w,t | new⟩
    · rw [hp] at ht
      cases ht
      exact h.process hfresh hnum he hp
    · have h' := h.process hfresh hnum he hp
      rw [hp] at ht
      cases new with
      | false =>
          cases ht
          exact h'
      | true =>
          simp only at ht
          rcases hl : callLinker linker env.item w e.toObservation with ⟨w',t | u⟩
          all_goals
            obtain ⟨hg,hs⟩ := callLinker_leaves hl
            rw [hl] at ht
            cases ht
            exact h'.frame (congrArg Graph.knowledge hg) (congrArg (fun s => s.handle.items) hs)

/-- The start of a callback does not touch what the host learns into. -/
def Spectates (enter : EventEnv → Intake → JetstreamEvent → Intake×Except Thrown Bool) : Prop :=
  ∀ env p e, (enter env p e).1.learner = p.learner

theorem noteRepo_learner (p : Intake) (e : JetstreamEvent) : (p.noteRepo e).learner = p.learner := by
  unfold Intake.noteRepo
  split <;> rfl

theorem spectates_enter (contiguous recordCommits : Bool) :
    Spectates (Intake.enter evidence contiguous recordCommits) := by
  intro env p e
  have hfollow : (p.follow contiguous e).1.learner = p.learner := rfl
  unfold Intake.enter
  generalize p.follow contiguous e = followed at hfollow ⊢
  obtain ⟨q,met⟩ := followed
  simp only
  split
  · exact hfollow
  · exact (noteRepo_learner q e).trans hfollow

theorem spectates_enterArchived :
    Spectates (fun env p _ => Intake.enterArchived evidence env p) :=
  fun _ _ _ => rfl

variable {enter : EventEnv → Intake → JetstreamEvent → Intake×Except Thrown Bool}
  {events : List (EventEnv×JetstreamEvent)}

theorem intake_numbered (henter : Spectates enter) (hnum : Numbered p.learner.session) :
    Numbered (intake U linker enter p events).1.learner.session := by
  induction events generalizing p with
  | nil => exact hnum
  | cons x rest ih =>
      obtain ⟨env,e⟩ := x
      have hkeep := henter env p e
      unfold intake
      rcases hq : enter env p e with ⟨q,t | goesOn⟩
      all_goals
        rw [hq] at hkeep
        have hnum' : Numbered q.learner.session := hkeep ▸ hnum
      · exact hnum'
      · cases goesOn with
        | false => exact ih hnum'
        | true =>
            simp only
            rcases ht : q.take U linker env e with ⟨q',t | u⟩
            · exact take_numbered hnum' ht
            · exact ih (take_numbered hnum' ht)

/-- Harmless events, however far they come. -/
theorem Retells.intake (hfresh : fresh.unbounded = fresh) (henter : Spectates enter)
    (hnum : Numbered p.learner.session) (h : Retells U fresh p.learner)
    (he : HarmlessIntake U linker enter p events) :
    Retells U fresh (Sync.intake U linker enter p events).1.learner := by
  induction events generalizing p with
  | nil => exact h
  | cons x rest ih =>
      obtain ⟨env,e⟩ := x
      have hkeep := henter env p e
      unfold Sync.intake
      unfold HarmlessIntake at he
      rcases hq : enter env p e with ⟨q,t | goesOn⟩
      all_goals
        rw [hq] at he hkeep
        have hnum' : Numbered q.learner.session := hkeep ▸ hnum
        have h' : Retells U fresh q.learner := hkeep ▸ h
      · exact h'
      · cases goesOn with
        | false => exact ih hnum' h' he
        | true =>
            obtain ⟨hharm,hrest⟩ := he
            simp only at hrest ⊢
            rcases ht : q.take U linker env e with ⟨q',t | u⟩
            · exact h'.take hfresh hnum' hharm ht
            · rw [ht] at hrest
              exact ih (take_numbered hnum' ht) (h'.take hfresh hnum' hharm ht) hrest

end Events

/-! ## Calls -/

section Calls
variable {U : Utf8proc} {linker evidence : Bool} {p p' : Intake}

theorem resync_learner {resync : Option (ResyncPlan → Except Thrown (Option JetstreamResyncResult))}
    (h : p.resync resync = .ok p') :
    p'.learner = p.learner ∧ p'.result.withdrawn = p.result.withdrawn := by
  unfold Intake.resync at h
  split at h
  · cases h
    exact ⟨rfl,rfl⟩
  · split at h
    · cases h
      exact ⟨rfl,rfl⟩
    · split at h
      · cases h
      · cases h
        exact ⟨rfl,rfl⟩
      · split at h <;> cases h <;> exact ⟨rfl,rfl⟩

/-- A call that comes to its end has rebuilt the graph, if it withdrew an entry. -/
theorem reconcile_ok (h : p.reconcile U = .ok p') :
    (p.result.withdrawn = 0 ∧ p' = p) ∨
      (0 < p.result.withdrawn ∧ p'.learner.session = p.learner.session ∧
        ∃ report, Cli.rebuildFromLedger U calmReplay p.learner.graph p.learner.items =
          .ok (p'.learner.graph,report)) := by
  unfold Intake.reconcile at h
  split at h
  · rename_i hpos
    split at h
    · cases h
    · rename_i g report hrebuilt
      cases h
      exact .inr ⟨hpos,rfl,report,hrebuilt⟩
  · rename_i hpos
    cases h
    exact .inl ⟨by omega,rfl⟩

/-- What a rebuild leaves equals the rebuild. -/
theorem rebuilt_faithful {w w' : Learner} {report : Core.ReplayReport} (hnum : Numbered w.session)
    (hs : w'.session = w.session)
    (h : Cli.rebuildFromLedger U calmReplay w.graph w.items = .ok (w'.graph,report)) :
    Faithful U w' := by
  obtain ⟨fresh,hfresh,hreplay⟩ := rebuildFromLedger_ok.mp h
  have hlearn := (Core.replayLedger_learns hnum.ids).mp ⟨report,hreplay⟩
  have hitems : w'.items = w.items := congrArg (fun s => s.handle.items) hs
  exact Retells.faithful (by rw [hs]; exact hnum) hfresh ⟨_,by rw [hitems]; exact hlearn,rfl⟩

/-- How a call ends once its events have come in: with an exception that leaves graph and
ledger, or behind a reconciliation. -/
inductive Concludes (U : Utf8proc) (p : Intake) (reply : JetstreamReply) : Prop
  | thrown (t : Thrown) : reply.outcome = .error t → reply.learner = p.learner →
      Concludes U p reply
  | returned (q q' : Intake) (r : JetstreamRunResult) : q.learner = p.learner →
      q.reconcile U = .ok q' → reply.learner = q'.learner → reply.outcome = .ok r →
      r.withdrawn = q.result.withdrawn → Concludes U p reply

theorem Concludes.numbered {reply : JetstreamReply} (h : Concludes U p reply)
    (hnum : Numbered p.learner.session) : Numbered reply.learner.session := by
  cases h with
  | thrown t _ hl =>
      rw [hl]
      exact hnum
  | returned q q' r hq hrec hl _ _ =>
      rw [hl]
      rcases reconcile_ok hrec with ⟨-,rfl⟩ | ⟨-,hs,-⟩
      · rw [hq]
        exact hnum
      · rw [hs,hq]
        exact hnum

theorem Concludes.faithful {reply : JetstreamReply} (h : Concludes U p reply)
    (hnum : Numbered p.learner.session)
    (hp : (∃ r, reply.outcome = .ok r ∧ 0 < r.withdrawn) ∨ Faithful U p.learner) :
    Faithful U reply.learner := by
  cases h with
  | thrown t he hl =>
      rw [hl]
      rcases hp with ⟨r,hr,-⟩ | hf
      · rw [he] at hr
        cases hr
      · exact hf
  | returned q q' r hq hrec hl ho hw =>
      rw [hl]
      rcases reconcile_ok hrec with ⟨hzero,rfl⟩ | ⟨-,hs,report,hrebuilt⟩
      · rcases hp with ⟨r',hr,hpos⟩ | hf
        · rw [ho] at hr
          cases hr
          omega
        · rw [hq]
          exact hf
      · exact rebuilt_faithful (by rw [hq]; exact hnum) hs hrebuilt

theorem reconcile_withdrawn (h : p.reconcile U = .ok p') :
    p'.result.withdrawn = p.result.withdrawn := by
  unfold Intake.reconcile at h
  split at h
  · split at h <;> cases h
    rfl
  · cases h
    rfl

theorem finish_concludes (b : Batch) (fetched : BatchResult) :
    Concludes U p (p.finish U evidence b fetched) := by
  unfold Intake.finish
  simp only
  split
  · exact .thrown _ rfl rfl
  · split
    · exact .thrown _ rfl rfl
    · rename_i q hsync
      obtain ⟨hlearner,-⟩ := resync_learner hsync
      split
      · exact .thrown _ rfl hlearner
      · rename_i q' hrec
        have hw := reconcile_withdrawn hrec
        exact .returned q q' _ hlearner hrec rfl rfl hw

/-- The events of a call, with the start of the callback and what they start from. -/
def Host.feed (evidence : Bool) (h : Host) : Call →
    (EventEnv → Intake → JetstreamEvent → Intake×Except Thrown Bool)×Intake×
      List (EventEnv×JetstreamEvent)
  | .backfill b => (Intake.enter evidence (!b.filtered) b.recordCommitEvidence,
      ⟨h.learner,h.state.begin,h.state.catchup.protocolCursor,0,.empty⟩,b.events)
  | .archive client afterSeq beforeSeq relativeSpan =>
      (fun env p _ => p.enterArchived evidence env,⟨h.learner,h.state,⟨0,[],[],false⟩,0,.empty⟩,
        match client.resolveWindow afterSeq beforeSeq relativeSpan with
        | .error _ => []
        | .ok (afterSeq,beforeSeq) => (client.fetchWindow afterSeq beforeSeq).1)

theorem feed_spectates (evidence : Bool) (h : Host) (c : Call) :
    Spectates (h.feed evidence c).1 ∧ (h.feed evidence c).2.1.learner = h.learner := by
  cases c with
  | backfill b => exact ⟨spectates_enter _ _,rfl⟩
  | archive client afterSeq beforeSeq relativeSpan => exact ⟨spectates_enterArchived,rfl⟩

/-- A call takes its events in and concludes. -/
theorem call_concludes (h : Host) (c : Call) :
    Concludes U (intake U linker (h.feed evidence c).1 (h.feed evidence c).2.1
      (h.feed evidence c).2.2).1 (h.call U linker evidence c) := by
  cases c with
  | backfill b =>
      simp only [Host.call,Host.feed,runJetstreamBackfill]
      generalize intake U linker (Intake.enter evidence (!b.filtered) b.recordCommitEvidence)
        ⟨h.learner,h.state.begin,h.state.catchup.protocolCursor,0,.empty⟩ b.events = taken
      obtain ⟨p,t | u⟩ := taken
      · exact .thrown t rfl rfl
      · simp only
        split
        · exact .thrown _ rfl rfl
        · exact finish_concludes b _
  | archive client afterSeq beforeSeq relativeSpan =>
      simp only [Host.call,Host.feed,runJetstreamArchive]
      cases client.resolveWindow afterSeq beforeSeq relativeSpan with
      | error t => exact .thrown t rfl rfl
      | ok window =>
          obtain ⟨afterSeq,beforeSeq⟩ := window
          simp only
          generalize intake U linker (fun env p _ => Intake.enterArchived evidence env p)
            ⟨h.learner,h.state,⟨0,[],[],false⟩,0,.empty⟩
            (client.fetchWindow afterSeq beforeSeq).1 = taken
          obtain ⟨p,t | u⟩ := taken
          · exact .thrown t rfl rfl
          · simp only
            split
            · exact .thrown _ rfl rfl
            · rename_i window _
              split
              · exact .thrown _ rfl rfl
              · rename_i q' hrec
                exact .returned (p.moveArchived window) q' _ rfl hrec rfl rfl
                  (reconcile_withdrawn hrec)

/-- The harmless events of a call, by its feed. -/
theorem harmlessCall_iff (h : Host) (c : Call) : h.HarmlessCall U linker evidence c ↔
    HarmlessIntake U linker (h.feed evidence c).1 (h.feed evidence c).2.1
      (h.feed evidence c).2.2 := by
  cases c with
  | backfill b => exact Iff.rfl
  | archive client afterSeq beforeSeq relativeSpan =>
      simp only [Host.HarmlessCall,Host.feed]
      cases client.resolveWindow afterSeq beforeSeq relativeSpan with
      | error t => simp [HarmlessIntake]
      | ok window => exact Iff.rfl

theorem call_numbered {h : Host} (hnum : Numbered h.learner.session) (c : Call) :
    Numbered (h.after U linker evidence c).learner.session := by
  obtain ⟨hspec,hstart⟩ := feed_spectates evidence h c
  exact (call_concludes h c).numbered (intake_numbered hspec (by rw [hstart]; exact hnum))

/-- A call that reconciles makes the graph faithful, and a harmless one keeps it so. -/
theorem call_faithful {h : Host} (hnum : Numbered h.learner.session) {c : Call}
    (hc : h.Reconciles U linker evidence c ∨
      (Faithful U h.learner ∧ h.HarmlessCall U linker evidence c)) :
    Faithful U (h.after U linker evidence c).learner := by
  obtain ⟨hspec,hstart⟩ := feed_spectates evidence h c
  have hnum' : Numbered (h.feed evidence c).2.1.learner.session := by rw [hstart]; exact hnum
  refine (call_concludes h c).faithful (intake_numbered hspec hnum') ?_
  rcases hc with hrec | ⟨hf,hharm⟩
  · exact .inl hrec
  · obtain ⟨fresh,hfresh,hretells⟩ := (rebuilds_iff hnum).mp hf
    have hunbounded := (Cli.newGraph_ok hfresh).1
    have hretells' : Retells U fresh (h.feed evidence c).2.1.learner := by rw [hstart]; exact hretells
    exact .inr (Retells.faithful (intake_numbered hspec hnum') hfresh
      (hretells'.intake hunbounded hspec hnum' ((harmlessCall_iff h c).mp hharm)))

/-! ## Runs -/

/-- A settled run ends with a graph that equals the rebuild. -/
theorem run_faithful {h : Host} {calls : List Call} {fresh : Prop}
    (hnum : Numbered h.learner.session) (hf : fresh → Faithful U h.learner)
    (hs : Host.Settled U linker evidence fresh h calls) :
    Faithful U (h.run U linker evidence calls).learner := by
  induction calls generalizing h fresh with
  | nil => exact hf hs
  | cons c rest ih =>
      refine ih (call_numbered hnum c) (fun hc => call_faithful hnum ?_) hs
      rcases hc with hrec | ⟨hfr,hharm⟩
      · exact .inl hrec
      · exact .inr ⟨hf hfr,hharm⟩

end Calls

/-- A new graph equals the rebuild of an empty ledger. -/
theorem faithful_fresh (U : Utf8proc) {a : Core.Architecture} {g : Graph} {s : Session}
    (linked : List SyncObservation) (hg : Cli.newGraph a = .ok g) (hs : s.handle.items = [])
    (hnum : Numbered s) : Faithful U ⟨g,s,linked⟩ :=
  Retells.faithful hnum hg ⟨g,by rw [Learner.items,hs]; rfl,rfl⟩

theorem withdrawals_reach_graph (U : Utf8proc) (linker evidence : Bool)
    (migrate : ℕ → Ledger.Disk → Ledger.Disk×Ledger.Status) {d d₀ : Ledger.Disk}
    {h₀ : Ledger.Handle} {s : Session} {ops : List (Ledger.Faults×Ledger.Op)}
    {statuses : List Ledger.Status} (hopen : Ledger.openLedger migrate d = (d₀,.ok h₀))
    (hrun : Ledger.runOps migrate ⟨d₀,h₀⟩ ops = some (s,statuses)) (g : Graph)
    (linked : List SyncObservation) (state : IngestionState) (hstart : Faithful U ⟨g,s,linked⟩)
    (calls : List Call)
    (hsettled : Host.Settled U linker evidence True ⟨⟨g,s,linked⟩,state⟩ calls) :
    Faithful U (Host.run U linker evidence ⟨⟨g,s,linked⟩,state⟩ calls).learner :=
  run_faithful ((Ledger.numbered_opened hopen).runOps hrun) (fun _ => hstart) hsettled

/-! A post that is learned in one call, deleted in a second whose feed then fails, and missed by
the third; and a post learned and deleted in one call, with another learned behind it. -/

def samplePost (source : UInt8) (deleted : Bool) : JetstreamEvent where
  sourceUri := [source]
  authorDid := []
  createdAt := []
  text := [97]
  replyRoot := []
  replyParent := []
  quoteUri := []
  policyReason := .eligible
  seq := 1
  repoRevision := []
  protocolOnly := false
  deleted
  eventType := utf8 "#commit"

def sampleBatch (events : List JetstreamEvent) (fails : Bool) : Batch where
  recordCommitEvidence := true
  filtered := true
  events := events.map fun e => (.calm,e)
  fetched := if fails then .error (.runtime "JetstreamClient: wf_jetstream_next failed")
    else .ok ⟨events.length,0,false⟩
  jumpEvidence := none
  resync := none
  cursor := []

def sampleHost (g : Graph) : Host :=
  ⟨⟨g,Ledger.createdSession,[]⟩,⟨⟨false,none,none,none⟩,⟨0,0⟩⟩⟩

def interruptedCalls : List Call :=
  [.backfill (sampleBatch [samplePost 1 false] false),.backfill (sampleBatch [samplePost 1 true] true)]

def lastCall : Call := .backfill (sampleBatch [] false)

def rebuiltMirror (w : Learner) : Option ℕ :=
  match Cli.rebuildFromLedger .plain calmReplay w.graph w.items with
  | .ok (g,_) => some g.ledger.length
  | .error _ => none

def returned (reply : JetstreamReply) : Bool :=
  match reply.outcome with
  | .ok _ => true
  | .error _ => false

theorem rebuiltMirror_of_faithful {w : Learner} (h : Faithful .plain w) :
    rebuiltMirror w = some w.graph.ledger.length := by
  obtain ⟨g,report,hrebuilt,hsame⟩ := h
  have hledger := congrArg Graph.ledger hsame
  change w.graph.ledger = g.ledger at hledger
  unfold rebuiltMirror
  rewrite [hrebuilt,hledger]
  rfl

/-- The third call returns over a graph that still mirrors the withdrawn entry. -/
theorem withdrawal_forgotten : ∃ g, Core.createGraph .default = some g ∧
    Faithful .plain (sampleHost g).learner ∧
    returned (((sampleHost g).run .plain false false interruptedCalls).call .plain false false
      lastCall) = true ∧
    ¬Faithful .plain ((sampleHost g).run .plain false false (interruptedCalls++[lastCall])).learner
    := by
  have hfacts : (Core.createGraph .default).map (fun g =>
      let w := ((sampleHost g).run .plain false false (interruptedCalls++[lastCall])).learner
      decide (returned (((sampleHost g).run .plain false false interruptedCalls).call .plain false
        false lastCall) = true ∧ rebuiltMirror w ≠ some w.graph.ledger.length)) = some true := by
    decide +kernel
  obtain ⟨g,hg,hdec⟩ := Option.map_eq_some_iff.mp hfacts
  obtain ⟨hret,hmirror⟩ := of_decide_eq_true hdec
  have hnew : Cli.newGraph .legacy = .ok g := by
    unfold Cli.newGraph
    rw [show Core.createWithArchitecture .default .legacy = some g from hg]
  exact ⟨g,hg,faithful_fresh .plain [] hnew rfl
    (Ledger.numbered_opened (Ledger.openLedger_fresh Ledger.noMigration)),hret,
    fun h => hmirror (rebuiltMirror_of_faithful h)⟩

def mendedCall : Call := .backfill (sampleBatch [samplePost 1 false,samplePost 1 true] false)

def harmlessCall : Call := .backfill (sampleBatch [samplePost 2 false] false)

def withdrawnBy (reply : JetstreamReply) : ℕ :=
  match reply.outcome with
  | .ok r => r.withdrawn
  | .error _ => 0

theorem exists_of_withdrawnBy {reply : JetstreamReply} (h : 0 < withdrawnBy reply) :
    ∃ r, reply.outcome = .ok r ∧ 0 < r.withdrawn := by
  unfold withdrawnBy at h
  split at h
  · rename_i r hr
    exact ⟨r,hr,h⟩
  · cases h

theorem harmlessIntake_single {U : Utf8proc} {linker : Bool}
    {enter : EventEnv → Intake → JetstreamEvent → Intake×Except Thrown Bool} {p : Intake}
    {env : EventEnv} {e : JetstreamEvent} (henter : Spectates enter)
    (h : Harmless U env p.learner e) : HarmlessIntake U linker enter p [(env,e)] := by
  have hkeep := henter env p e
  unfold HarmlessIntake
  rcases hq : enter env p e with ⟨q,t | goesOn⟩
  · trivial
  · rw [hq] at hkeep
    have hl : q.learner = p.learner := hkeep
    cases goesOn with
    | false => trivial
    | true =>
        refine ⟨by rw [hl]; exact h,?_⟩
        rcases q.take U linker env e with ⟨q',t | u⟩ <;> trivial

theorem harmlessCall_of_orderly {U : Utf8proc} {linker evidence : Bool} {h : Host}
    (ho : Orderly U .calm h.learner (samplePost 2 false).toObservation) :
    h.HarmlessCall U linker evidence harmlessCall := by
  refine harmlessIntake_single (spectates_enter _ _) ?_
  rw [Harmless,if_neg (by decide)]
  exact ho

theorem settled_sample {U : Utf8proc} {linker evidence : Bool} {h : Host}
    (hr : h.Reconciles U linker evidence mendedCall)
    (ho : Orderly U .calm (h.after U linker evidence mendedCall).learner
      (samplePost 2 false).toObservation) :
    Host.Settled U linker evidence True h [mendedCall,harmlessCall] :=
  .inr ⟨.inl hr,harmlessCall_of_orderly ho⟩

theorem withdrawals_reach_graph_sample : ∃ g, Core.createGraph .default = some g ∧
    Faithful .plain ((sampleHost g).run .plain false false [mendedCall,harmlessCall]).learner := by
  have hfacts : (Core.createGraph .default).map (fun g =>
      let w := ((sampleHost g).after .plain false false mendedCall).learner
      let o := (samplePost 2 false).toObservation
      decide (0 < withdrawnBy ((sampleHost g).call .plain false false mendedCall) ∧
        Ledger.indexFind w.items (CString.ofRaw o.sourceUri).bytes o.digest = none ∧
        (processObservation .plain .calm w o).2.isOk = true)) = some true := by
    decide +kernel
  obtain ⟨g,hg,hdec⟩ := Option.map_eq_some_iff.mp hfacts
  obtain ⟨hwithdrew,hnone,hok⟩ := of_decide_eq_true hdec
  have hnew : Cli.newGraph .legacy = .ok g := by
    unfold Cli.newGraph
    rw [show Core.createWithArchitecture .default .legacy = some g from hg]
  have hopen := Ledger.openLedger_fresh Ledger.noMigration
  have hstart := faithful_fresh .plain [] hnew (rfl : Ledger.createdSession.handle.items = [])
    (Ledger.numbered_opened hopen)
  have hrun : Ledger.runOps Ledger.noMigration Ledger.createdSession [] =
      some (Ledger.createdSession,[]) := rfl
  have horderly : Orderly .plain .calm ((sampleHost g).after .plain false false mendedCall).learner
      (samplePost 2 false).toObservation := by
    rcases hp : processObservation .plain .calm
      ((sampleHost g).after .plain false false mendedCall).learner
      (samplePost 2 false).toObservation with ⟨w',t | new⟩
    · rw [hp] at hok
      cases hok
    · exact orderly_of_new rfl hnone hp
  have hsettled := settled_sample (exists_of_withdrawnBy hwithdrew) horderly
  exact ⟨g,hg,withdrawals_reach_graph .plain false false Ledger.noMigration hopen hrun g []
    ⟨⟨false,none,none,none⟩,⟨0,0⟩⟩ hstart [mendedCall,harmlessCall] hsettled⟩

end Atperson.Sync
