import Atperson.Outbound.Conservation
import Atperson.Scheduler.Puts

/-!
# The drain as an act on the spool

What an attempt of a drain answers depends on the attempts before it, while the law of the spool is
about any answers. So the drain of a cycle is shown to be, on the spool, the drain with the answers
that its attempts came to, and over cycles the spool keeps its law: what was spooled is pending,
refused or published, once.
-/
namespace Atperson.Scheduler
open Wire Journal Outbound Runs

/-! ## The spool behind an attempt -/

theorem resolveCids_spool (transport : Transport) (action : OutboundAction) (w : NetWorld) :
    (resolveCids action (networkWriter transport) w).2.spool = w.spool := by
  unfold resolveCids
  split
  · simp only [networkWriter]
    cases transport.resolve w.calls action.replyRoot with
    | error e => rfl
    | ok cid => rfl
  · split
    · rfl
    · rfl

theorem performWrite_spool (transport : Transport) (action : OutboundAction)
    (authorization : OutboundAuthorization) (status : OutboundBudgetStatus) (w : NetWorld) :
    (performWrite action none authorization status (sessionFactory transport) w).2.spool =
      w.spool := by
  have hcids := resolveCids_spool transport action (w.log .writerFor)
  unfold performWrite sessionFactory
  cases transport.session w.calls with
  | error e => rfl
  | ok session =>
      dsimp only [Except.map]
      generalize resolveCids action (networkWriter transport) (w.log .writerFor) = cids at hcids ⊢
      obtain ⟨e | ⟨rootCid,parentCid,subjectCid⟩,w'⟩ := cids
      · exact hcids
      · dsimp only
        cases buildOutboundRecordJson action rootCid parentCid subjectCid with
        | error e => exact hcids
        | ok record =>
            dsimp only [putAttested,attestRecord,networkWriter]
            cases transport.put w'.calls (outboundActionCollection action) action.rkey record with
            | error e => exact hcids
            | ok written => exact hcids

/-- A replay stages nothing, so it leaves the spool. -/
theorem replay_spool (view : ExecutionView) (s : Executing) (action : OutboundAction) :
    (attemptAction (replayView view) s action).2.net.spool = s.net.spool := by
  unfold attemptAction
  cases coverageOf (replayView view) s.budget action with
  | error m => rfl
  | ok coverage =>
      have hdecide := replay_decide view s.budget coverage action s.net
      dsimp only at hdecide ⊢
      change ((replayAttempt view s.budget action coverage).run {net := s.net}).2.net.spool = _
      simp only [Attempt.run,hdecide]
      rcases execute_cases (replayAttempt view s.budget action coverage)
          (sessionFactory view.transport) s.net with
        ⟨-,result,-,-,heq⟩ | ⟨-,authorization,status,heq⟩
      · rw [heq]
      · rw [heq]
        exact performWrite_spool view.transport action authorization status s.net

theorem attemptAction_attempts (view : ExecutionView) (s : Executing) (action : OutboundAction) :
    (attemptAction view s action).2.attempts = s.attempts := by
  unfold attemptAction
  cases coverageOf view s.budget action with
  | error m => rfl
  | ok coverage => rfl

/-- The actions of the attempts that executed. -/
def executedActions (attempts : List (OutboundAction×OutboundExecutionResult)) :
    List OutboundAction :=
  (attempts.filter fun attempt => attempt.2.outcome = .executed).map Prod.fst

/-! ## The answers of a drain -/

section Answers
variable (view : ExecutionView)

/-- What the attempt of an entry answers to the loop. -/
def replayAnswer (s : Executing) (entry : SpoolEntry) : Except String DrainAttempt :=
  match replayAction view entry with
  | .error e => .error (text e)
  | .ok action => match (attemptAction (replayView view) s action).1 with
      | .error e => .error (text e)
      | .ok result => .ok ⟨result.outcome,text result.detail⟩

/-- The answers of a drain, each in the state that its entry met. -/
def drainAnswers : Executing → SpoolDrainReport → List SpoolEntry → SpoolEntry →
    Except String DrainAttempt
  | _, _, [], _ => .error ""
  | s, report, entry::rest, asked =>
      if asked = entry then replayAnswer view s entry
      else match replayOne view s report entry with
        | (.next s',report') => drainAnswers s' report' rest asked
        | _ => .error ""

/-- How a drain ended. -/
def Drained.ending (drained : Drained) : Except String SpoolDrainReport :=
  match drained.thrown with
  | some e => .error (text e)
  | none => .ok drained.report

variable {view} {s : Executing} {report : SpoolDrainReport} {entry : SpoolEntry}
  {entries : List SpoolEntry} {answers : SpoolEntry → Except String DrainAttempt}

/-- One turn of the loop, on the spool. -/
theorem drainEntries_replayed (hanswer : answers entry = replayAnswer view s entry) :
    drainEntries answers (entry::entries) s.net.spool report =
      match replayOne view s report entry with
      | (.next s',report') => drainEntries answers entries s'.net.spool report'
      | (.done s',report') => (.ok report',s'.net.spool)
      | (.thrown s' e,_) => (.error (text e),s'.net.spool) := by
  unfold replayAnswer at hanswer
  rw [drainEntries,hanswer]
  unfold replayOne
  cases replayAction view entry with
  | error e => rfl
  | ok action =>
      have hspool := replay_spool view s action
      dsimp only
      generalize attemptAction (replayView view) s action = attempted at hspool ⊢
      obtain ⟨e | result,s'⟩ := attempted
      · dsimp only at hspool ⊢
        rw [hspool]
      · dsimp only at hspool ⊢
        rw [← hspool]
        cases result.outcome with
        | executed => rfl
        | dryRun => rfl
        | denied => rfl
        | deferred => rfl
        | failed => rfl

theorem answers_first (hanswers : ∀ asked ∈ entry::entries, answers asked =
      drainAnswers view s report (entry::entries) asked) :
    answers entry = replayAnswer view s entry := by
  rw [hanswers entry List.mem_cons_self,drainAnswers,if_pos rfl]

theorem answers_rest (hanswers : ∀ asked ∈ entry::entries, answers asked =
      drainAnswers view s report (entry::entries) asked) (hnew : entry ∉ entries) :
    ∀ asked ∈ entries, answers asked = match replayOne view s report entry with
      | (.next s',report') => drainAnswers view s' report' entries asked
      | _ => .error "" := by
  intro asked hasked
  rw [hanswers asked (List.mem_cons_of_mem _ hasked),drainAnswers,if_neg]
  exact fun h => hnew (h ▸ hasked)

/-- The drain of a cycle is the drain with the answers that its attempts came to. -/
theorem drainFrom_refines (hnodup : entries.Nodup)
    (hanswers : ∀ asked ∈ entries, answers asked = drainAnswers view s report entries asked) :
    drainEntries answers entries s.net.spool report =
      ((drainFrom view s report entries).ending,
        (drainFrom view s report entries).state.net.spool) := by
  -- The state is general: the answers of the rest are those in the state that this turn leaves.
  induction entries generalizing s report with
  | nil => rfl
  | cons entry rest ih =>
      obtain ⟨hnew,hnodup⟩ := List.nodup_cons.mp hnodup
      have hrest := answers_rest hanswers hnew
      rw [drainEntries_replayed (answers_first hanswers),drainFrom]
      generalize replayOne view s report entry = turn at hrest ⊢
      obtain ⟨s' | s' | ⟨s',e⟩,report'⟩ := turn
      · exact ih hnodup hrest
      · rfl
      · rfl

/-- One turn of the loop, among the attempts. -/
theorem replayOne_attempts (view : ExecutionView) (s : Executing) (report : SpoolDrainReport)
    (entry : SpoolEntry) :
    match replayOne view s report entry with
    | (.next s',_) => ∃ action result, replayAction view entry = .ok action ∧
        s'.attempts = s.attempts++[(action,result)] ∧ result.outcome ≠ .failed ∧
        replayAnswer view s entry = .ok ⟨result.outcome,text result.detail⟩
    | (.done s',_) => ∃ action result, s'.attempts = s.attempts++[(action,result)] ∧
        result.outcome = .failed ∧ replayAnswer view s entry = .ok ⟨.failed,text result.detail⟩
    | (.thrown s' e,_) => s'.attempts = s.attempts ∧
        replayAnswer view s entry = .error (text e) := by
  unfold replayOne replayAnswer
  cases replayAction view entry with
  | error e => exact ⟨rfl,rfl⟩
  | ok action =>
      have hattempts := attemptAction_attempts (replayView view) s action
      dsimp only
      generalize attemptAction (replayView view) s action = attempted at hattempts ⊢
      obtain ⟨e | result,s'⟩ := attempted
      · exact ⟨hattempts,rfl⟩
      · have hadded : (s'.attempted action result).attempts = s.attempts++[(action,result)] :=
          congrArg (·++[(action,result)]) hattempts
        dsimp only
        cases hout : result.outcome with
        | executed => exact ⟨action,result,rfl,hadded,by rw [hout]; nofun,by rw [hout]⟩
        | dryRun => exact ⟨action,result,rfl,hadded,by rw [hout]; nofun,by rw [hout]⟩
        | denied => exact ⟨action,result,rfl,hadded,by rw [hout]; nofun,by rw [hout]⟩
        | deferred => exact ⟨action,result,rfl,hadded,by rw [hout]; nofun,by rw [hout]⟩
        | failed => exact ⟨action,result,hadded,hout,rfl⟩

/-- The entries that a drain publishes are those of its attempts that executed. -/
theorem drainFrom_published (hnodup : entries.Nodup)
    (hanswers : ∀ asked ∈ entries, answers asked = drainAnswers view s report entries asked) :
    ∃ done, (drainFrom view s report entries).state.attempts = s.attempts++done ∧
      ((reached answers entries).filter (outcomeIs answers .executed)).map (replayAction view) =
        (executedActions done).map .ok := by
  induction entries generalizing s report with
  | nil => exact ⟨[],(List.append_nil _).symm,rfl⟩
  | cons entry rest ih =>
      obtain ⟨hnew,hnodup⟩ := List.nodup_cons.mp hnodup
      have hfirst := answers_first hanswers
      have hrest := answers_rest hanswers hnew
      have hturn := replayOne_attempts view s report entry
      rw [← hfirst] at hturn
      rw [drainFrom]
      generalize replayOne view s report entry = turn at hrest hturn ⊢
      obtain ⟨s' | s' | ⟨s',e⟩,report'⟩ := turn
      · obtain ⟨action,result,haction,hattempts,hout,hanswer⟩ := hturn
        obtain ⟨done,hdone,hpublished⟩ := ih hnodup hrest
        refine ⟨(action,result)::done,?_,?_⟩
        · show (drainFrom view s' report' rest).state.attempts = _
          rw [hdone,hattempts,List.append_assoc]
          rfl
        · have hgo : reached answers (entry::rest) = entry::reached answers rest := by
            simp [reached,stops,hanswer,hout]
          have hhead : outcomeIs answers .executed entry = decide (result.outcome = .executed) := by
            simp [outcomeIs,hanswer]
          rw [hgo,List.filter_cons,hhead]
          by_cases hexecuted : result.outcome = .executed
          · simp [executedActions,hexecuted,haction,hpublished]
          · simp [executedActions,hexecuted,hpublished]
      · obtain ⟨action,result,hattempts,hout,hanswer⟩ := hturn
        refine ⟨[(action,result)],hattempts,?_⟩
        simp [reached,stops,hanswer,executedActions,hout]
      · obtain ⟨hattempts,hanswer⟩ := hturn
        refine ⟨[],hattempts.trans (List.append_nil _).symm,?_⟩
        simp [reached,stops,hanswer,executedActions]

end Answers

/-! ## Cycles and other processes on one spool -/

/-- What meets a spool: an act of some process, or the drain of a cycle, whatever the rest of its
state holds. -/
inductive SpoolTurn where
  | other (act : SpoolAct)
  | cycle (view : ExecutionView) (s : Executing)

section Turns
variable (view : ExecutionView) (parses : Bytes → Except String Unit)

/-- The drain of a cycle as an act on the spool. -/
def drainAct (s : Executing) : SpoolAct :=
  .drain fun asked =>
    if view.spoolRoot ∧ ¬view.control.offlineMode then
      match spoolPending s.net.spool with
      | .error e => .error e
      | .ok entries => drainAnswers view s {} entries asked
    else .error ""

def turnAct (spool : Spool) : SpoolTurn → SpoolAct
  | .other act => act
  | .cycle view s => drainAct view (s.withSpool fun _ => spool)

/-- The spool after a turn. -/
def turnSpool (spool : Spool) : SpoolTurn → Spool
  | .other act => (outboxStep parses {spool} act).spool
  | .cycle view s => (drainSpool view (s.withSpool fun _ => spool)).state.net.spool

/-- The history beside it. -/
def turnOutbox (o : Outbox) (turn : SpoolTurn) : Outbox :=
  outboxStep parses o (turnAct o.spool turn)

variable {view parses}

theorem outboxStep_spool (o : Outbox) (act : SpoolAct) :
    (outboxStep parses o act).spool = (outboxStep parses {spool := o.spool} act).spool := by
  cases act with
  | append doc now =>
      simp only [outboxStep]
      cases spoolAppend parses o.spool doc now <;> rfl
  | publish doc now transport =>
      simp only [outboxStep]
      cases spoolAppend parses o.spool doc now <;> rfl
  | drain attempt =>
      simp only [outboxStep]
      cases spoolPending o.spool <;> rfl

theorem drainEntries_refusing {entries : List SpoolEntry} {spool : Spool}
    {answers : SpoolEntry → Except String DrainAttempt} {e : String}
    (hanswers : ∀ asked, answers asked = .error e) :
    (drainEntries answers entries spool {}).2 = spool := by
  cases entries with
  | nil => rfl
  | cons entry rest =>
      unfold drainEntries
      rw [hanswers entry]

/-- The spool behind the drain of a cycle is that of its act. -/
theorem drainSpool_refines {s : Executing} {entries : List SpoolEntry}
    (hpending : spoolPending s.net.spool = .ok entries) (hnodup : entries.Nodup) :
    (outboxStep parses {spool := s.net.spool} (drainAct view s)).spool =
      (drainSpool view s).state.net.spool := by
  simp only [outboxStep,drainAct,spoolDrain,drainSpool,hpending]
  by_cases hdrains : view.spoolRoot = true ∧ ¬view.control.offlineMode = true
  · simp only [if_pos hdrains]
    exact congrArg Prod.snd (drainFrom_refines hnodup fun _ _ => rfl)
  · simp only [if_neg hdrains]
    exact drainEntries_refusing fun _ => rfl

/-- The history tells the spool, and the spool keeps the law. -/
structure Told (o : Outbox) (spool : Spool) : Prop where
  spool : o.spool = spool
  kept : ∃ pending, Kept o pending

theorem Told.turn {o : Outbox} {spool : Spool} (h : Told o spool) {turn : SpoolTurn}
    (hturn : Orderly o (turnAct o.spool turn)) :
    Told (turnOutbox parses o turn) (turnSpool parses spool turn) := by
  obtain ⟨rfl,pending,hkept⟩ := h
  refine ⟨?_,hkept.step hturn⟩
  rw [turnOutbox,outboxStep_spool]
  cases turn with
  | other act => rfl
  | cycle view s =>
      exact drainSpool_refines (s := s.withSpool fun _ => o.spool) hkept.listed
        (List.Nodup.of_map _ hkept.conserved.distinct)

theorem told_run {o : Outbox} {spool : Spool} (h : Told o spool) {turns : List SpoolTurn}
    (hturns : Guarded (turnOutbox parses) (fun o turn => Orderly o (turnAct o.spool turn)) o
      turns) :
    Told (runFrom (turnOutbox parses) o turns) (runFrom (turnSpool parses) spool turns) := by
  induction turns generalizing o spool with
  | nil => exact h
  | cons turn rest ih => exact ih (h.turn hturns.1) hturns.2

/-- What the drain of a cycle adds to the history as published are the entries of its attempts that
executed. -/
theorem Told.published {o : Outbox} {spool : Spool} (h : Told o spool)
    (parses : Bytes → Except String Unit) (view : ExecutionView) (s : Executing) :
    ∃ done entries,
      (drainSpool view (s.withSpool fun _ => o.spool)).state.attempts = s.attempts++done ∧
      (turnOutbox parses o (.cycle view s)).published = o.published++entries ∧
      entries.map (replayAction view) = (executedActions done).map .ok := by
  obtain ⟨pending,hkept⟩ := h.kept
  have hlisted := hkept.listed
  have hnodup : pending.Nodup := List.Nodup.of_map _ hkept.conserved.distinct
  simp only [turnOutbox,turnAct,outboxStep,drainAct,drainSpool,hlisted,Executing.withSpool]
  by_cases hdrains : view.spoolRoot = true ∧ ¬view.control.offlineMode = true
  · simp only [if_pos hdrains]
    obtain ⟨done,hdone,hpublished⟩ := @drainFrom_published view (s.withSpool fun _ => o.spool) {}
      pending _ hnodup fun _ _ => rfl
    exact ⟨done,_,hdone,rfl,hpublished⟩
  · simp only [if_neg hdrains]
    refine ⟨[],_,(List.append_nil _).symm,rfl,?_⟩
    cases pending with
    | nil => rfl
    | cons entry rest => simp [reached,stops,executedActions]

/-- Over any run of the drains of cycles and the acts of other processes on one spool, in which the
documents are plain, no refusal meets a refused file of the same name and no publish is retried
while its entry is pending, the history tells the spool, what was spooled is pending, refused or
published, once, and each drain publishes the entries of its attempts that executed. -/
theorem cycles_conserve (parses : Bytes → Except String Unit) (turns : List SpoolTurn)
    (h : Guarded (turnOutbox parses) (fun o turn => Orderly o (turnAct o.spool turn)) {} turns) :
    (runFrom (turnOutbox parses) {} turns).spool = runFrom (turnSpool parses) {} turns ∧
    (∃ pending, Conserved (runFrom (turnOutbox parses) {} turns) pending) ∧
    ∀ pre view s rest, turns = pre++.cycle view s::rest →
      let before := runFrom (turnOutbox parses) {} pre
      let drained := drainSpool view (s.withSpool fun _ => runFrom (turnSpool parses) {} pre)
      ∃ done entries, drained.state.attempts = s.attempts++done ∧
        (turnOutbox parses before (.cycle view s)).published = before.published++entries ∧
        entries.map (replayAction view) = (executedActions done).map .ok := by
  have hstart : Told {} {} := ⟨rfl,[],kept_start⟩
  have htold := told_run hstart h
  obtain ⟨pending,hkept⟩ := htold.kept
  refine ⟨htold.spool,⟨pending,hkept.conserved⟩,?_⟩
  rintro pre view s rest rfl
  have hbefore := told_run hstart (Guarded.append_iff.mp h).1
  have hpublished := hbefore.published parses view s
  rwa [hbefore.spool] at hpublished

end Turns

/-- Where there are no refused files, no refusal meets one. -/
theorem orderly_cycle {o : Outbox} (h : o.spool.denied = []) (view : ExecutionView)
    (s : Executing) : Orderly o (turnAct o.spool (.cycle view s)) := by
  show RefusalsFree o _
  unfold RefusalsFree
  cases spoolPending o.spool with
  | error e => trivial
  | ok entries =>
      intro entry _ _
      rw [h]
      exact List.not_mem_nil

theorem orderly_append (parses : Bytes → Except String Unit) {doc now : Bytes}
    (hplain : Plain doc now) (view : ExecutionView) (s : Executing) :
    Guarded (turnOutbox parses) (fun o turn => Orderly o (turnAct o.spool turn)) {}
      [.other (.append doc now),.cycle view s] := by
  refine ⟨hplain,orderly_cycle ?_ view s,trivial⟩
  show (outboxStep parses {} (.append doc now)).spool.denied = []
  simp only [outboxStep]
  rcases kept_start.append_eq parses doc now with ⟨e,heq⟩ | heq
  · rw [heq]
  · rw [heq]

namespace Sample

theorem document_plain : Plain (sampleDocument "3ka") sampleTime := by decide +kernel

/-- Another process spools a reply, and a cycle drains it. -/
theorem cycles_conserve_drained :
    ∃ pending, Conserved (runFrom (turnOutbox acceptAll) {}
      [.other (.append (sampleDocument "3ka") sampleTime),
        .cycle replying.toExecutionView spooled.begin]) pending :=
  (cycles_conserve acceptAll _ (orderly_append acceptAll document_plain _ _)).2.1

end Sample

end Atperson.Scheduler
