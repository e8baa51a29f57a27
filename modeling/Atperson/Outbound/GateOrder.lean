import Atperson.Outbound.Attempt

/-!
# Gates before credentials

An execution that fails a gate touches nothing; one that passes them all opens at most one
session and is executed only after its put succeeded. An attempt inherits this unless a
spool makes it open the session, or stage the action, before it looks at a gate.
-/
namespace Atperson.Outbound
open Wire Control

/-- The gates of one attempt, on the state it loads. -/
structure Gates (a : Attempt) : Prop where
  running : a.control.paused = false
  allowed : (evaluateOutboundPolicy a.policy a.prunedBudget (outboundActionProposal a.action)
    a.now).outcome = .allow
  wet : a.control.dryRun = false
  writes : a.control.writesEnabled = true
  authorized : a.control.approvalRequired = false ∨
    isDigestApproved a.control a.action.digest = true ∨
      ∃ coverage ∈ a.envelope, coverage.covered = true
  publishing : a.externalPublishingAllowed = true

def isSession : NetCall → Bool
  | .writerFor => true
  | _ => false

/-- How often the caller's writer factory has been called. -/
def sessions (calls : List NetCall) : ℕ := calls.countP isSession

@[simp] theorem sessions_append (pre post : List NetCall) :
    sessions (pre++post) = sessions pre+sessions post := List.countP_append

/-- The last call put the action's record and was answered by what the result says. -/
def PutSucceeded (a : Attempt) (calls : List NetCall) (result : OutboundExecutionResult) :
    Prop :=
  ∃ pre record, calls =
      pre++[.put (outboundActionCollection a.action) a.action.rkey record] ∧
    a.transport.put pre (outboundActionCollection a.action) a.action.rkey record =
      .ok result.written

/-! What a writer, a write and an execution can do. -/

/-- Only calls without a session are added. -/
def Extends (w w' : NetWorld) : Prop :=
  ∃ extra, w'.calls = w.calls++extra ∧ sessions extra = 0

theorem Extends.refl (w : NetWorld) : Extends w w := ⟨[],by simp,rfl⟩

theorem Extends.trans {w w' w'' : NetWorld} (h : Extends w w') (h' : Extends w' w'') :
    Extends w w'' := by
  obtain ⟨first,hfirst,hs⟩ := h
  obtain ⟨second,hsecond,hs'⟩ := h'
  exact ⟨first++second,by rw [hsecond,hfirst,List.append_assoc],by simp [hs,hs']⟩

theorem Extends.log (w : NetWorld) {call : NetCall} (h : isSession call = false) :
    Extends w (w.log call) := ⟨[call],rfl,by simp [sessions,h]⟩

theorem Extends.sessions_eq {w w' : NetWorld} (h : Extends w w') :
    sessions w'.calls = sessions w.calls := by
  obtain ⟨extra,he,hs⟩ := h
  rw [he,sessions_append,hs,Nat.add_zero]

/-- The writer reaches the transport, one put for each it reports as done. -/
structure Delegates (t : Transport) (writer : OutboundWriter) : Prop where
  resolve : ∀ uri w, Extends w (writer.resolveRecordCid uri w).2
  put : ∀ collection rkey record w, Extends w (writer.putRecord collection rkey record w).2
  done : ∀ collection rkey record w written,
    (writer.putRecord collection rkey record w).1 = .ok written →
      (writer.putRecord collection rkey record w).2.calls =
          w.calls++[.put collection rkey record] ∧
        t.put w.calls collection rkey record = .ok written

theorem networkWriter_delegates (t : Transport) : Delegates t (networkWriter t) where
  resolve _ w := Extends.log w rfl
  put _ _ _ w := Extends.log w rfl
  done _ _ _ _ _ h := ⟨rfl,h⟩

theorem spoolFirstWriter_delegates {t : Transport} {writer : OutboundWriter}
    (h : Delegates t writer) (parses : Bytes → Except String Unit) (doc now : Bytes) :
    Delegates t (spoolFirstWriter parses writer doc now) where
  resolve := h.resolve
  put collection rkey record w := by
    have hput := h.put collection rkey record w
    simp only [spoolFirstWriter]
    split
    · exact Extends.refl w
    · split <;> exact hput
  done collection rkey record w written hok := by
    simp only [spoolFirstWriter] at hok ⊢
    split at hok
    · cases hok
    · cases hput : (writer.putRecord collection rkey record w).1 with
      | error e => rw [hput] at hok; cases hok
      | ok result =>
          rw [hput] at hok
          cases hok
          exact h.done collection rkey record w written hput

theorem resolveCids_extends {t : Transport} {writer : OutboundWriter} (h : Delegates t writer)
    (action : OutboundAction) (w : NetWorld) : Extends w (resolveCids action writer w).2 := by
  unfold resolveCids
  split
  · simp only
    split
    · exact h.resolve _ w
    · exact (h.resolve _ w).trans (h.resolve _ _)
  · split
    · exact h.resolve _ w
    · exact Extends.refl w

theorem attestRecord_extends (attest : Option AttestationFactory) (record : Json Double)
    (action : OutboundAction) (w : NetWorld) :
    Extends w (attestRecord attest record action w).2 := by
  unfold attestRecord
  split
  · exact Extends.refl w
  · exact Extends.log w rfl

/-- A write either fails or has put the record; it opens no session of its own. -/
structure WriteSpec (a : Attempt) (before after : NetWorld) (result : OutboundExecutionResult) :
    Prop where
  calls : Extends before after
  recorded : result.budgetRecorded = true ↔ result.outcome = .executed
  done : result.outcome = .executed → PutSucceeded a after.calls result
  reached : result.outcome = .executed ∨ result.outcome = .failed

section Write
variable {a : Attempt} {before after : NetWorld} {status : OutboundBudgetStatus}

theorem WriteSpec.failed (h : Extends before after) (code detail : Bytes) :
    WriteSpec a before after (denied .failed code detail status) where
  calls := h
  recorded := by simp [denied]
  done h := by cases h
  reached := .inr rfl

theorem putAttested_spec {writer : OutboundWriter} (h : Delegates a.transport writer)
    (authorization : OutboundAuthorization) (record : Json Double)
    (hw : Extends before after) :
    WriteSpec a before
      (putAttested a.action a.attest authorization status writer record after).2
      (putAttested a.action a.attest authorization status writer record after).1 := by
  have hatt := hw.trans (attestRecord_extends a.attest record a.action after)
  simp only [putAttested]
  generalize attestRecord a.attest record a.action after = attested at hatt ⊢
  have hput := hatt.trans
    (h.put (outboundActionCollection a.action) a.action.rkey record attested.2)
  cases hattest : attested.1 with
  | error e => exact .failed hatt _ _
  | ok attestation =>
      simp only
      cases hres : (writer.putRecord (outboundActionCollection a.action) a.action.rkey record
          attested.2).1 with
      | error e => exact .failed hput _ _
      | ok written =>
          refine ⟨hput,by simp,fun _ => ?_,.inl rfl⟩
          obtain ⟨hcalls,hans⟩ := h.done _ _ _ _ _ hres
          exact ⟨attested.2.calls,record,hcalls,hans⟩

variable (status) in
theorem performWrite_spec {writerFor : OutboundWriterFactory}
    (hwriter : ∀ writer, (writerFor before).1 = .ok writer → Delegates a.transport writer)
    (authorization : OutboundAuthorization) :
    WriteSpec a (writerFor before).2
      (performWrite a.action a.attest authorization status writerFor before).2
      (performWrite a.action a.attest authorization status writerFor before).1 := by
  simp only [performWrite]
  cases hsession : (writerFor before).1 with
  | error e => exact .failed (Extends.refl _) _ _
  | ok writer =>
      have hd := hwriter writer hsession
      have hcids := resolveCids_extends hd a.action (writerFor before).2
      simp only
      generalize resolveCids a.action writer (writerFor before).2 = cids at hcids ⊢
      cases hres : cids.1 with
      | error e => exact .failed hcids _ _
      | ok resolved =>
          obtain ⟨rootCid,parentCid,subjectCid⟩ := resolved
          simp only
          cases hbuild : buildOutboundRecordJson a.action rootCid parentCid subjectCid with
          | error e => exact .failed hcids _ _
          | ok record => exact putAttested_spec hd authorization record hcids

end Write

/-- The gates hold exactly when the control gate authorizes. -/
theorem authorizeOutbound_ok (control : ControlState) (action : OutboundAction)
    (envelope : Option EnvelopeCoverage) :
    (∃ authorization, authorizeOutbound control action envelope = .ok authorization) ↔
      control.writesEnabled = true ∧ (control.approvalRequired = false ∨
        isDigestApproved control action.digest = true ∨
          ∃ coverage ∈ envelope, coverage.covered = true) := by
  unfold authorizeOutbound
  cases hw : control.writesEnabled with
  | false => simp
  | true =>
      by_cases hd : control.approvalRequired = false ∨
          isDigestApproved control action.digest = true
      · simp only [Bool.true_eq_false,if_false,if_pos hd,true_and]
        exact ⟨fun _ => hd.imp_right .inl,fun _ => ⟨_,rfl⟩⟩
      · simp only [Bool.true_eq_false,if_false,if_neg hd,true_and]
        rw [← or_assoc,or_iff_right hd]
        cases envelope with
        | none => simp
        | some coverage => by_cases hc : coverage.covered = true <;> simp [hc]

/-- An execution that a gate stops changes nothing; past the gates it is one write. -/
theorem execute_cases (a : Attempt) (writerFor : OutboundWriterFactory) (w : NetWorld) :
    (¬Gates a ∧ ∃ result : OutboundExecutionResult,
      (result.outcome ≠ .executed ∧ result.outcome ≠ .failed) ∧ result.budgetRecorded = false ∧
        a.execute writerFor w = (result,a.prunedBudget,w)) ∨
    (Gates a ∧ ∃ authorization status,
      a.execute writerFor w =
        ((performWrite a.action a.attest authorization status writerFor w).1,
        if (performWrite a.action a.attest authorization status writerFor w).1.outcome =
            .executed then
          recordOutboundAction a.prunedBudget (outboundActionProposal a.action)
            (budgetFor a.policy a.action.kind) a.now
        else a.prunedBudget,
        (performWrite a.action a.attest authorization status writerFor w).2)) := by
  have hauth := authorizeOutbound_ok a.control a.action a.envelope
  unfold Attempt.execute executeOutboundAction
  by_cases hp : a.control.paused = true
  · refine .inl ⟨fun hg => ?_,denied .denied _ _ _,by simp [denied],rfl,if_pos hp⟩
    rw [hg.running] at hp
    cases hp
  simp only [if_neg hp]
  cases hdec : (evaluateOutboundPolicy a.policy a.prunedBudget
      (outboundActionProposal a.action) a.now).outcome with
  | deny =>
      refine .inl ⟨fun hg => ?_,denied .denied _ _ _,by simp [denied],rfl,rfl⟩
      rw [hg.allowed] at hdec
      cases hdec
  | defer =>
      refine .inl ⟨fun hg => ?_,denied .deferred _ _ _,by simp [denied],rfl,rfl⟩
      rw [hg.allowed] at hdec
      cases hdec
  | allow =>
      simp only
      by_cases hd : a.control.dryRun = true
      · refine .inl ⟨fun hg => ?_,denied .dryRun _ _ _,by simp [denied],rfl,if_pos hd⟩
        rw [hg.wet] at hd
        cases hd
      simp only [if_neg hd]
      cases hok : authorizeOutbound a.control a.action a.envelope with
      | error e =>
          refine .inl ⟨fun hg => ?_,denied .denied _ _ _,by simp [denied],rfl,rfl⟩
          obtain ⟨authorization,heq⟩ := hauth.mpr ⟨hg.writes,hg.authorized⟩
          rw [heq] at hok
          cases hok
      | ok authorization =>
          obtain ⟨hwrites,hroute⟩ := hauth.mp ⟨authorization,hok⟩
          simp only
          by_cases hx : a.externalPublishingAllowed = false
          · refine .inl ⟨fun hg => ?_,denied .denied _ _ _,by simp [denied],rfl,if_pos hx⟩
            rw [hg.publishing] at hx
            cases hx
          refine .inr ⟨⟨by simpa using hp,hdec,by simpa using hd,hwrites,hroute,
            by simpa using hx⟩,authorization,(evaluateOutboundPolicy a.policy a.prunedBudget
              (outboundActionProposal a.action) a.now).budget,?_⟩
          simp only [if_neg hx]
          split <;> rfl

/-! Attempts. -/

def reportsExecuted : Except Bytes OutboundExecutionResult → Bool
  | .ok result => result.outcome = .executed
  | .error _ => false

/-- Gates first, credentials last, and every end of the attempt on record. -/
structure GatesFirst (a : Attempt) (before after : Trail)
    (answer : Except Bytes OutboundExecutionResult) : Prop where
  once : sessions after.net.calls ≤ sessions before.net.calls+1
  gated : sessions before.net.calls < sessions after.net.calls → Gates a
  executed : ∀ result, answer = .ok result → result.outcome = .executed →
    Gates a ∧ PutSucceeded a after.net.calls result
  /-- The budget gains its record exactly when the attempt reports an execution. -/
  budget : after.savedBudget =
    if reportsExecuted answer then
      some {recordOutboundAction a.prunedBudget (outboundActionProposal a.action)
        (budgetFor a.policy a.action.kind) a.now with savedAt := some a.now}
    else before.savedBudget
  returned : ∃ result, answer = .ok result ∧
    after.audit = before.audit++[a.auditEntry result] ∧
    after.journal = before.journal++[a.journalEntry result]

/-- No spool; or a spool with offline mode, where the action can be staged; or a spool
online, with every gate passed and a session to be had. -/
def SessionAfterGates (a : Attempt) (before : Trail) : Prop :=
  a.spoolRoot = false ∨
  (a.spoolRoot = true ∧ a.control.offlineMode = true ∧
    ∃ staged, spoolAppend a.documents.parses before.net.spool a.actionJson a.stamp =
      .ok staged) ∨
  (a.spoolRoot = true ∧ a.control.offlineMode = false ∧ Gates a ∧
    a.transport.session before.net.calls = .ok ())

section Run
variable {a : Attempt} {before : Trail}

/-- A decided attempt that is recorded satisfies the law if its execution does. -/
theorem gatesFirst_of_decided {result : OutboundExecutionResult}
    {budget : OutboundBudgetState} {net : NetWorld}
    (hdecide : a.decide before.net = (.ok (result,budget),net))
    (honce : sessions net.calls ≤ sessions before.net.calls+1)
    (hgated : sessions before.net.calls < sessions net.calls → Gates a)
    (hrecorded : result.budgetRecorded = true ↔ result.outcome = .executed)
    (hexecuted : result.outcome = .executed → Gates a ∧ PutSucceeded a net.calls result ∧
      budget = recordOutboundAction a.prunedBudget (outboundActionProposal a.action)
        (budgetFor a.policy a.action.kind) a.now) :
    GatesFirst a before (a.run before).2 (a.run before).1 := by
  simp only [Attempt.run,hdecide]
  refine ⟨honce,hgated,?_,?_,⟨result,rfl,rfl,rfl⟩⟩
  · intro r hr hout
    cases hr
    exact ⟨(hexecuted hout).1,(hexecuted hout).2.1⟩
  · by_cases hout : result.outcome = .executed
    · rw [if_pos (hrecorded.mpr hout),if_pos (by simpa [reportsExecuted] using hout),
        (hexecuted hout).2.2]
    · have hno : ¬result.budgetRecorded = true := fun hr => hout (hrecorded.mp hr)
      rw [if_neg hno,if_neg (by simpa [reportsExecuted] using hout)]

/-- The spec of an execution over a factory, from the one of a write. -/
theorem execute_spec (writerFor : OutboundWriterFactory) (w : NetWorld)
    (hwriter : ∀ writer, (writerFor w).1 = .ok writer → Delegates a.transport writer) :
    ∃ result budget net, a.execute writerFor w = (result,budget,net) ∧
      (result.budgetRecorded = true ↔ result.outcome = .executed) ∧
      (net = w ∧ result.outcome ≠ .executed ∨ Gates a ∧ Extends (writerFor w).2 net) ∧
      (result.outcome = .executed → Gates a ∧ PutSucceeded a net.calls result ∧
        budget = recordOutboundAction a.prunedBudget (outboundActionProposal a.action)
          (budgetFor a.policy a.action.kind) a.now) := by
  rcases execute_cases a writerFor w with ⟨_,result,⟨hout,-⟩,hrec,heq⟩ | ⟨hg,auth,status,heq⟩
  · exact ⟨result,_,w,heq,by simp [hrec,hout],.inl ⟨rfl,hout⟩,fun h => absurd h hout⟩
  · have hspec := performWrite_spec status hwriter auth
    exact ⟨_,_,_,heq,hspec.recorded,.inr ⟨hg,hspec.calls⟩,
      fun h => ⟨hg,hspec.done h,if_pos h⟩⟩

theorem sessionFactory_delegates (t : Transport) (w : NetWorld) (writer : OutboundWriter)
    (h : (sessionFactory t w).1 = .ok writer) : Delegates t writer := by
  simp only [sessionFactory] at h
  cases hs : t.session w.calls with
  | error e => rw [hs] at h; cases h
  | ok u => rw [hs] at h; cases h; exact networkWriter_delegates t

theorem sessions_sessionFactory (t : Transport) (w : NetWorld) :
    sessions (sessionFactory t w).2.calls = sessions w.calls+1 := by
  simp [sessionFactory,NetWorld.log,sessions,isSession]

theorem decide_direct (hroot : a.spoolRoot = false) :
    GatesFirst a before (a.run before).2 (a.run before).1 := by
  obtain ⟨result,budget,net,heq,hrec,hnet,hexec⟩ := execute_spec (a := a)
    (sessionFactory a.transport) before.net (fun writer h => sessionFactory_delegates _ _ _ h)
  have hdecide : a.decide before.net = (.ok (result,budget),net) := by
    simp only [Attempt.decide,hroot,Bool.false_eq_true,and_false,if_false,if_true,heq]
  have hsessions := sessions_sessionFactory a.transport before.net
  refine gatesFirst_of_decided hdecide ?_ ?_ hrec hexec
  · rcases hnet with ⟨rfl,_⟩ | ⟨_,hext⟩
    · omega
    · rw [hext.sessions_eq,hsessions]
  · rcases hnet with ⟨rfl,_⟩ | ⟨hg,_⟩
    · exact fun h => absurd h (lt_irrefl _)
    · exact fun _ => hg

theorem decide_offline (hroot : a.spoolRoot = true) (hoff : a.control.offlineMode = true)
    {staged : SpoolEntry × Spool}
    (hstaged : spoolAppend a.documents.parses before.net.spool a.actionJson a.stamp =
      .ok staged) : GatesFirst a before (a.run before).2 (a.run before).1 := by
  have hdecide : a.decide before.net =
      (.ok (a.spooledResult,a.prunedBudget),{before.net with spool := staged.2}) := by
    simp only [Attempt.decide,hroot,hoff,and_self,if_true,hstaged]
  refine gatesFirst_of_decided hdecide (by simp) (fun h => absurd h (lt_irrefl _)) ?_ ?_
  · simp [Attempt.spooledResult]
  · intro h
    cases h

/-- Online with a spool, a session that opens is followed by one staged execution. -/
theorem staged_run (hroot : a.spoolRoot = true) (hoff : a.control.offlineMode = false)
    (hsession : a.transport.session before.net.calls = .ok ()) :
    ∃ result budget net, a.decide before.net = (.ok (result,budget),net) ∧
      sessions net.calls = sessions before.net.calls+1 ∧
      (result.budgetRecorded = true ↔ result.outcome = .executed) ∧
      (result.outcome = .executed → Gates a ∧ PutSucceeded a net.calls result ∧
        budget = recordOutboundAction a.prunedBudget (outboundActionProposal a.action)
          (budgetFor a.policy a.action.kind) a.now) := by
  have hfactory : (sessionFactory a.transport before.net).1 =
      .ok (networkWriter a.transport) := by
    simp only [sessionFactory,hsession]
    rfl
  obtain ⟨result,budget,net,heq,hrec,hnet,hexec⟩ := execute_spec (a := a)
    (a.stagedFactory (networkWriter a.transport)) (sessionFactory a.transport before.net).2
    (fun writer h => by
      cases h
      exact spoolFirstWriter_delegates (networkWriter_delegates _) _ _ _)
  refine ⟨result,budget,net,?_,?_,hrec,hexec⟩
  · simp only [Attempt.decide,hroot,hoff,Bool.false_eq_true,false_and,if_false,
      Bool.true_eq_false,hfactory,heq]
  · rw [← sessions_sessionFactory a.transport before.net]
    rcases hnet with ⟨rfl,_⟩ | ⟨_,hext⟩
    · rfl
    · exact hext.sessions_eq

theorem decide_staged (hroot : a.spoolRoot = true) (hoff : a.control.offlineMode = false)
    (hg : Gates a) (hsession : a.transport.session before.net.calls = .ok ()) :
    GatesFirst a before (a.run before).2 (a.run before).1 := by
  obtain ⟨result,budget,net,hdecide,hcount,hrec,hexec⟩ := staged_run hroot hoff hsession
  exact gatesFirst_of_decided hdecide hcount.le (fun _ => hg) hrec hexec

/-- A session failure online with a spool is thrown out of the attempt. -/
theorem session_failure_thrown (hroot : a.spoolRoot = true)
    (hoff : a.control.offlineMode = false) {e : Bytes}
    (hsession : a.transport.session before.net.calls = .error e) :
    (a.run before).1 = .error e := by
  have hfactory : (sessionFactory a.transport before.net).1 = .error e := by
    simp only [sessionFactory,hsession]
    rfl
  simp only [Attempt.run,Attempt.decide,hroot,hoff,Bool.false_eq_true,false_and,if_false,
    Bool.true_eq_false,hfactory]

/-- So is an action that cannot be staged offline. -/
theorem staging_failure_thrown (hroot : a.spoolRoot = true)
    (hoff : a.control.offlineMode = true) {e : String}
    (hstaged : spoolAppend a.documents.parses before.net.spool a.actionJson a.stamp =
      .error e) : (a.run before).1 = .error (utf8 e) := by
  simp only [Attempt.run,Attempt.decide,hroot,hoff,and_self,if_true,hstaged]

/-- The law of an attempt holds exactly when no session is opened, and no action staged,
ahead of what the gates and the spool allow. -/
theorem gatesFirst_iff_sessionAfterGates (a : Attempt) (before : Trail) :
    GatesFirst a before (a.run before).2 (a.run before).1 ↔ SessionAfterGates a before := by
  constructor
  · intro h
    obtain ⟨result,hok,_,_⟩ := h.returned
    cases hroot : a.spoolRoot with
    | false => exact .inl hroot
    | true =>
        refine .inr ?_
        cases hoff : a.control.offlineMode with
        | true =>
            refine .inl ⟨hroot,rfl,?_⟩
            cases hstaged : spoolAppend a.documents.parses before.net.spool a.actionJson
                a.stamp with
            | error e =>
                rw [staging_failure_thrown hroot hoff hstaged] at hok
                cases hok
            | ok staged => exact ⟨staged,rfl⟩
        | false =>
            refine .inr ⟨hroot,rfl,?_⟩
            cases hsession : a.transport.session before.net.calls with
            | error e =>
                rw [session_failure_thrown hroot hoff hsession] at hok
                cases hok
            | ok u =>
                obtain ⟨r,budget,net,hdecide,hcount,_⟩ := staged_run hroot hoff hsession
                refine ⟨h.gated ?_,rfl⟩
                simp only [Attempt.run,hdecide,hcount]
                exact Nat.lt_succ_self _
  · rintro (hroot | ⟨hroot,hoff,staged,hstaged⟩ | ⟨hroot,hoff,hg,hsession⟩)
    · exact decide_direct hroot
    · exact decide_offline hroot hoff hstaged
    · exact decide_staged hroot hoff hg hsession

end Run

/-- A paused runtime with a spool, and a network that would answer. -/
def pausedAttempt : Attempt where
  action := {rkey := utf8 "3ka", text := utf8 "hello"}
  now := 1000
  control := {paused := true}
  policy := {}
  budget := {}
  envelope := none
  spoolRoot := true
  attest := none
  mac := none
  externalPublishingAllowed := true
  transport := ⟨fun _ => .ok (),fun _ _ => .ok [],fun _ _ _ _ => .ok {}⟩
  documents := ⟨fun _ => [],fun _ => none⟩
  unicode := Core.Utf8proc.plain

/-- The writer factory is called although the runtime is paused. -/
theorem paused_attempt_opens_session :
    ¬GatesFirst pausedAttempt {} (pausedAttempt.run {}).2 (pausedAttempt.run {}).1 := by
  intro h
  have hcalled : sessions (pausedAttempt.run {}).2.net.calls = 1 := rfl
  have hgates := h.gated (by rw [hcalled]; exact Nat.one_pos)
  exact absurd hgates.running (by decide)

end Atperson.Outbound
