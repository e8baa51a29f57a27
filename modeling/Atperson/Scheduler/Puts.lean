import Atperson.Core.Expansion
import Atperson.Scheduler.Cycle
import Atperson.Scheduler.Starvation

/-!
# What a cycle puts

The pass over the queue puts what the guards let through, under the outbound lock, and not while
the breaker is open. A replay from the spool asks for none of it. A cycle keeps what is promised of
every put exactly when no replay comes to one, and which entry does can be read off the files.
-/
namespace Atperson.Scheduler
open Wire Journal Outbound Control

/-- What is promised of a put. -/
structure Cleared (config : SchedulerConfig) (view : CycleView) (invited : List Bytes)
    (put : CyclePut) : Prop where
  text : isTextKind put.action.kind = true →
    (checkOutputText put.action.text config.guard put.recent view.now).allowed = true
  engagement : checkEngagement put.action.kind (actionTargetDid put.action) config.engagement invited
    view.optedOut = .none
  shut : breakerGate put.breaker view.now ≠ .opened
  locked : put.locked = true

/-- The record of an action, from what a session with these calls behind it finds. -/
def recordAfter (transport : Transport) (action : OutboundAction) (calls : List NetCall) :
    Option (Json Double) :=
  match (resolveCids action (networkWriter transport) {calls}).1 with
  | .error _ => none
  | .ok (rootCid,parentCid,subjectCid) =>
      (buildOutboundRecordJson action rootCid parentCid subjectCid).toOption

/-- Whether a write comes to its put: a session is had, and the record is built. -/
def reachesPut (transport : Transport) (action : OutboundAction) (calls : List NetCall) : Bool :=
  (transport.session calls).isOk && (recordAfter transport action (calls++[.writerFor])).isSome

section Replay
variable (view : ExecutionView) (budget : OutboundBudgetState) (calls : List NetCall)
  (entry : SpoolEntry)

/-- What the gates of a replay are asked. -/
def replayGates (action : OutboundAction) (coverage : Option Envelope.EnvelopeCoverage) : Prop :=
  Gates (attemptOf (replayView view) budget coverage action)

/-- An entry whose replay a gate refuses. -/
def Refused : Prop :=
  ∃ action coverage, replayAction view entry = .ok action ∧
    coverageOf view budget action = .ok coverage ∧ ¬replayGates view budget action coverage

/-- An entry whose replay passes every gate and comes to its put. -/
def Published : Prop :=
  ∃ action coverage, replayAction view entry = .ok action ∧
    coverageOf view budget action = .ok coverage ∧ replayGates view budget action coverage ∧
      reachesPut view.transport action calls = true

end Replay

/-- Calls are added, so many of them puts. -/
def Puts (n : ℕ) (w w' : NetWorld) : Prop :=
  ∃ extra, w'.calls = w.calls++extra ∧ (extra.filter isPut).length = n

theorem Puts.refl (w : NetWorld) : Puts 0 w w := ⟨[],(List.append_nil _).symm,rfl⟩

theorem Puts.log (w : NetWorld) (call : NetCall) : Puts (isPut call).toNat w (w.log call) := by
  refine ⟨[call],rfl,?_⟩
  cases h : isPut call with
  | false => simp [h]
  | true => simp [h]

theorem Puts.trans {m n : ℕ} {w w' w'' : NetWorld} (h : Puts m w w') (h' : Puts n w' w'') :
    Puts (m+n) w w'' := by
  obtain ⟨first,hfirst,hm⟩ := h
  obtain ⟨second,hsecond,hn⟩ := h'
  refine ⟨first++second,?_,?_⟩
  · rw [hsecond,hfirst,List.append_assoc]
  · rw [List.filter_append,List.length_append,hm,hn]

theorem Puts.since {n : ℕ} {w w' : NetWorld} (h : Puts n w w') (put : CyclePut) :
    putsSince w w' put = List.replicate n put := by
  obtain ⟨extra,hcalls,hn⟩ := h
  unfold putsSince
  rw [hcalls,List.drop_left,List.map_const',hn]

section Drain
variable {view : ExecutionView} {s : Executing} {entry : SpoolEntry}

/-- The attempt that a replay makes. -/
def replayAttempt (view : ExecutionView) (budget : OutboundBudgetState) (action : OutboundAction)
    (coverage : Option Envelope.EnvelopeCoverage) : Attempt :=
  attemptOf (replayView view) budget coverage action

/-- A replay has no spool of its own, so it is one execution with a session. -/
theorem replay_decide (view : ExecutionView) (budget : OutboundBudgetState)
    (coverage : Option Envelope.EnvelopeCoverage) (action : OutboundAction) (w : NetWorld) :
    let done := (replayAttempt view budget action coverage).execute (sessionFactory view.transport) w
    (replayAttempt view budget action coverage).decide w = (.ok (done.1,done.2.1),done.2.2) := by
  simp only [Attempt.decide,replayAttempt,attemptOf,replayView,Bool.false_eq_true,and_false,if_false,
    if_true]

/-- What can become of an entry. -/
inductive Replayed (view : ExecutionView) (s : Executing) (entry : SpoolEntry) (r : Executed) : Prop
  | ended (unrefused : ¬Refused view s.budget entry)
      (unput : ¬Published view s.budget s.net.calls entry)
      (puts : replayPuts view s r.state entry = []) (last : ∀ s', r ≠ .next s')
  | passed (refused : Refused view s.budget entry)
      (unput : ¬Published view s.budget s.net.calls entry)
      {s' : Executing} (eq : r = .next s') (puts : replayPuts view s s' entry = [])
      (budget : s'.budget = s.budget) (calls : s'.net.calls = s.net.calls)
  | put (published : Published view s.budget s.net.calls entry)
      (puts : replayPuts view s r.state entry ≠ [])

theorem Replayed.unread (hread : ∀ action coverage, replayAction view entry = .ok action →
      coverageOf view s.budget action = .ok coverage → False) {m : Bytes}
    (hputs : replayPuts view s s entry = []) : Replayed view s entry (.thrown s m) := by
  refine .ended ?_ ?_ hputs ?_
  · exact fun ⟨action,coverage,haction,hcoverage,_⟩ => hread action coverage haction hcoverage
  · exact fun ⟨action,coverage,haction,hcoverage,_⟩ => hread action coverage haction hcoverage
  · intro s' h
    cases h

end Drain

/-! ## The pass over the queue -/

section Execution
variable {settings : ExecutionSettings} {view : ExecutionView} {s : Executing} {file : ProposalFile}
  {action : OutboundAction} {result : OutboundExecutionResult}

def Unopened (now : ℤ) (state : BreakerState) : Prop := breakerGate state now ≠ .opened

/-- What one turn does to the breaker, and what it puts. -/
structure Restrained (settings : ExecutionSettings) (view : ExecutionView) (s : Executing)
    (file : ProposalFile) (r : Executed) : Prop where
  unopened : ∀ s', r = .next s' → Unopened view.now s.breaker → Unopened view.now s'.breaker
  puts : ∀ put ∈ executePuts s r.state file,
    textAllowed settings view put.recent put.action = true ∧
      engagementAllowed settings view put.action = true ∧ put.breaker = s.breaker ∧
        put.locked = true

theorem executePuts_still {s' : Executing} (h : s'.net = s.net) : executePuts s s' file = [] := by
  unfold executePuts
  split
  · rfl
  · rw [h,(Puts.refl s.net).since]
    rfl

theorem Restrained.still {s' : Executing} (hnet : s'.net = s.net)
    (hbreaker : Unopened view.now s.breaker → Unopened view.now s'.breaker) {r : Executed}
    (hstate : r.state = s') : Restrained settings view s file r := by
  subst hstate
  refine ⟨fun s' h => ?_,?_⟩
  · subst h
    exact hbreaker
  · rw [executePuts_still hnet]
    exact List.forall_mem_nil _

end Execution

/-! ## The cycle -/

section Cycle

/-- What the stages before the execution hand on. -/
structure Handed (c c' : Cycling) : Prop where
  events : c'.desk.journal.events = c.desk.journal.events
  actions : c'.desk.journal.actions = c.desk.journal.actions
  audit : c'.desk.audit = c.desk.audit
  budget : c'.desk.budget = c.desk.budget
  attempts : c'.attempts = c.attempts
  puts : c'.puts = c.puts

theorem Handed.trans {c c' c'' : Cycling} (h : Handed c c') (h' : Handed c' c'') : Handed c c'' :=
  ⟨h'.events.trans h.events,h'.actions.trans h.actions,h'.audit.trans h.audit,
    h'.budget.trans h.budget,h'.attempts.trans h.attempts,h'.puts.trans h.puts⟩

variable (config : SchedulerConfig) (view : CycleView) (c : Cycling)

end Cycle

namespace Sample

/-- A reply queued for the spool before its words were denied and its addressee opted out. -/
def stale : OutboundAction where
  kind := .reply
  text := utf8 "hello bait"
  replyRoot := utf8 "at://did:plc:b/app.bsky.feed.post/1"
  replyParent := utf8 "at://did:plc:b/app.bsky.feed.post/1"
  rkey := utf8 "3a"
  createdAt := utf8 "2024-01-01T00:00:00Z"
  digest := ones

def replying : CycleView where
  toExecutionView := {posting with
    policy := {budgets := fun kind => {enabled := kind = .reply}}
    optedOut := [utf8 "did:plc:b"]
    spoolRoot := true
    transport := ⟨fun _ => .ok (),fun _ _ => .ok (utf8 "c"),fun _ _ _ _ => .ok {}⟩
    documents := ⟨fun _ => [],fun _ => some (serialiseOutboundAction stale)⟩}
  items := []
  graph := Core.Sample.taught
  decide := fun _ => .error ""

def scheduled : SchedulerConfig where
  enabled := true
  intents := ⟨false,3,4,100⟩
  guard := {deniedTerms := [utf8 "bait"]}
  breaker := .default

/-- A spool of one entry, and a breaker that is open. -/
def spooled : ExecutionDesk where
  queue := []
  budget := {}
  journal := {}
  net := {spool := {pending := [⟨1,[],[]⟩]}}
  savedBreaker := {BreakerState.closed with openUntil := 1704200100}

theorem stale_put : ∃ put ∈ (runSchedulerCycle scheduled replying spooled).1.puts,
    (checkOutputText put.action.text scheduled.guard put.recent replying.now).allowed = false ∧
      checkEngagement put.action.kind (actionTargetDid put.action) scheduled.engagement
        (invitedAuthors spooled.journal) replying.optedOut = .optedOut ∧
      breakerGate put.breaker replying.now = .opened ∧ put.locked = false := by
  decide +kernel

/-- The spooled reply goes out against the denylist, to one who opted out, while the breaker is open
and without the lock. -/
theorem stale_published : ¬∀ (config : SchedulerConfig) (view : CycleView) (desk : ExecutionDesk),
    ∀ put ∈ (runSchedulerCycle config view desk).1.puts,
      Cleared config view (invitedAuthors desk.journal) put := by
  intro h
  obtain ⟨put,hput,-,-,-,hunlocked⟩ := stale_put
  have hlocked := (h scheduled replying spooled put hput).locked
  rw [hunlocked] at hlocked
  cases hlocked

end Sample

end Atperson.Scheduler
