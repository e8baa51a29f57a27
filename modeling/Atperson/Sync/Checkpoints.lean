import Atperson.Sync.Gaps

/-!
# Checkpoints on an unfiltered stream

One client and one ingestion state go from call to call. The law is that no number is missed
up to the persisted cursor, unless a verified resync covers it, and that the persisted pair is
that of the last commit that advanced.
-/
namespace Atperson.Sync
open Wire
open Atperson.Core (Utf8proc)
open Runs

/-! ## Calls on one client -/

/-- What one call meets. -/
structure StreamCall where
  received : List Received
  maxEvents : ℕ
  env : ℕ → EventEnv
  recordCommitEvidence : Bool
  jumpEvidence : Option Thrown
  resync : Option (ResyncPlan → Except Thrown (Option JetstreamResyncResult))

/-- A run on the way: beside what the call carries over, the positions delivered so far (the
cursor it started from among them), the numbers verified resyncs reached, and the pair of the
last commit that advanced. -/
structure Feed where
  learner : Learner
  state : IngestionState
  client : Bytes
  heard : List ℕ
  covered : List ℕ
  commit : Option (Bytes×Bytes)

/-- The positions of a batch. -/
def Fetch.heard (v2 : Bool) (b : Fetch) : List ℕ :=
  b.frames.filterMap fun f => if f.sequence v2 ≠ 0 then some (f.place v2) else none

/-- The repository and revision of a commit that is handed over. -/
def Frame.pair (f : Frame) : Option (Bytes×Bytes) :=
  match f.did,f.json with
  | some did,some _ => if f.kind = .commit ∧ f.rev ≠ [] then some (did,f.rev) else none
  | _,_ => none

/-- The pair of the last commit that advances the cursor. -/
def lastCommit (v2 : Bool) : CursorState → Option (Bytes×Bytes) → List Frame → Option (Bytes×Bytes)
  | _, last, [] => last
  | s, last, f::fs =>
      lastCommit v2 (follows s (f.events v2)).1
        (if (observeSequence s (f.sequence v2) true).2 = .advanced then f.pair.or last else last) fs

/-- The answer of the executor that closes the gap, if there is one. -/
def recovery (resync : Option (ResyncPlan → Except Thrown (Option JetstreamResyncResult)))
    (s : CursorState) : Option JetstreamResyncResult :=
  resync.bind fun execute => (planResync s 0).bind fun plan =>
    match execute plan with
    | .ok (some r) => if (completeResync s r).isSome then some r else none
    | _ => none

section Calls
variable (U : Utf8proc) (linker evidence v2 : Bool)

def StreamCall.fetch (c : StreamCall) (client : Bytes) : Fetch :=
  fetchBatch v2 c.maxEvents client c.received

/-- The batch a client without filters makes of it. -/
def StreamCall.batch (c : StreamCall) (client : Bytes) : Batch where
  recordCommitEvidence := c.recordCommitEvidence
  filtered := false
  events := ((c.fetch v2 client).events v2).mapIdx fun i e => (c.env i,e)
  fetched := (c.fetch v2 client).reply
  jumpEvidence := c.jumpEvidence
  resync := c.resync
  cursor := (c.fetch v2 client).cursor

/-- The protocol cursor behind the events of a call, and whether one asks for a resync. -/
def Feed.follow (f : Feed) (c : StreamCall) : CursorState×Bool :=
  follows f.state.catchup.protocolCursor ((c.fetch v2 f.client).events v2)

/-- The resync that closes the gap of a call. -/
def Feed.recovered (f : Feed) (c : StreamCall) : Option JetstreamResyncResult :=
  if (f.follow v2 c).2 then recovery c.resync (f.follow v2 c).1 else none

/-- A call; none where it throws, which ends the command and its client. -/
def Feed.call (f : Feed) (c : StreamCall) : Option Feed :=
  let fetch := c.fetch v2 f.client
  let reply := runJetstreamBackfill U linker evidence f.learner f.state (c.batch v2 f.client)
  match reply.outcome with
  | .error _ => none
  | .ok _ => some {
      learner := reply.learner
      state := reply.state
      client := fetch.cursor
      heard := f.heard++fetch.heard v2
      covered := f.covered++((f.recovered v2 c).map fun r => r.sequence.toNat).toList
      commit := match f.recovered v2 c with
        | some r => some (r.repo,r.revision)
        | none => lastCommit v2 f.state.catchup.protocolCursor f.commit fetch.frames}

def Feed.step (f : Option Feed) (c : StreamCall) : Option Feed :=
  f.bind fun f => f.call U linker evidence v2 c

end Calls

/-! ## What a call leaves of the cursor -/

section Reply
variable {U : Utf8proc} {linker evidence v2 : Bool} {f f' : Feed} {c : StreamCall}

theorem protocolCursor_paired (w : Learner) (state : IngestionState) :
    Intake.Paired ⟨w,state.begin,state.catchup.protocolCursor,0,.empty⟩ := by
  have hbegin : state.begin.catchup = state.catchup := by
    unfold IngestionState.begin
    split <;> rfl
  unfold Intake.Paired
  simp only [hbegin]
  unfold CatchupCursor.protocolCursor
  simp only
  split
  · rename_i hrepo hrev
    exact .inr ⟨hrepo,hrev⟩
  · exact .inl rfl

/-- What a resync leaves, with the answer that closed the gap. -/
inductive Resynced (p : Intake) : Option JetstreamResyncResult → Intake → Prop
  | untouched : Resynced p none p
  | recovered (r : JetstreamResyncResult) (p' : Intake)
      (lost : p'.result.protocolResyncRequired = false)
      (exhausted : p'.result.exhausted = p.result.exhausted)
      (repo : p'.state.catchup.protocolRepo = some r.repo)
      (revision : p'.state.catchup.protocolRevision = some r.revision) :
      Resynced p (some r) p'

theorem resync_resynced {p p' : Intake}
    {resync : Option (ResyncPlan → Except Thrown (Option JetstreamResyncResult))}
    (h : p.resync resync = .ok p') :
    Resynced p (if p.result.protocolResyncRequired then recovery resync p.cursor else none) p' := by
  unfold Intake.resync at h
  cases resync with
  | none =>
      obtain rfl := Except.ok.inj h
      simp only [recovery,Option.bind_none,ite_self]
      exact .untouched
  | some execute =>
      cases hplan : planResync p.cursor 0 with
      | none =>
          rw [hplan] at h
          obtain rfl := Except.ok.inj h
          simp only [recovery,Option.bind_some,hplan,Option.bind_none,ite_self]
          exact .untouched
      | some plan =>
          rw [hplan] at h
          simp only [recovery,Option.bind_some,hplan]
          cases hlost : p.result.protocolResyncRequired with
          | false =>
              rw [hlost] at h
              obtain rfl := Except.ok.inj h
              exact .untouched
          | true =>
              simp only [hlost,Option.filter_some,if_true] at h ⊢
              rcases hanswer : execute plan with t | _ | r
              · rw [hanswer] at h
                cases h
              · rw [hanswer] at h
                obtain rfl := Except.ok.inj h
                exact .untouched
              · rw [hanswer] at h
                simp only at h ⊢
                cases hclose : completeResync p.cursor r with
                | none =>
                    rw [hclose] at h
                    obtain rfl := Except.ok.inj h
                    exact .untouched
                | some cursor =>
                    rw [hclose] at h
                    obtain rfl := Except.ok.inj h
                    exact .recovered r _ rfl rfl rfl rfl

/-- The catchup cursor behind a call. -/
def Feed.behind (v2 : Bool) (f : Feed) (c : StreamCall) : CatchupCursor :=
  let cursor := (c.fetch v2 f.client).cursor
  let persisted := if cursor = [] then none else some cursor
  match f.recovered v2 c with
  | some r => ⟨cursor ≠ [],persisted,some r.repo,some r.revision⟩
  | none =>
      if (f.follow v2 c).2 then {f.state.catchup with active := true}
      else {f.state.catchup with active := cursor ≠ [],cursor := persisted}

theorem reconcile_state {p p' : Intake} (h : p.reconcile U = .ok p') :
    p'.state = p.state ∧ p'.result.protocolResyncRequired = p.result.protocolResyncRequired ∧
      p'.result.exhausted = p.result.exhausted := by
  unfold Intake.reconcile at h
  split at h
  · split at h <;> cases h
    exact ⟨rfl,rfl,rfl⟩
  · cases h
    exact ⟨rfl,rfl,rfl⟩

theorem batch_events (c : StreamCall) (client : Bytes) :
    (c.batch v2 client).events.map Prod.snd = (c.fetch v2 client).events v2 := by
  refine List.ext_getElem? fun i => ?_
  simp [StreamCall.batch]

theorem finish_behind {b : Batch} {p : Intake} {fetched : BatchResult} {r : JetstreamRunResult}
    (h : (p.finish U evidence b fetched).outcome = .ok r) :
    ∃ p', Resynced {p with result := {p.result with
        eventsConsumed := fetched.framesConsumed
        malformedFrames := fetched.malformedFrames
        exhausted := fetched.exhausted
        filteredSequenceJumps := p.jumps}}
      (if p.result.protocolResyncRequired then recovery b.resync p.cursor else none) p' ∧
      (p.finish U evidence b fetched).state.catchup = (p'.moveCursor b.cursor).state.catchup := by
  unfold Intake.finish at h ⊢
  simp only at h ⊢
  split at h
  · cases h
  · split at h
    · cases h
    · rename_i p₁ hsync
      split at h
      · cases h
      · rename_i p₂ hrec
        obtain ⟨hstate,hlost,hexhausted⟩ := reconcile_state hrec
        refine ⟨p₁,resync_resynced hsync,?_⟩
        simp only [Intake.checkpoint,Intake.moveCursor,hstate,hlost,hexhausted]

theorem call_behind (h : f.call U linker evidence v2 c = some f') :
    f'.state.catchup = f.behind v2 c := by
  have hpaired := protocolCursor_paired f.learner f.state
  have hbegin : f.state.begin.catchup = f.state.catchup := by
    unfold IngestionState.begin
    split <;> rfl
  unfold Feed.call at h
  simp only at h
  split at h
  · cases h
  · rename_i r hreply
    obtain rfl := Option.some.inj h
    simp only
    unfold runJetstreamBackfill at hreply ⊢
    simp only at hreply ⊢
    rcases hintake : intake U linker (Intake.enter evidence (!(c.batch v2 f.client).filtered)
      (c.batch v2 f.client).recordCommitEvidence)
      ⟨f.learner,f.state.begin,f.state.catchup.protocolCursor,0,.empty⟩
      (c.batch v2 f.client).events with ⟨p,t | u⟩
    · rw [hintake] at hreply
      cases hreply
    · rw [hintake] at hreply
      have hquiet := @frames_quiet v2 (c.fetch v2 f.client).frames f.state.catchup.protocolCursor
      have htracked := intake_tracked hintake (by rw [batch_events]; exact hquiet) hpaired
      rw [batch_events] at htracked
      obtain ⟨hcursor,hlost,hstate⟩ := htracked
      simp only at hreply ⊢
      cases hfetched : (c.batch v2 f.client).fetched with
      | error t =>
          rw [hfetched] at hreply
          cases hreply
      | ok fetched =>
          rw [hfetched] at hreply
          obtain ⟨p',hresynced,hcatchup⟩ := finish_behind hreply
          have hexhausted : fetched.exhausted = false := fetchFrom_exhausted hfetched
          have hp : p.result.protocolResyncRequired = (f.follow v2 c).2 := hlost
          have hq : p.cursor = (f.follow v2 c).1 := hcursor
          have hcatch : p.state.catchup = f.state.catchup := by
            rw [hstate]
            exact hbegin
          simp only at hcatchup ⊢
          rw [hcatchup]
          rw [hp,hq] at hresynced
          change Resynced _ (f.recovered v2 c) p' at hresynced
          unfold Feed.behind
          generalize f.recovered v2 c = answer at hresynced ⊢
          cases hresynced with
          | untouched =>
              simp only [Intake.moveCursor,hp,hexhausted,hcatch]
              split <;> rfl
          | recovered r _ hclosed hopen hrepo hrevision =>
              have hopen : p'.result.exhausted = false := hopen.trans hexhausted
              simp only [Intake.moveCursor,hclosed,hopen,hrepo,hrevision]
              rfl

theorem call_fields (h : f.call U linker evidence v2 c = some f') :
    f'.client = (c.fetch v2 f.client).cursor ∧
      f'.heard = f.heard++(c.fetch v2 f.client).heard v2 ∧
      f'.covered = f.covered++((f.recovered v2 c).map fun r => r.sequence.toNat).toList ∧
      f'.commit = match f.recovered v2 c with
        | some r => some (r.repo,r.revision)
        | none => lastCommit v2 f.state.catchup.protocolCursor f.commit
            (c.fetch v2 f.client).frames := by
  unfold Feed.call at h
  simp only at h
  split at h
  · cases h
  · obtain rfl := Option.some.inj h
    exact ⟨rfl,rfl,rfl,rfl⟩

end Reply

/-! ## What is missed -/

/-- Between the numbers heard and a number, all are heard or covered by a resync. -/
def Whole (heard covered : List ℕ) (n : ℕ) : Prop :=
  ∀ a ∈ heard, ∀ m, a < m → m ≤ n → m ∈ heard ∨ ∃ r ∈ covered, m ≤ r

def numeral (text : Bytes) : Option ℕ := (parseCursor text).map UInt64.toNat

namespace Feed

def persisted (f : Feed) : Option ℕ := f.state.catchup.cursor.bind numeral

/-- Nothing is missed up to the persisted cursor. -/
def Unskipped (f : Feed) : Prop := ∀ n ∈ f.persisted, Whole f.heard f.covered n

/-- The persisted pair is that of the last commit that advanced. -/
def Noted (f : Feed) : Prop := ∀ pair ∈ f.commit,
  f.state.catchup.protocolRepo = some pair.1 ∧ f.state.catchup.protocolRevision = some pair.2

section Guards
variable (v2 : Bool) (f : Feed) (c : StreamCall)

/-- What will have been heard and covered behind a call. -/
def WholeBehind (n : ℕ) : Prop :=
  Whole (f.heard++(c.fetch v2 f.client).heard v2)
    (f.covered++((f.recovered v2 c).map fun r => r.sequence.toNat).toList) n

/-- A call whose checkpoint does not come from the numbers its events have: it has no cursor to
go on from though something was heard, is handed nothing, is handed a frame without a DID or a
body, or closes a gap. -/
def Loose : Prop :=
  (f.persisted = none ∧ f.heard ≠ []) ∨
    (∀ x ∈ (c.fetch v2 f.client).frames, x.handed = false) ∨
    (∃ x ∈ (c.fetch v2 f.client).frames, x.handed = false ∧ x.sequence v2 ≠ 0) ∨
    (f.recovered v2 c).isSome = true

/-- A call that goes below all that was heard misses nothing on the way back, and one that is
loose misses nothing on the way to where its client stands. -/
def Unbroken : Prop :=
  ((∃ p ∈ (c.fetch v2 f.client).heard v2, ∀ a ∈ f.heard, p < a) →
    ∀ n ∈ f.persisted, f.WholeBehind v2 c n) ∧
  ((f.follow v2 c).2 = false ∨ (f.recovered v2 c).isSome = true → f.Loose v2 c →
    ∀ n ∈ numeral (c.fetch v2 f.client).cursor, f.WholeBehind v2 c n)

/-- The last commit that advances in a call has the pair that is persisted already. -/
def Known : Prop := f.recovered v2 c = none →
  ∀ pair ∈ lastCommit v2 f.state.catchup.protocolCursor none (c.fetch v2 f.client).frames,
    f.state.catchup.protocolRepo = some pair.1 ∧ f.state.catchup.protocolRevision = some pair.2

end Guards

/-- The run a client starts; it refuses a cursor that is no positive number. -/
def opened (w : Learner) (state : IngestionState) : Feed where
  learner := w
  state
  client := state.catchup.cursor.getD []
  heard := (state.catchup.cursor.bind numeral).toList
  covered := []
  commit := none

/-- A cursor as the client takes it. -/
def Positive (text : Bytes) : Prop := ∃ n, parseCursor text = some n ∧ n ≠ 0

/-- What every call keeps, beside the law itself. -/
structure Tidy (f : Feed) : Prop where
  unskipped : f.Unskipped
  text : ∀ text ∈ f.state.catchup.cursor, Positive text
  client : f.client = [] ∨ Positive f.client

theorem opened_tidy {w : Learner} {state : IngestionState}
    (h : ∀ text ∈ state.catchup.cursor, Positive text) : (opened w state).Tidy := by
  refine ⟨fun n hn a ha m hlt hle => ?_,h,?_⟩
  · have ha' : state.catchup.cursor.bind numeral = some a := Option.mem_toList.mp ha
    have hn' : state.catchup.cursor.bind numeral = some n := hn
    obtain rfl := Option.some.inj (ha'.symm.trans hn')
    exact absurd hle (not_le.mpr hlt)
  · unfold opened
    cases hcursor : state.catchup.cursor with
    | none => exact .inl rfl
    | some text => exact .inr (h text hcursor)

section Step
variable {U : Utf8proc} {linker evidence v2 : Bool} {f f' : Feed} {c : StreamCall}

theorem positive_moves {cursor : Bytes} (h : cursor = [] ∨ Positive cursor) (fs : List Frame) :
    fs.foldl (Frame.moves v2) cursor = [] ∨ Positive (fs.foldl (Frame.moves v2) cursor) := by
  induction fs generalizing cursor with
  | nil => exact h
  | cons f rest ih =>
      refine ih ?_
      by_cases hf : f.sequence v2 = 0
      · rw [moves_zero hf]
        exact h
      · rw [moves_decimal hf]
        exact .inr ⟨_,parseCursor_decimal _,hf⟩

/-- Frames that are not handed over and have no position change nothing. -/
theorem handed_only {fs : List Frame} (h : ∀ x ∈ fs, x.handed = false → x.sequence v2 = 0) :
    (fs.filter Frame.handed).flatMap (Frame.events v2) = fs.flatMap (Frame.events v2) ∧
      ∀ cursor, (fs.filter Frame.handed).foldl (Frame.moves v2) cursor =
        fs.foldl (Frame.moves v2) cursor := by
  induction fs with
  | nil => exact ⟨rfl,fun _ => rfl⟩
  | cons f rest ih =>
      obtain ⟨hf,hrest⟩ := List.forall_mem_cons.mp h
      obtain ⟨hevents,hmoves⟩ := ih hrest
      cases hh : f.handed with
      | true =>
          rw [List.filter_cons_of_pos hh,List.flatMap_cons,List.flatMap_cons,hevents]
          exact ⟨rfl,fun cursor => hmoves _⟩
      | false =>
          rw [List.filter_cons_of_neg (by rw [hh]; decide),List.flatMap_cons,events_silent hh]
          exact ⟨hevents,fun cursor => by
            rw [List.foldl_cons,moves_zero (hf hh)]
            exact hmoves cursor⟩

theorem mem_heard {b : Fetch} {n : ℕ} :
    n ∈ b.heard v2 ↔ ∃ x ∈ b.frames, x.sequence v2 ≠ 0 ∧ x.place v2 = n := by
  unfold Fetch.heard
  rw [List.mem_filterMap]
  refine exists_congr fun x => and_congr_right fun _ => ?_
  by_cases hx : x.sequence v2 = 0 <;> simp [hx]

/-- The number of the protocol cursor a call starts with. -/
theorem protocolCursor_last (f : Feed) : f.state.catchup.protocolCursor.lastSequence =
    (f.state.catchup.cursor.bind parseCursor).getD 0 ∧
      f.state.catchup.protocolCursor.resyncRequired = false := by
  unfold CatchupCursor.protocolCursor
  simp only
  split <;> exact ⟨rfl,rfl⟩

theorem Whole.more {heard heard' covered covered' : List ℕ} {n : ℕ}
    (h : ∀ a ∈ heard, ∀ m, a < m → m ≤ n → m ∈ heard ∨ ∃ r ∈ covered, m ≤ r)
    (hh : heard ⊆ heard') (hc : covered ⊆ covered') :
    ∀ a ∈ heard, ∀ m, a < m → m ≤ n → m ∈ heard' ∨ ∃ r ∈ covered', m ≤ r := by
  intro a ha m hlt hle
  rcases h a ha m hlt hle with hm | ⟨r,hr,hm⟩
  · exact .inl (hh hm)
  · exact .inr ⟨r,hc hr,hm⟩

/-- A call that stays behind its cursor misses nothing up to it, unless it goes below all that
was heard. -/
theorem whole_behind (h : f.Unskipped)
    (hbelow : (∃ p ∈ (c.fetch v2 f.client).heard v2, ∀ a ∈ f.heard, p < a) →
      ∀ n ∈ f.persisted, f.WholeBehind v2 c n) {n : ℕ} (hn : n ∈ f.persisted) :
    f.WholeBehind v2 c n := by
  by_cases hlow : ∃ p ∈ (c.fetch v2 f.client).heard v2, ∀ a ∈ f.heard, p < a
  · exact hbelow hlow n hn
  · intro a ha m hlt hle
    have hmore := Whole.more (h n hn) (List.subset_append_left f.heard
      ((c.fetch v2 f.client).heard v2)) (List.subset_append_left f.covered
      ((f.recovered v2 c).map fun r => r.sequence.toNat).toList)
    rcases List.mem_append.mp ha with ha | ha
    · exact hmore a ha m hlt hle
    · push Not at hlow
      obtain ⟨b,hb,hle'⟩ := hlow a ha
      exact hmore b hb m (by omega) hle

/-- What a row of frames behind a standing cursor leaves the client with. -/
theorem row_numeral {fs : List Frame} {s s' : CursorState} (hrow : InRow v2 fs s s')
    (hne : fs ≠ []) (cursor : Bytes) :
    numeral (fs.foldl (Frame.moves v2) cursor) = some s'.lastSequence.toNat := by
  rw [hrow.cursor hne,numeral,parseCursor_decimal]
  rfl

/-- A call that is not loose and asks for no resync has heard every number up to where its
client stands. -/
theorem whole_inRow (h : f.Tidy) (hlost : (f.follow v2 c).2 = false)
    (hnot : ¬f.Loose v2 c) {n : ℕ} (hn : n ∈ numeral (c.fetch v2 f.client).cursor) :
    f.WholeBehind v2 c n := by
  obtain ⟨hgoing,hnot⟩ := not_or.mp hnot
  obtain ⟨hsome,hnot⟩ := not_or.mp hnot
  obtain ⟨hsilent,-⟩ := not_or.mp hnot
  have hsilent : ∀ x ∈ (c.fetch v2 f.client).frames, x.handed = false → x.sequence v2 = 0 :=
    fun x hx hh => by_contra fun hne => hsilent ⟨x,hx,hh,hne⟩
  obtain ⟨hevents,hmoves⟩ := handed_only hsilent
  have hcursor : (c.fetch v2 f.client).cursor =
      (c.fetch v2 f.client).frames.foldl (Frame.moves v2) f.client := fetchFrom_cursor _ _ _ _
  have hall : ∀ x ∈ (c.fetch v2 f.client).frames.filter Frame.handed, x.handed = true :=
    fun x hx => (List.mem_filter.mp hx).2
  have hin : ∀ x ∈ (c.fetch v2 f.client).frames.filter Frame.handed, x.sequence v2 ≠ 0 →
      x.place v2 ∈ (c.fetch v2 f.client).heard v2 :=
    fun x hx hne => mem_heard.mpr ⟨x,List.mem_of_mem_filter hx,hne,rfl⟩
  have hout : ∀ m ∈ (c.fetch v2 f.client).heard v2,
      ∃ x ∈ (c.fetch v2 f.client).frames.filter Frame.handed, x.place v2 = m := by
    intro m hm
    obtain ⟨x,hx,hne,hplace⟩ := mem_heard.mp hm
    refine ⟨x,List.mem_filter.mpr ⟨hx,?_⟩,hplace⟩
    exact Bool.not_eq_false _ ▸ fun hh => hne (hsilent x hx hh)
  have hne : (c.fetch v2 f.client).frames.filter Frame.handed ≠ [] := by
    intro hnil
    refine hsome fun x hx => ?_
    exact Bool.eq_false_iff.mpr (List.filter_eq_nil_iff.mp hnil x hx)
  obtain ⟨hlast,hcalm⟩ := protocolCursor_last f
  unfold follow Fetch.events at hlost
  rw [hcursor,← hmoves] at hn
  rw [← hevents] at hlost
  unfold WholeBehind
  generalize (c.fetch v2 f.client).frames.filter Frame.handed = fs at *
  generalize (c.fetch v2 f.client).heard v2 = heard at *
  cases htext : f.state.catchup.cursor with
  | some text =>
      obtain ⟨start,hparse,hstart⟩ := h.text text htext
      rw [htext,Option.bind_some,hparse,Option.getD_some] at hlast
      have hrow := frames_inRow hall hlost (by rw [hlast]; exact hstart) hcalm
      have hpersisted : f.persisted = some start.toNat := by
        rw [persisted,htext,Option.bind_some,numeral,hparse]
        rfl
      rw [row_numeral hrow hne] at hn
      obtain rfl := Option.some.inj hn
      intro a ha m hlt hle
      by_cases hm : m ≤ start.toNat
      · rcases List.mem_append.mp ha with ha | ha
        · exact Whole.more (h.unskipped _ hpersisted) (List.subset_append_left _ _)
            (List.subset_append_left _ _) a ha m hlt hm
        · obtain ⟨x,hx,rfl⟩ := hout a ha
          have := (hrow.numbered x hx).2
          rw [hlast] at this
          omega
      · obtain ⟨x,hx,rfl⟩ := hrow.filled m (by rw [hlast]; omega) hle
        exact .inl (List.mem_append_right _ (hin x hx (hrow.numbered x hx).1))
  | none =>
      rw [htext] at hlast
      have hnone : f.persisted = none := by rw [persisted,htext]; rfl
      have hheard : f.heard = [] := by_contra fun hh => hgoing ⟨hnone,hh⟩
      cases fs with
      | nil => exact absurd rfl hne
      | cons x rest =>
          obtain ⟨hx,hrest⟩ := List.forall_mem_cons.mp hall
          rw [List.flatMap_cons,follows_append] at hlost
          obtain ⟨hlostx,hlostrest⟩ := Bool.or_eq_false_iff.mp hlost
          obtain ⟨hfirst,hnez,hcalm'⟩ := frame_first hx hlostx hlast
          have hrow := frames_inRow hrest hlostrest (by rw [hfirst]; exact hnez) hcalm'
          have hplace : (follows f.state.catchup.protocolCursor (x.events v2)).1.lastSequence.toNat =
              x.place v2 := congrArg UInt64.toNat hfirst
          have hlow : ∀ a ∈ heard, x.place v2 ≤ a := by
            intro a ha
            obtain ⟨y,hy,rfl⟩ := hout a ha
            rcases List.mem_cons.mp hy with rfl | hy
            · exact le_rfl
            · exact hplace ▸ (hrow.numbered y hy).2
          intro a ha m hlt hle
          rw [hheard,List.nil_append] at ha
          have hax := hlow a ha
          rw [List.foldl_cons] at hn
          by_cases hnil : rest = []
          · subst hnil
            rw [List.foldl_nil,moves_decimal hnez] at hn
            unfold numeral at hn
            rw [Frame.place,parseCursor_decimal] at hn
            obtain rfl := Option.some.inj hn
            exact absurd (hax.trans_lt hlt) (not_lt.mpr hle)
          · rw [row_numeral hrow hnil] at hn
            obtain rfl := Option.some.inj hn
            obtain ⟨y,hy,rfl⟩ := hrow.filled m (by omega) hle
            exact .inl (List.mem_append_right _
              (hin y (List.mem_cons_of_mem x hy) (hrow.numbered y hy).1))

theorem lastCommit_or (s : CursorState) (last : Option (Bytes×Bytes)) (fs : List Frame) :
    lastCommit v2 s last fs = (lastCommit v2 s none fs).or last := by
  induction fs generalizing s last with
  | nil => rfl
  | cons f rest ih =>
      unfold lastCommit
      split
      · rw [ih,ih (follows s (f.events v2)).1 (f.pair.or none),Option.or_none]
        cases lastCommit v2 (follows s (f.events v2)).1 none rest <;> rfl
      · exact ih _ _

theorem recovered_none (h : (f.follow v2 c).2 = false) : f.recovered v2 c = none := by
  rw [recovered,h]
  rfl

theorem call_noted (hcall : f.call U linker evidence v2 c = some f') (h : f.Noted)
    (hknown : f.Known v2 c) : f'.Noted := by
  have hbehind := call_behind hcall
  obtain ⟨-,-,-,hcommit⟩ := call_fields hcall
  unfold Noted
  rw [hbehind,hcommit]
  unfold behind
  cases hrec : f.recovered v2 c with
  | some r =>
      intro pair hpair
      obtain rfl := Option.some.inj hpair
      exact ⟨rfl,rfl⟩
  | none =>
      simp only
      have hsame : ∀ pair ∈ lastCommit v2 f.state.catchup.protocolCursor f.commit
          (c.fetch v2 f.client).frames, f.state.catchup.protocolRepo = some pair.1 ∧
          f.state.catchup.protocolRevision = some pair.2 := by
        intro pair hpair
        rw [lastCommit_or] at hpair
        rcases Option.or_eq_some_iff.mp hpair with hpair | ⟨-,hpair⟩
        · exact hknown hrec pair hpair
        · exact h pair hpair
      split <;> exact hsame

theorem call_tidy (hcall : f.call U linker evidence v2 c = some f') (h : f.Tidy)
    (hunbroken : f.Unbroken v2 c) : f'.Tidy := by
  have hbehind := call_behind hcall
  obtain ⟨hclient,hheard,hcovered,-⟩ := call_fields hcall
  have hcursor : (c.fetch v2 f.client).cursor =
      (c.fetch v2 f.client).frames.foldl (Frame.moves v2) f.client := fetchFrom_cursor _ _ _ _
  have hpositive : (c.fetch v2 f.client).cursor = [] ∨ Positive (c.fetch v2 f.client).cursor :=
    hcursor ▸ positive_moves h.client _
  have hmoved : ∀ text ∈ (if (c.fetch v2 f.client).cursor = [] then none
      else some (c.fetch v2 f.client).cursor), text = (c.fetch v2 f.client).cursor ∧
        Positive text := by
    intro text htext
    split at htext
    · cases htext
    · rename_i hne
      obtain rfl := Option.some.inj htext
      exact ⟨rfl,hpositive.resolve_left hne⟩
  have hlaw : ∀ n ∈ f'.persisted, f.WholeBehind v2 c n := by
    intro n hn
    unfold persisted at hn
    rw [hbehind] at hn
    unfold behind at hn
    -- the persisted cursor is the client's, or it stays where it was
    cases hrec : f.recovered v2 c with
    | some r =>
        simp only [hrec] at hn
        obtain ⟨text,htext,hn⟩ := Option.bind_eq_some_iff.mp hn
        obtain ⟨rfl,-⟩ := hmoved text htext
        exact hunbroken.2 (.inr (by rw [hrec]; rfl)) (.inr (.inr (.inr (by rw [hrec]; rfl)))) n hn
    | none =>
        simp only [hrec] at hn
        cases hlost : (f.follow v2 c).2 with
        | true =>
            rw [hlost,if_pos rfl] at hn
            exact whole_behind h.unskipped hunbroken.1 hn
        | false =>
            rw [hlost,if_neg Bool.false_ne_true] at hn
            obtain ⟨text,htext,hn⟩ := Option.bind_eq_some_iff.mp hn
            obtain ⟨rfl,-⟩ := hmoved text htext
            by_cases hloose : f.Loose v2 c
            · exact hunbroken.2 (.inl hlost) hloose n hn
            · exact whole_inRow h hlost hloose hn
  refine ⟨fun n hn => ?_,fun text htext => ?_,by rw [hclient]; exact hpositive⟩
  · rw [hheard,hcovered]
    exact hlaw n hn
  · rw [hbehind] at htext
    unfold behind at htext
    split at htext
    · exact (hmoved text htext).2
    · split at htext
      · exact h.text text htext
      · exact (hmoved text htext).2

end Step

end Feed

/-! ## Every run -/

section Runs
variable (U : Utf8proc) (linker evidence v2 : Bool)

/-- A guard on the calls of a run that has not thrown. -/
def OnFeed (guard : Feed → StreamCall → Prop) (f : Option Feed) (c : StreamCall) : Prop :=
  ∀ g ∈ f, guard g c

theorem step_keeps {P : Feed → Prop} {guard : Feed → StreamCall → Prop}
    (hcall : ∀ {f f' : Feed} {c : StreamCall}, f.call U linker evidence v2 c = some f' → P f →
      guard f c → P f') {f : Option Feed} {calls : List StreamCall} (hf : ∀ g ∈ f, P g)
    (hg : Guarded (Feed.step U linker evidence v2) (OnFeed guard) f calls) :
    ∀ g ∈ runFrom (Feed.step U linker evidence v2) f calls, P g := by
  refine hg.invariant (P := fun f => ∀ g ∈ f, P g) (fun f c hf hguard g hg => ?_) hf
  obtain ⟨before,hbefore,hstep⟩ := Option.bind_eq_some_iff.mp hg
  exact hcall hstep (hf before hbefore) (hguard before hbefore)

/-- On the protocol cursor of an unfiltered stream numbers only rise, and behind a gap nothing
is accepted until a verified resync. -/
def GapsHold : Prop :=
  ∀ (s : CursorState), s.Waits → ∀ before behind : List CursorAct,
    (runFrom CursorState.next s before).lastSequence ≤
      (runFrom CursorState.next s (before++behind)).lastSequence ∧
    ((runFrom CursorState.next s before).resyncRequired = true →
      (∀ a ∈ behind, a.verified = false) →
      runFrom CursorState.next s (before++behind) = runFrom CursorState.next s before ∧
      ∀ a : CursorAct, a.verified = false →
        ((runFrom CursorState.next s (before++behind)).act a).2.accepted = false)

theorem run_mono (s : CursorState) (acts : List CursorAct) :
    s.lastSequence ≤ (runFrom CursorState.next s acts).lastSequence := by
  induction acts generalizing s with
  | nil => exact UInt64.le_refl _
  | cons a rest ih => exact UInt64.le_trans (s.act_mono a) (ih _)

theorem gaps_hold : GapsHold := by
  intro s hs before behind
  rw [runFrom_append]
  refine ⟨run_mono _ _,fun hopen hbehind => ?_⟩
  have hwaits := CursorState.run_waits hs before
  rw [CursorState.run_open hopen hwaits hbehind]
  exact ⟨rfl,fun a ha => (CursorState.act_open hopen hwaits ha).2⟩

/-- In every run of calls on one client: the protocol cursor holds at its gaps; where no call
is broken, nothing is missed up to the persisted cursor; and where the commits that advance
carry the persisted pair, it is that of the last of them. -/
theorem checkpoints_hold (w : Learner) (state : IngestionState)
    (hstate : ∀ text ∈ state.catchup.cursor, Feed.Positive text) (calls : List StreamCall) :
    GapsHold ∧
    (Guarded (Feed.step U linker evidence v2) (OnFeed (Feed.Unbroken v2))
        (some (.opened w state)) calls →
      ∀ f ∈ runFrom (Feed.step U linker evidence v2) (some (.opened w state)) calls,
        f.Unskipped) ∧
    (Guarded (Feed.step U linker evidence v2) (OnFeed (Feed.Known v2))
        (some (.opened w state)) calls →
      ∀ f ∈ runFrom (Feed.step U linker evidence v2) (some (.opened w state)) calls,
        f.Noted) := by
  refine ⟨gaps_hold,fun hg f hf => ?_,fun hg => ?_⟩
  · have htidy := step_keeps U linker evidence v2 (P := Feed.Tidy) Feed.call_tidy
      (fun g hg => Option.some.inj hg ▸ Feed.opened_tidy hstate) hg
    exact (htidy f hf).unskipped
  · exact step_keeps U linker evidence v2 (P := Feed.Noted) Feed.call_noted
      (fun g hg => Option.some.inj hg ▸ nofun) hg

end Runs

/-! ## Samples -/

namespace Sample

def control (seq : Int64) : Frame := ⟨.identity,some [97],some [],seq,0,none,none⟩

def actor : Bytes := utf8 "did:plc:a"

def revision : Bytes := utf8 "2222222222222"

/-- A commit that deletes a record. -/
def commit (seq : Int64) : Frame :=
  ⟨.commit,some actor,some [],seq,0,some ⟨true,some [112],some [114],some revision⟩,none⟩

def delivers (frames : List Frame) : StreamCall where
  received := frames.map .frame
  maxEvents := 0
  env := fun _ => .calm
  recordCommitEvidence := true
  jumpEvidence := none
  resync := none

/-- A state without a cursor. -/
def unread : IngestionState where
  checkpoint := ⟨0,0⟩
  catchup := ⟨false,none,none,none⟩

def feed (calls : List StreamCall) (fresh : Core.Graph) : Option Feed :=
  runFrom (Feed.step .plain false false true) (some (.opened ⟨fresh,Ledger.createdSession,[]⟩ unread)) calls

/-- What a run has heard and covered, the commit that advanced last, and what it persists. -/
structure Account where
  heard : List ℕ
  covered : List ℕ
  commit : Option (Bytes×Bytes)
  persisted : Option ℕ
  repo : Option Bytes
  deriving DecidableEq

def accountOf (f : Feed) : Account :=
  ⟨f.heard,f.covered,f.commit,f.persisted,f.state.catchup.protocolRepo⟩

/-- On a first traversal 6 and 7 are skipped and no resync takes place; the next call, which has
no cursor to go on from, persists 9. A commit that advances leaves no pair. -/
theorem gap_is_checkpointed : ∃ fresh, Core.createGraph .default = some fresh ∧
    (∃ f, feed [delivers [control 5,control 8],delivers [control 9]] fresh = some f ∧
      ¬f.Unskipped) ∧
    ∃ f, feed [delivers [control 5,commit 6]] fresh = some f ∧ ¬f.Noted := by
  have hfacts : (Core.createGraph .default).map (fun fresh =>
      decide ((feed [delivers [control 5,control 8],delivers [control 9]] fresh).map accountOf =
          some ⟨[5,8,9],[],none,some 9,none⟩ ∧
        (feed [delivers [control 5,commit 6]] fresh).map accountOf =
          some ⟨[5,6],[],some (actor,revision),some 6,none⟩)) = some true := by
    decide +kernel
  obtain ⟨fresh,hfresh,hdec⟩ := Option.map_eq_some_iff.mp hfacts
  obtain ⟨hgap,hpair⟩ := of_decide_eq_true hdec
  obtain ⟨f,hf,haccount⟩ := Option.map_eq_some_iff.mp hgap
  obtain ⟨g,hg,hlist⟩ := Option.map_eq_some_iff.mp hpair
  simp only [accountOf,Account.mk.injEq] at haccount hlist
  obtain ⟨hheard,hcovered,-,hpersisted,-⟩ := haccount
  obtain ⟨-,-,hcommit,-,hrepo⟩ := hlist
  refine ⟨fresh,hfresh,⟨f,hf,fun h => ?_⟩,g,hg,fun h => ?_⟩
  · rcases h 9 hpersisted 5 (by rw [hheard]; decide) 6 (by decide) (by decide) with hm | ⟨r,hr,-⟩
    · rw [hheard] at hm
      exact absurd hm (by decide)
    · rw [hcovered] at hr
      cases hr
  · obtain ⟨hnoted,-⟩ := h _ hcommit
    rw [hrepo] at hnoted
    cases hnoted

/-- The numbers 5 to 7 in two calls. -/
def steady : List StreamCall := [delivers [control 5,control 6],delivers [control 7]]

/-- A call that is not loose and stays above what was heard, with no commit that advances. -/
def Plain (f : Feed) (c : StreamCall) : Prop :=
  (f.persisted = none ∨ ¬∃ p ∈ (c.fetch true f.client).heard true, ∀ a ∈ f.heard, p < a) ∧
    ¬f.Loose true c ∧
    lastCommit true f.state.catchup.protocolCursor none (c.fetch true f.client).frames = none

instance (f : Feed) (c : StreamCall) : Decidable (f.Loose true c) := by
  unfold Feed.Loose
  infer_instance

instance (f : Feed) (c : StreamCall) : Decidable (Plain f c) := by
  unfold Plain
  infer_instance

theorem Plain.holds {f : Feed} {c : StreamCall} (h : Plain f c) :
    f.Unbroken true c ∧ f.Known true c := by
  obtain ⟨hlow,hloose,hcommit⟩ := h
  refine ⟨⟨fun hbelow n hn => ?_,fun _ hl => absurd hl hloose⟩,fun _ pair hpair => ?_⟩
  · rcases hlow with hnone | hlow
    · rw [hnone] at hn
      cases hn
    · exact absurd hbelow hlow
  · rw [hcommit] at hpair
    cases hpair

def plainly (f : Option Feed) (c : StreamCall) : Bool := f.all fun f => decide (Plain f c)

theorem plain_of_plainly {f : Option Feed} {c : StreamCall} (h : plainly f c = true) :
    ∀ g ∈ f, Plain g c := by
  intro g hg
  rw [plainly,hg,Option.all_some] at h
  exact of_decide_eq_true h

theorem checkpoints_hold_steady : ∃ fresh, Core.createGraph .default = some fresh ∧
    GapsHold ∧ ∀ f ∈ feed steady fresh, f.Unskipped ∧ f.Noted := by
  have hfacts : (Core.createGraph .default).map (fun fresh =>
      plainly (feed [] fresh) (delivers [control 5,control 6]) &&
        plainly (feed [delivers [control 5,control 6]] fresh) (delivers [control 7])) =
      some true := by
    decide +kernel
  obtain ⟨fresh,hfresh,hplain⟩ := Option.map_eq_some_iff.mp hfacts
  obtain ⟨hfirst,hsecond⟩ := Bool.and_eq_true_iff.mp hplain
  have hfirst := plain_of_plainly hfirst
  have hsecond := plain_of_plainly hsecond
  obtain ⟨hgaps,hwhole,hnoted⟩ := checkpoints_hold .plain false false true
    ⟨fresh,Ledger.createdSession,[]⟩
    unread nofun steady
  refine ⟨fresh,hfresh,hgaps,fun f hf => ⟨hwhole ?_ f hf,hnoted ?_ f hf⟩⟩
  · exact ⟨fun g hg => (hfirst g hg).holds.1,fun g hg => (hsecond g hg).holds.1,trivial⟩
  · exact ⟨fun g hg => (hfirst g hg).holds.2,fun g hg => (hsecond g hg).holds.2,trivial⟩

end Sample

end Atperson.Sync
