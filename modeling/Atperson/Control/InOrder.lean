import Atperson.Control.Poll

/-!
# Commands in order

What one candidate can do to the two files, a pass and a run after it. The watermark and
the state are those that the acceptances carry over from the first files, and each
acceptance is due where it happens. When the records agree on what each sequence number
commands, an interrupted acceptance and its repetition leave what one acceptance does.
-/
namespace Atperson.Control
open Wire Runs

/-- What the two files say. -/
structure Durable where
  watermark : UInt64
  state : ControlState

def ChannelFiles.Holds (path : String) (files : ChannelFiles) (d : Durable) : Prop :=
  files.watermark = .ok d.watermark ∧ files.state path = .ok d.state

/-- An acceptance that is not counted leaves the watermark behind. -/
def carry (d : Durable) (a : Acceptance) : Durable where
  watermark := if a.counted then a.request.seq else d.watermark
  state := mutate a.request.op a.request.arg a.now d.state

def Due (d : Durable) (a : Acceptance) : Prop :=
  a.request.seq.toNat = d.watermark.toNat+1 ∧ Admissible d.state.approvedDigests a.request

section Step
variable {path : String} {input : PollInput} {config : RemotePollConfig} {p : Pass}
  {candidate : Candidate} {request : ControlRequest} {state : ControlState}

/-- The candidate carries the next command and the state takes it. -/
structure Accepts (path : String) (config : RemotePollConfig) (p : Pass)
    (candidate : Candidate) (request : ControlRequest) (state : ControlState) : Prop where
  examined : p.report.examined < config.maxRecords
  parsed : parseControlRequest candidate.json = .ok request
  fresh : p.watermark < request.seq
  budget : p.report.applied < config.maxApplies
  loaded : p.files.state path = .ok state
  operator : config.operatorDid ≠ []
  next : request.seq = p.watermark+1
  admissible : Admissible state.approvedDigests request

/-- The candidate is passed over, refused or not. -/
structure Skips (path : String) (config : RemotePollConfig) (p : Pass)
    (candidate : Candidate) : Prop where
  examined : p.report.examined < config.maxRecords
  unfit : ∀ request, parseControlRequest candidate.json = .ok request →
    request.seq ≤ p.watermark ∨ p.report.applied < config.maxApplies ∧
      ∃ state, p.files.state path = .ok state ∧ ¬ (config.operatorDid ≠ [] ∧
        request.seq = p.watermark+1 ∧ Admissible state.approvedDigests request)

/-- The pass ends at the candidate, with a report or an error and nothing done. -/
structure Ends (path : String) (config : RemotePollConfig) (p : Pass)
    (candidate : Candidate) : Prop where
  stuck : p.report.examined < config.maxRecords →
    ∃ request, parseControlRequest candidate.json = .ok request ∧
      p.watermark < request.seq ∧ (p.report.applied < config.maxApplies →
        ∃ error, p.files.state path = .error error)

theorem candidate_fate (path : String) (config : RemotePollConfig) (p : Pass)
    (candidate : Candidate) :
    Ends path config p candidate ∨ Skips path config p candidate ∨
      ∃ request state, Accepts path config p candidate request state := by
  by_cases hexamined : p.report.examined < config.maxRecords
  · cases hparse : parseControlRequest candidate.json with
    | error error =>
        exact .inr (.inl ⟨hexamined,fun request h => by rw [hparse] at h; cases h⟩)
    | ok request =>
        by_cases hold : request.seq ≤ p.watermark
        · refine .inr (.inl ⟨hexamined,fun r h => .inl ?_⟩)
          cases hparse.symm.trans h
          exact hold
        by_cases hbudget : p.report.applied < config.maxApplies
        · cases hload : p.files.state path with
          | error error =>
              exact .inl ⟨fun _ => ⟨request,hparse,UInt64.not_le.mp hold,fun _ => ⟨error,hload⟩⟩⟩
          | ok state =>
              by_cases hfit : config.operatorDid ≠ [] ∧ request.seq = p.watermark+1 ∧
                  Admissible state.approvedDigests request
              · exact .inr (.inr ⟨request,state,hexamined,hparse,UInt64.not_le.mp hold,hbudget,
                  hload,hfit.1,hfit.2.1,hfit.2.2⟩)
              · refine .inr (.inl ⟨hexamined,fun r h => .inr ⟨hbudget,state,hload,?_⟩⟩)
                cases hparse.symm.trans h
                exact hfit
        · exact .inl ⟨fun _ => ⟨request,hparse,UInt64.not_le.mp hold,
            fun h => absurd h hbudget⟩⟩
  · exact .inl ⟨fun h => absurd h hexamined⟩

theorem Ends.examine (h : Ends path input.config p candidate) :
    ∃ report outcome, examineCandidate path input p candidate =
      { p with report := report, outcome := some outcome } ∧ outcome ≠ .crashed ∧
      report.applied = p.report.applied := by
  by_cases hexamined : p.report.examined ≥ input.config.maxRecords
  · exact ⟨p.report,.returned _,by simp only [examineCandidate,if_pos hexamined]; rfl,nofun,rfl⟩
  obtain ⟨request,hparse,hfresh,hload⟩ := h.stuck (Nat.lt_of_not_le hexamined)
  have hold : ¬ request.seq ≤ p.watermark := UInt64.not_le.mpr hfresh
  by_cases hbudget : p.report.applied ≥ input.config.maxApplies
  · exact ⟨{ p.report with
      examined := p.report.examined+1
      refusals := p.report.refusals++[⟨candidate.rkey,
        "apply budget exhausted for this pass; a later pass continues"⟩] },.returned _,by
      simp only [examineCandidate,if_neg hexamined,hparse,if_neg hold,if_pos hbudget]
      rfl,nofun,rfl⟩
  · obtain ⟨error,herror⟩ := hload (Nat.lt_of_not_le hbudget)
    rw [ChannelFiles.state] at herror
    exact ⟨{ p.report with examined := p.report.examined+1 },.threw error,by
      simp only [examineCandidate,if_neg hexamined,hparse,if_neg hold,if_neg hbudget,herror]
      rfl,nofun,rfl⟩

/-- The pass behind a candidate it passed over. -/
def afterSkip (p : Pass) (refusals : List RemoteRefusal) : Pass :=
  { p with
    report := { p.report with examined := p.report.examined+1, refusals := refusals } }

theorem Skips.examine_any (h : Skips path input.config p candidate) :
    ∃ refusals, ∀ crash, examineCandidate path { input with crash := crash } p candidate =
      afterSkip p refusals := by
  have hexamined : ¬ p.report.examined ≥ input.config.maxRecords := Nat.not_le.mpr h.examined
  cases hparse : parseControlRequest candidate.json with
  | error error =>
      exact ⟨_,fun _ => by simp only [examineCandidate,if_neg hexamined,hparse]; rfl⟩
  | ok request =>
      by_cases hold : request.seq ≤ p.watermark
      · exact ⟨_,fun _ => by simp only [examineCandidate,if_neg hexamined,hparse,if_pos hold]; rfl⟩
      rcases h.unfit request hparse with h | ⟨hbudget,state,hload,hunfit⟩
      · exact absurd h hold
      have happlied : (applyControlRequest state p.watermark request input.config.operatorDid
          input.config.operatorDid (input.clock p.report.applied)).report.applied = false := by
        rw [← Bool.not_eq_true,applyControlRequest_applied_iff]
        exact fun hfit => hunfit ⟨hfit.1,hfit.2.2⟩
      rw [ChannelFiles.state] at hload
      exact ⟨_,fun _ => by
        simp only [examineCandidate,if_neg hexamined,hparse,if_neg hold,
          if_neg (Nat.not_le.mpr hbudget),hload,happlied,if_true]
        rfl⟩

theorem Skips.examine (h : Skips path input.config p candidate) :
    ∃ refusals, examineCandidate path input p candidate = afterSkip p refusals :=
  h.examine_any.imp fun _ hq => hq input.crash

/-- The pass behind an acceptance at the time `now`. -/
def afterAcceptance (p : Pass) (request : ControlRequest) (state : ControlState) (now : Bytes) :
    Pass where
  files := {
    control := some (stateJson (mutate request.op request.arg now state))
    cursor := some (serialiseCursor { lastSeq := request.seq }) }
  watermark := request.seq
  report := { p.report with
    examined := p.report.examined+1, applied := p.report.applied+1
    lastOp := controlOpName request.op, watermark := request.seq }
  trace := p.trace++[⟨request,now,true⟩]
  outcome := p.outcome

/-- The pass that dies between the two saves of an acceptance. -/
def betweenSaves (p : Pass) (request : ControlRequest) (state : ControlState) (now : Bytes) :
    Pass where
  files := { p.files with
    control := some (stateJson (mutate request.op request.arg now state)) }
  watermark := p.watermark
  report := { p.report with examined := p.report.examined+1 }
  trace := p.trace++[⟨request,now,false⟩]
  outcome := some .crashed

theorem Accepts.examine (h : Accepts path input.config p candidate request state) :
    examineCandidate path input p candidate =
      if input.crash = some p.report.applied then
        betweenSaves p request state (controlNowRfc3339 (input.clock p.report.applied))
      else afterAcceptance p request state
        (controlNowRfc3339 (input.clock p.report.applied)) := by
  have hexamined : ¬ p.report.examined ≥ input.config.maxRecords := Nat.not_le.mpr h.examined
  have hold : ¬ request.seq ≤ p.watermark := UInt64.not_le.mpr h.fresh
  have happlied : (applyControlRequest state p.watermark request input.config.operatorDid
      input.config.operatorDid (input.clock p.report.applied)).report.applied = true :=
    applyControlRequest_applied_iff.mpr ⟨h.operator,rfl,h.next,h.admissible⟩
  obtain ⟨hstate,hwatermark,hop⟩ := applyControlRequest_accepted happlied
  have hsave (clock : ℤ) : serialiseControlState
      (mutate request.op request.arg (controlNowRfc3339 clock) state) =
      .ok (stateJson (mutate request.op request.arg (controlNowRfc3339 clock) state)) := by
    rw [serialiseControlState,
      (mutate_stored (loadControlState_stored h.loaded) h.admissible).valid]
    rfl
  have hload := h.loaded
  rw [ChannelFiles.state] at hload
  simp only [examineCandidate,if_neg hexamined,h.parsed,if_neg hold,
    if_neg (Nat.not_le.mpr h.budget),hload,happlied,hstate,hwatermark,hop,hsave,
    Bool.true_eq_false,if_false]
  rfl

theorem Accepts.stored (h : Accepts path config p candidate request state) (clock : ℤ) :
    (mutate request.op request.arg (controlNowRfc3339 clock) state).Stored :=
  mutate_stored (loadControlState_stored h.loaded) h.admissible

theorem Accepts.next_toNat (h : Accepts path config p candidate request state) :
    request.seq.toNat = p.watermark.toNat+1 := by
  have hlt := UInt64.lt_iff_toNat_lt.mp h.fresh
  have hseq := congrArg UInt64.toNat h.next
  rw [UInt64.toNat_add] at hseq
  have hone : (1 : UInt64).toNat = 1 := rfl
  have := request.seq.toNat_lt
  omega

/-- What a stored state is read back from. -/
theorem state_of_stateJson {files : ChannelFiles} (hs : state.Stored)
    (hcontrol : files.control = some (stateJson state)) : files.state path = .ok state := by
  rw [ChannelFiles.state,hcontrol]
  exact parse_stateJson hs.valid hs.syncPrintable hs.shutdownPrintable path

/-- A candidate leaves the files, the watermark and the trace alone or is accepted. -/
theorem examineCandidate_cases (path : String) (input : PollInput) (p : Pass)
    (candidate : Candidate) :
    let q := examineCandidate path input p candidate
    (q.files = p.files ∧ q.watermark = p.watermark ∧ q.trace = p.trace) ∨
    ∃ request state, Accepts path input.config p candidate request state ∧
      q = if input.crash = some p.report.applied then
          betweenSaves p request state (controlNowRfc3339 (input.clock p.report.applied))
        else afterAcceptance p request state
          (controlNowRfc3339 (input.clock p.report.applied)) := by
  intro q
  rcases candidate_fate path input.config p candidate with h | h | ⟨request,state,h⟩
  · obtain ⟨report,outcome,hq,-,-⟩ := h.examine
    refine .inl ?_
    simp only [q,hq,and_self]
  · obtain ⟨refusals,hq⟩ := h.examine
    refine .inl ?_
    simp only [q,hq,afterSkip,and_self]
  · exact .inr ⟨request,state,h,h.examine⟩

end Step

section Loop
variable {path : String} {input : PollInput} {d : Durable} {p : Pass}

/-- The files hold what the acceptances of the pass carry over from its start. -/
structure Tracks (path : String) (d : Durable) (p : Pass) : Prop where
  due : Guarded carry Due d p.trace
  holds : p.files.Holds path (runFrom carry d p.trace)
  current : p.outcome = none → p.watermark = (runFrom carry d p.trace).watermark

theorem Tracks.examine (h : Tracks path d p) (hrun : p.outcome = none) (candidate : Candidate) :
    Tracks path d (examineCandidate path input p candidate) := by
  rcases examineCandidate_cases path input p candidate with ⟨hfiles,hwatermark,htrace⟩ |
    ⟨request,state,haccepts,hq⟩
  · refine ⟨htrace ▸ h.due,?_,fun _ => ?_⟩
    · rw [hfiles,htrace]
      exact h.holds
    · rw [hwatermark,htrace]
      exact h.current hrun
  · have hstate : (runFrom carry d p.trace).state = state :=
      Except.ok.inj (h.holds.2.symm.trans haccepts.loaded)
    have hdue (now : Bytes) (counted : Bool) :
        Guarded carry Due d (p.trace++[⟨request,now,counted⟩]) :=
      Guarded.append_iff.mpr ⟨h.due,
        ⟨by rw [← h.current hrun]; exact haccepts.next_toNat,hstate ▸ haccepts.admissible⟩,
        trivial⟩
    have hstored := haccepts.stored (input.clock p.report.applied)
    rw [hq]
    split
    · refine ⟨hdue _ _,⟨?_,?_⟩,nofun⟩
      · rw [betweenSaves,runFrom_append]
        exact h.holds.1
      · rw [betweenSaves,runFrom_append]
        exact (state_of_stateJson hstored rfl).trans (by rw [← hstate]; rfl)
    · refine ⟨hdue _ _,⟨?_,?_⟩,fun _ => ?_⟩
      · rw [afterAcceptance,runFrom_append]
        simp only [ChannelFiles.watermark,load_serialiseCursor]
        rfl
      · rw [afterAcceptance,runFrom_append]
        exact (state_of_stateJson hstored rfl).trans (by rw [← hstate]; rfl)
      · rw [afterAcceptance,runFrom_append]
        rfl

theorem pollLoop_cons (p : Pass) (candidate : Candidate) (rest : List Candidate) :
    pollLoop path input p (candidate::rest) =
      if (examineCandidate path input p candidate).outcome.isSome then
        examineCandidate path input p candidate
      else pollLoop path input (examineCandidate path input p candidate) rest := rfl

theorem Tracks.loop (h : Tracks path d p) (hrun : p.outcome = none)
    (candidates : List Candidate) : Tracks path d (pollLoop path input p candidates) := by
  induction candidates generalizing p with
  | nil => exact h
  | cons candidate rest ih =>
      rw [pollLoop_cons]
      split
      · exact h.examine hrun candidate
      · rename_i hgoes
        exact ih (h.examine hrun candidate) (by simpa using hgoes)

/-- Nothing is accepted over a control file that does not load. -/
theorem pollLoop_unreadable (input : PollInput) {error : String} (hload : p.files.state path = .error error)
    (candidates : List Candidate) :
    (pollLoop path input p candidates).files = p.files ∧
      (pollLoop path input p candidates).trace = p.trace := by
  induction candidates generalizing p with
  | nil => exact ⟨rfl,rfl⟩
  | cons candidate rest ih =>
      rcases examineCandidate_cases path input p candidate with ⟨hfiles,-,htrace⟩ |
        ⟨request,state,haccepts,-⟩
      · rw [pollLoop_cons]
        split
        · exact ⟨hfiles,htrace⟩
        · have := ih (p := examineCandidate path input p candidate) (hfiles ▸ hload)
          rwa [hfiles,htrace] at this
      · cases hload.symm.trans haccepts.loaded

/-- Every acceptance is of a request that one of the candidates carries. -/
theorem pollLoop_trace (candidates : List Candidate) :
    ∀ a ∈ (pollLoop path input p candidates).trace,
      a ∈ p.trace ∨ ∃ c ∈ candidates, parseControlRequest c.json = .ok a.request := by
  induction candidates generalizing p with
  | nil => exact fun a ha => .inl ha
  | cons candidate rest ih =>
      have hstep : ∀ a ∈ (examineCandidate path input p candidate).trace,
          a ∈ p.trace ∨ parseControlRequest candidate.json = .ok a.request := by
        intro a ha
        rcases examineCandidate_cases path input p candidate with ⟨-,-,htrace⟩ |
          ⟨request,state,haccepts,hq⟩
        · exact .inl (htrace ▸ ha)
        · have hadded (b : Bool) (now : Bytes) (ha : a ∈ p.trace++[⟨request,now,b⟩]) :
              a ∈ p.trace ∨ parseControlRequest candidate.json = .ok a.request := by
            rcases List.mem_append.mp ha with ha | ha
            · exact .inl ha
            · rw [List.mem_singleton.mp ha]
              exact .inr haccepts.parsed
          rw [hq] at ha
          split at ha
          · exact hadded _ _ ha
          · exact hadded _ _ ha
      intro a ha
      rw [pollLoop_cons] at ha
      split at ha
      · rcases hstep a ha with h | h
        · exact .inl h
        · exact .inr ⟨candidate,List.mem_cons_self,h⟩
      · rcases ih a ha with h | ⟨c,hc,h⟩
        · rcases hstep a h with h | h
          · exact .inl h
          · exact .inr ⟨candidate,List.mem_cons_self,h⟩
        · exact .inr ⟨c,List.mem_cons_of_mem _ hc,h⟩

end Loop

section Runs
variable {path : String} {files : ChannelFiles} {d : Durable}

/-- The candidates of a pass in the order they are examined in. -/
def PollInput.candidates (input : PollInput) : List Candidate :=
  match input.listing.bind (readCandidates input.config.operatorDid) with
  | .error _ => []
  | .ok newestFirst => newestFirst.reverse

def startPass (files : ChannelFiles) (watermark : UInt64) : Pass where
  files := files
  watermark := watermark
  report := { enabled := true, watermark := watermark }
  trace := []
  outcome := none

/-- The channel is ready, its watermark loads and the listing is answered. -/
structure Starts (files : ChannelFiles) (input : PollInput) (watermark : UInt64) : Prop where
  ready : checkOperatorChannel input.config.accountDid input.config.operatorDid = .ready
  loaded : files.watermark = .ok watermark
  listed : ∃ newestFirst,
    input.listing.bind (readCandidates input.config.operatorDid) = .ok newestFirst

/-- A pass that starts is the loop over its candidates. -/
theorem Starts.poll {input : PollInput} {watermark : UInt64} (h : Starts files input watermark)
    (path : String) :
    let q := pollLoop path input (startPass files watermark) input.candidates
    poll path files input = match q.outcome with
      | some _ => q
      | none => q.stop (.returned q.report) := by
  obtain ⟨newestFirst,hlist⟩ := h.listed
  obtain ⟨cursor,hcursor,rfl⟩ := map_ok.mp h.loaded
  simp only [Control.poll,h.ready,hcursor,PollInput.candidates,hlist,startPass]
  all_goals rfl

theorem Starts.outcome {input : PollInput} {watermark : UInt64}
    (h : Starts files input watermark) (path : String) :
    let q := pollLoop path input (startPass files watermark) input.candidates
    (Control.poll path files input).files = q.files ∧
      (Control.poll path files input).trace = q.trace ∧
      (Control.poll path files input).report = q.report ∧
      ((Control.poll path files input).outcome = some .crashed → q.outcome = some .crashed) := by
  intro q
  rw [h.poll path]
  cases hq : q.outcome with
  | some outcome => exact ⟨rfl,rfl,rfl,fun h => hq.symm.trans h⟩
  | none => exact ⟨rfl,rfl,rfl,nofun⟩

theorem poll_cases (path : String) (files : ChannelFiles) (input : PollInput) :
    (∃ outcome, poll path files input = ⟨files,0,{},[],some outcome⟩ ∧ outcome ≠ .crashed) ∨
    ∃ watermark, Starts files input watermark := by
  cases hchannel : checkOperatorChannel input.config.accountDid input.config.operatorDid with
  | disabled => exact .inl ⟨.returned _,by simp only [poll,hchannel]; rfl,nofun⟩
  | conflict => exact .inl ⟨.returned _,by simp only [poll,hchannel]; rfl,nofun⟩
  | ready =>
      cases hcursor : loadRemoteControlCursor files.cursor with
      | error error => exact .inl ⟨.threw error,by simp only [poll,hchannel,hcursor]; rfl,nofun⟩
      | ok cursor =>
          cases hlist : input.listing.bind (readCandidates input.config.operatorDid) with
          | error error =>
              exact .inl ⟨.threw error,by simp only [poll,hchannel,hcursor,hlist]; rfl,nofun⟩
          | ok newestFirst =>
              exact .inr ⟨cursor.lastSeq,hchannel,map_ok.mpr ⟨cursor,hcursor,rfl⟩,
                newestFirst,hlist⟩

theorem poll_files_trace (path : String) (files : ChannelFiles) (input : PollInput) :
    ((poll path files input).files = files ∧ (poll path files input).trace = []) ∨
    ∃ watermark, files.watermark = .ok watermark ∧
      (poll path files input).files =
        (pollLoop path input (startPass files watermark) input.candidates).files ∧
      (poll path files input).trace =
        (pollLoop path input (startPass files watermark) input.candidates).trace := by
  rcases poll_cases path files input with ⟨outcome,h,-⟩ | ⟨w,hstarts⟩
  · exact .inl (by rw [h]; exact ⟨rfl,rfl⟩)
  · obtain ⟨hfiles,htrace,-⟩ := hstarts.outcome path
    exact .inr ⟨w,hstarts.loaded,hfiles,htrace⟩

theorem poll_holds (h : files.Holds path d) (input : PollInput) :
    (poll path files input).files.Holds path (runFrom carry d (poll path files input).trace) ∧
      Guarded carry Due d (poll path files input).trace := by
  rcases poll_files_trace path files input with ⟨hfiles,htrace⟩ |
    ⟨w,hw,hfiles,htrace⟩
  · rw [hfiles,htrace]
    exact ⟨h,trivial⟩
  · have hstart : Tracks path d (startPass files w) :=
      ⟨trivial,h,fun _ => Except.ok.inj (hw.symm.trans h.1)⟩
    rw [hfiles,htrace]
    exact ⟨(hstart.loop rfl _).holds,(hstart.loop rfl _).due⟩

/-- Over files of which one does not load, nothing is ever accepted. -/
theorem poll_unreadable (h : ∀ d, ¬ files.Holds path d) (input : PollInput) :
    (poll path files input).files = files ∧ (poll path files input).trace = [] := by
  rcases poll_files_trace path files input with hsame |
    ⟨w,hw,hfiles,htrace⟩
  · exact hsame
  · cases hload : files.state path with
    | ok state => exact absurd ⟨hw,hload⟩ (h ⟨w,state⟩)
    | error error =>
        have := pollLoop_unreadable input (p := startPass files w) hload input.candidates
        rw [hfiles,htrace]
        exact this

theorem runPolls_holds (h : files.Holds path d) (inputs : List PollInput) :
    (runPolls path files inputs).1.Holds path
        (runFrom carry d (runPolls path files inputs).2) ∧
      Guarded carry Due d (runPolls path files inputs).2 := by
  induction inputs generalizing files d with
  | nil => exact ⟨h,trivial⟩
  | cons input rest ih =>
      obtain ⟨hholds,hdue⟩ := poll_holds h input
      obtain ⟨hlater,hdues⟩ := ih hholds
      simp only [runPolls]
      rw [runFrom_append]
      exact ⟨hlater,Guarded.append_iff.mpr ⟨hdue,hdues⟩⟩

theorem runPolls_unreadable (h : ∀ d, ¬ files.Holds path d) (inputs : List PollInput) :
    runPolls path files inputs = (files,[]) := by
  induction inputs with
  | nil => rfl
  | cons input rest ih =>
      obtain ⟨hfiles,htrace⟩ := poll_unreadable h input
      simp only [runPolls,hfiles,htrace,ih,List.nil_append]

theorem runPolls_trace (inputs : List PollInput) :
    ∀ a ∈ (runPolls path files inputs).2, ∃ input ∈ inputs, ∃ c ∈ input.candidates,
      parseControlRequest c.json = .ok a.request := by
  induction inputs generalizing files with
  | nil => exact fun a ha => absurd ha List.not_mem_nil
  | cons input rest ih =>
      intro a ha
      rcases List.mem_append.mp ha with ha | ha
      · rcases poll_files_trace path files input with ⟨-,htrace⟩ |
          ⟨w,-,-,htrace⟩
        · rw [htrace] at ha
          exact absurd ha List.not_mem_nil
        · rw [htrace] at ha
          rcases pollLoop_trace input.candidates a ha with h | ⟨c,hc,h⟩
          · exact absurd h List.not_mem_nil
          · exact ⟨input,List.mem_cons_self,c,hc,h⟩
      · obtain ⟨i,hi,hc⟩ := ih a ha
        exact ⟨i,List.mem_cons_of_mem _ hi,hc⟩

end Runs

section Order

/-- The acceptances that the watermark counts. -/
def counted (trace : List Acceptance) : List Acceptance := trace.filter (·.counted)

def seqNumbers (trace : List Acceptance) : List ℕ := trace.map (·.request.seq.toNat)

/-- Each acceptance is of the number behind the watermark, which rises by the counted ones. -/
structure InOrder (before : UInt64) (trace : List Acceptance) (after : UInt64) : Prop where
  raised : after.toNat = before.toNat+(counted trace).length
  consecutive : seqNumbers (counted trace) =
    List.range' (before.toNat+1) (counted trace).length
  next : ∀ pre a post, trace = pre++a::post →
    a.request.seq.toNat = before.toNat+(counted pre).length+1

theorem watermark_raised {d : Durable} {trace : List Acceptance}
    (h : Guarded carry Due d trace) :
    (runFrom carry d trace).watermark.toNat = d.watermark.toNat+(counted trace).length ∧
    seqNumbers (counted trace) =
      List.range' (d.watermark.toNat+1) (counted trace).length := by
  induction trace generalizing d with
  | nil => exact ⟨rfl,rfl⟩
  | cons a rest ih =>
      obtain ⟨⟨hseq,-⟩,hrest⟩ := h
      obtain ⟨hraised,hconsecutive⟩ := ih hrest
      rw [runFrom_cons]
      cases hc : a.counted with
      | false =>
          have hsame : (carry d a).watermark = d.watermark := by simp [carry,hc]
          have hdrop : counted (a::rest) = counted rest := by simp [counted,hc]
          rw [hdrop,hraised,hconsecutive,hsame]
          exact ⟨rfl,rfl⟩
      | true =>
          have hnext : (carry d a).watermark = a.request.seq := by simp [carry,hc]
          have hkeep : counted (a::rest) = a::counted rest := by simp [counted,hc]
          rw [hkeep,hraised,hnext,hseq]
          refine ⟨by simp only [List.length_cons]; omega,?_⟩
          rw [List.length_cons,List.range'_succ,seqNumbers,List.map_cons,hseq]
          rw [hnext,hseq] at hconsecutive
          exact congrArg _ hconsecutive

theorem Guarded.inOrder {d : Durable} {trace : List Acceptance}
    (h : Guarded carry Due d trace) :
    InOrder d.watermark trace (runFrom carry d trace).watermark := by
  obtain ⟨hraised,hconsecutive⟩ := watermark_raised h
  refine ⟨hraised,hconsecutive,fun pre a post htrace => ?_⟩
  subst htrace
  obtain ⟨hpre,⟨hseq,-⟩,-⟩ := Guarded.append_iff.mp h
  rw [hseq,(watermark_raised hpre).1]

end Order

end Atperson.Control
