import Atperson.Control.Repeated

/-!
# Progress of the remote channel

The operator's repository holds one command for each sequence number, and the service answers
with its newest records first, as many as were asked for. A pass carries out the oldest
commands that wait. It finds them only where the page reaches down to the first of them: from
a longer backlog every pass takes the newest commands alone, and refuses them.
-/
namespace Atperson.Control
open Wire Runs

/-! ## The operator's repository -/

/-- The records of the commands `1` to `last`, with what they parse to. -/
structure Backlog where
  last : ℕ
  record : ℕ → ListedRecord
  request : ℕ → ControlRequest

namespace Backlog

def newestFirst (b : Backlog) : List ListedRecord := ((List.range' 1 b.last).map b.record).reverse

/-- The page size as the `int` that the service is asked for. -/
def requestedLimit (config : RemotePollConfig) : ℤ := (BitVec.ofNat 32 (max config.maxRecords 1)).toInt

def page (b : Backlog) (config : RemotePollConfig) : List ListedRecord :=
  b.newestFirst.take (requestedLimit config).toNat

/-- A pass that is answered and does not die. -/
def input (b : Backlog) (config : RemotePollConfig) (clock : ℕ → ℤ) : PollInput where
  config := config
  listing := .ok (b.page config)
  clock := clock
  crash := none

/-- A record of the operator's own that carries the command `k`. -/
structure Carried (b : Backlog) (operatorDid : Bytes) (k : ℕ) : Prop where
  own : ∃ uri rkey, (b.record k).uri = some uri ∧ uriRkey uri = .ok rkey ∧
    uriAuthority uri = operatorDid
  parsed : parseControlRequest (b.record k).value = .ok (b.request k)
  numbered : (b.request k).seq.toNat = k

structure WellFormed (b : Backlog) (operatorDid : Bytes) : Prop where
  counted : b.last < 2^64
  carried : ∀ k, 1 ≤ k → k ≤ b.last → b.Carried operatorDid k

def command (b : Backlog) (seq : UInt64) : ControlOp × Bytes :=
  ((b.request seq.toNat).op,(b.request seq.toNat).arg)

/-- The digests approved once the `j` commands behind the watermark are carried out. -/
def approvedAfter (b : Backlog) (state : ControlState) (watermark j : ℕ) : List Bytes :=
  (commanded b.command watermark j state).approvedDigests

/-- None of the `m` commands behind the watermark approves an action over a full list. -/
def Room (b : Backlog) (state : ControlState) (watermark m : ℕ) : Prop :=
  ∀ j < m, (b.request (watermark+j+1)).op = .approve →
    (b.request (watermark+j+1)).arg ∉ b.approvedAfter state watermark j →
      (b.approvedAfter state watermark j).length < kMaxApprovedDigests

end Backlog

/-- A pass carries out the next commands, as many as it may. -/
structure AppliesNext (path : String) (files : ChannelFiles) (b : Backlog)
    (config : RemotePollConfig) (watermark : UInt64) (clock : ℕ → ℤ) : Prop where
  requests : (poll path files (b.input config clock)).trace.map (·.request) =
    (List.range' (watermark.toNat+1) (min config.maxApplies (b.last-watermark.toNat))).map b.request
  report : ∃ report, (poll path files (b.input config clock)).outcome = some (.returned report) ∧
    report.applied = min config.maxApplies (b.last-watermark.toNat)
  watermark : (poll path files (b.input config clock)).files.watermark =
    .ok (.ofNat (watermark.toNat+min config.maxApplies (b.last-watermark.toNat)))

/-- Passes enough reach the last command. -/
def Reaches (path : String) (files : ChannelFiles) (b : Backlog) (config : RemotePollConfig) :
    Prop :=
  ∃ k, ∀ clocks : List (ℕ → ℤ), k ≤ clocks.length →
    (runPolls path files (clocks.map (b.input config))).1.watermark = .ok (.ofNat b.last)

/-! ## The page -/

section Page
variable {b : Backlog} {operatorDid : Bytes} {config : RemotePollConfig} {clock : ℕ → ℤ}

/-- A candidate of the command `k`. -/
def Brings (b : Backlog) (k : ℕ) (c : Candidate) : Prop :=
  parseControlRequest c.json = .ok (b.request k) ∧ (b.request k).seq.toNat = k

theorem readCandidates_carried {ks : List ℕ} (h : ∀ k ∈ ks, b.Carried operatorDid k) :
    ∃ cs, readCandidates operatorDid (ks.map b.record) = .ok cs ∧
      List.Forall₂ (Brings b) ks cs := by
  induction ks with
  | nil => exact ⟨[],rfl,.nil⟩
  | cons k ks ih =>
      obtain ⟨cs,hread,hbrings⟩ := ih fun j hj => h j (List.mem_cons_of_mem k hj)
      have hk := h k List.mem_cons_self
      obtain ⟨uri,rkey,huri,hrkey,hown⟩ := hk.own
      refine ⟨⟨rkey,(b.record k).value⟩::cs,?_,.cons ⟨hk.parsed,hk.numbered⟩ hbrings⟩
      rw [List.map_cons,readCandidates,huri]
      simp only [hrkey,hread,hown,bind,Except.bind,ne_eq,not_true,if_false]

theorem requestedLimit_le (config : RemotePollConfig) (h : 0 < config.maxRecords) :
    (Backlog.requestedLimit config).toNat ≤ config.maxRecords := by
  have hmax : max config.maxRecords 1 = config.maxRecords := by omega
  unfold Backlog.requestedLimit
  rw [hmax,BitVec.toInt_eq_toNat_cond,BitVec.toNat_ofNat]
  have := Nat.mod_le config.maxRecords (2^32)
  split <;> omega

/-- The candidates of a pass are the newest commands, in ascending order. -/
theorem candidates_brought (hb : b.WellFormed config.operatorDid) :
    let limit := (Backlog.requestedLimit config).toNat
    (∃ newestFirst, (b.input config clock).listing.bind
      (readCandidates config.operatorDid) = .ok newestFirst) ∧
    List.Forall₂ (Brings b) (List.range' (b.last-limit+1) (min limit b.last))
      (b.input config clock).candidates := by
  intro limit
  have hpage : b.page config =
      (List.range' (b.last-limit+1) (min limit b.last)).reverse.map b.record := by
    have hdrop : (List.range' 1 b.last).drop (b.last-limit) =
        List.range' (b.last-limit+1) (min limit b.last) := by
      rw [List.drop_range']
      congr 1 <;> omega
    rw [Backlog.page,Backlog.newestFirst,List.take_reverse,List.length_map,List.length_range',
      ← List.map_drop,hdrop,List.map_reverse]
  have hcarried : ∀ k ∈ (List.range' (b.last-limit+1) (min limit b.last)).reverse,
      b.Carried config.operatorDid k := by
    intro k hk
    rw [List.mem_reverse,List.mem_range'_1] at hk
    exact hb.carried k (by omega) (by omega)
  obtain ⟨cs,hread,hbrings⟩ := readCandidates_carried hcarried
  have hlisted : (b.input config clock).listing.bind (readCandidates config.operatorDid) =
      .ok cs := by
    rw [Backlog.input,hpage]
    exact hread
  refine ⟨⟨cs,hlisted⟩,?_⟩
  have hcandidates : (b.input config clock).candidates = cs.reverse := by
    rw [PollInput.candidates,Backlog.input] at *
    simp only at hlisted ⊢
    rw [hlisted]
  rw [hcandidates]
  simpa using List.rel_reverse hbrings

end Page

/-! ## One pass -/

section Pass
variable {path : String} {b : Backlog} {config : RemotePollConfig} {clock : ℕ → ℤ} {d : Durable}
  {p : Pass}

/-- What a parsed request has for its argument. -/
theorem parsed_argument {json : Option (Json Double)} {request : ControlRequest}
    (h : parseControlRequest json = .ok request) :
    if controlOpTakesArgument request.op then isControlDigestShape request.arg = true
      else request.arg = [] := by
  unfold parseControlRequest at h
  split at h
  · rename_i members
    simp only [bind,Except.bind] at h
    repeat' split at h
    all_goals cases h
    all_goals simp_all
  · cases h

theorem Backlog.Room.admissible {state : ControlState} {w m j : ℕ} (hroom : b.Room state w m)
    (hj : j < m) (hparsed : ∃ json, parseControlRequest json = .ok (b.request (w+j+1))) :
    Admissible (b.approvedAfter state w j) (b.request (w+j+1)) := by
  obtain ⟨json,hjson⟩ := hparsed
  exact ⟨parsed_argument hjson,hroom j hj⟩

/-- With the budget used up, the next command ends the pass. -/
theorem examine_exhausted {input : PollInput} {c : Candidate} {request : ControlRequest}
    (hexamined : p.report.examined < input.config.maxRecords)
    (hparse : parseControlRequest c.json = .ok request) (hfresh : p.watermark < request.seq)
    (hbudget : p.report.applied ≥ input.config.maxApplies) :
    ∃ report, examineCandidate path input p c =
        { p with report := report, outcome := some (.returned report) } ∧
      report.applied = p.report.applied := by
  have hold : ¬request.seq ≤ p.watermark := UInt64.not_le.mpr hfresh
  refine ⟨{ p.report with
    examined := p.report.examined+1
    refusals := p.report.refusals++[⟨c.rkey,
      "apply budget exhausted for this pass; a later pass continues"⟩] },?_,rfl⟩
  simp only [examineCandidate,if_neg (Nat.not_le.mpr hexamined),hparse,if_neg hold,if_pos hbudget]
  rfl

/-- What a pass has done: the first `m` commands behind the watermark, each counted. -/
structure Done (path : String) (b : Backlog) (d : Durable) (m : ℕ) (p : Pass) : Prop where
  tracks : Tracks path d p
  requests : p.trace.map (·.request) = (List.range' (d.watermark.toNat+1) m).map b.request
  counted : ∀ a ∈ p.trace, a.counted = true
  applied : p.report.applied = m

theorem counted_eq {trace : List Acceptance} (h : ∀ a ∈ trace, a.counted = true) :
    counted trace = trace := List.filter_eq_self.mpr h

theorem Done.length {m : ℕ} (h : Done path b d m p) : p.trace.length = m := by
  have hlength := congrArg List.length h.requests
  simpa using hlength

theorem Done.watermark {m : ℕ} (h : Done path b d m p) :
    (runFrom carry d p.trace).watermark.toNat = d.watermark.toNat+m := by
  rw [(watermark_raised h.tracks.due).1,counted_eq h.counted,h.length]

/-- The state behind the first `m` commands. -/
theorem Done.state {m : ℕ} (h : Done path b d m p)
    (hnumbered : ∀ k, d.watermark.toNat < k → k ≤ d.watermark.toNat+m →
      (b.request k).seq.toNat = k) :
    (runFrom carry d p.trace).state.timeless =
      commanded b.command d.watermark.toNat m d.state.timeless := by
  have hagree : ∀ a ∈ p.trace, b.command a.request.seq = (a.request.op,a.request.arg) := by
    intro a ha
    have hmem : a.request ∈ p.trace.map (·.request) := List.mem_map_of_mem ha
    rw [h.requests] at hmem
    obtain ⟨k,hk,hrequest⟩ := List.mem_map.mp hmem
    rw [List.mem_range'_1] at hk
    rw [Backlog.command,← hrequest,hnumbered k (by omega) (by omega)]
  have hsettled : Settled p.trace := fun a ha => h.counted a (List.mem_of_getLast? ha)
  rcases state_commanded h.tracks.due hagree with hstate | ⟨hnot,-⟩
  · rwa [counted_eq h.counted,h.length] at hstate
  · exact absurd hsettled hnot

/-- From the first `a` of the next commands on, the pass goes as far as its budget. -/
theorem Done.go {input : PollInput} (hcrash : input.crash = none)
    (hoperator : input.config.operatorDid ≠ [])
    (hnumbered : ∀ k, d.watermark.toNat < k → k ≤ b.last → (b.request k).seq.toNat = k)
    (hlast : b.last < 2^64) {a c : ℕ} {cs : List Candidate} (h : Done path b d a p)
    (hrun : p.outcome = none) (ha : a ≤ input.config.maxApplies)
    (hcs : List.Forall₂ (Brings b) (List.range' (d.watermark.toNat+a+1) c) cs)
    (hend : d.watermark.toNat+a+c ≤ b.last)
    (hexamined : p.report.examined+c ≤ input.config.maxRecords)
    (hroom : b.Room d.state.timeless d.watermark.toNat (min input.config.maxApplies (a+c))) :
    Done path b d (min input.config.maxApplies (a+c)) (pollLoop path input p cs) ∧
      ∀ outcome, (pollLoop path input p cs).outcome = some outcome →
        outcome = .returned (pollLoop path input p cs).report := by
  induction c generalizing a p cs with
  | zero =>
      cases hcs
      have hsame : min input.config.maxApplies (a+0) = a := by omega
      rw [hsame,pollLoop]
      exact ⟨h,fun outcome ho => by rw [hrun] at ho; cases ho⟩
  | succ c ih =>
      rw [List.range'_succ] at hcs
      cases hcs with
      | @cons _ candidate _ rest hbrings hrest =>
          obtain ⟨hparse,hseq⟩ := hbrings
          have hwatermark : p.watermark.toNat = d.watermark.toNat+a := by
            rw [h.tracks.current hrun,h.watermark]
          have hfresh : p.watermark < (b.request (d.watermark.toNat+a+1)).seq := by
            rw [UInt64.lt_iff_toNat_lt,hseq]
            omega
          rcases Nat.lt_or_ge a input.config.maxApplies with hlt | hge
          · have hstate := h.tracks.holds.2
            have htimeless := h.state fun k hlow hhigh => hnumbered k hlow (by omega)
            have hadmissible := hroom.admissible (show a < _ by omega) ⟨_,hparse⟩
            rw [Backlog.approvedAfter,← htimeless,timeless_approvedDigests] at hadmissible
            have haccepts : Accepts path input.config p candidate
                (b.request (d.watermark.toNat+a+1)) (runFrom carry d p.trace).state := by
              refine ⟨by omega,hparse,hfresh,by rw [h.applied]; exact hlt,hstate,hoperator,?_,
                hadmissible⟩
              have hone : (1 : UInt64).toNat = 1 := rfl
              refine UInt64.toNat_inj.mp ?_
              rw [hseq,UInt64.toNat_add,hwatermark,hone]
              omega
            have hq := haccepts.examine
            rw [hcrash,if_neg (by simp)] at hq
            have htracks : Tracks path d (examineCandidate path input p candidate) :=
              h.tracks.examine hrun candidate
            rw [hq] at htracks
            have hnext : Done path b d (a+1) (afterAcceptance p
                (b.request (d.watermark.toNat+a+1)) (runFrom carry d p.trace).state
                (controlNowRfc3339 (input.clock p.report.applied))) := by
              refine ⟨htracks,?_,?_,?_⟩
              · rw [afterAcceptance,List.map_append,h.requests,List.range'_concat,List.map_append]
                have hposition : d.watermark.toNat+1+1*a = d.watermark.toNat+a+1 := by omega
                rw [hposition]
                rfl
              · intro x hx
                rcases List.mem_append.mp hx with hx | hx
                · exact h.counted x hx
                · rw [List.mem_singleton.mp hx]
              · exact congrArg (·+1) h.applied
            rw [pollLoop_skip hq hrun]
            have hshift : a+(c+1) = a+1+c := by omega
            rw [hshift] at hroom ⊢
            exact ih hnext hrun hlt hrest (by omega) (by simp only [afterAcceptance]; omega) hroom
          · have hmore : p.report.examined < input.config.maxRecords := by omega
            have hbudget : p.report.applied ≥ input.config.maxApplies := by
              rw [h.applied]
              exact hge
            obtain ⟨report,hq,happlied⟩ := @examine_exhausted path p input candidate _ hmore hparse
              hfresh hbudget
            have hsame : min input.config.maxApplies (a+(c+1)) = a := by omega
            rw [hsame,pollLoop_stop hq rfl]
            refine ⟨⟨⟨h.tracks.due,h.tracks.holds,by simp⟩,h.requests,h.counted,?_⟩,?_⟩
            · rw [happlied]
              exact h.applied
            · intro outcome ho
              exact (Option.some.inj ho).symm

end Pass

/-! ## Passes -/

section Passes
variable {path : String} {files : ChannelFiles} {b : Backlog} {config : RemotePollConfig}
  {watermark : UInt64} {state : ControlState} {clock : ℕ → ℤ}

/-- What a pass needs to get on: the channel, the state and the first command that waits on
its page. -/
structure Fed (path : String) (files : ChannelFiles) (b : Backlog) (config : RemotePollConfig)
    (watermark : UInt64) (state : ControlState) : Prop where
  ready : checkOperatorChannel config.accountDid config.operatorDid = .ready
  loaded : files.watermark = .ok watermark
  state : files.state path = .ok state
  reached : b.last-watermark.toNat ≤ (Backlog.requestedLimit config).toNat

theorem brought_mem {ks : List ℕ} {cs : List Candidate} (h : List.Forall₂ (Brings b) ks cs)
    {c : Candidate} (hc : c ∈ cs) : ∃ k ∈ ks, Brings b k c := by
  induction h with
  | nil => exact absurd hc List.not_mem_nil
  | @cons k c' ks cs hbrings _ ih =>
      rcases List.mem_cons.mp hc with rfl | hc
      · exact ⟨k,List.mem_cons_self,hbrings⟩
      · obtain ⟨j,hj,hbrings⟩ := ih hc
        exact ⟨j,List.mem_cons_of_mem k hj,hbrings⟩

/-- A candidate of another number is not the next one. -/
theorem Brings.other {k : ℕ} {c : Candidate} {request : ControlRequest} (h : Brings b k c)
    (hk : 0 < k) (hne : k ≠ watermark.toNat+1)
    (hparse : parseControlRequest c.json = .ok request) : request.seq ≠ watermark+1 := by
  obtain rfl := Except.ok.inj (h.1.symm.trans hparse)
  intro hseq
  have hvalue := congrArg UInt64.toNat hseq
  have hone : (1 : UInt64).toNat = 1 := rfl
  rw [h.2,UInt64.toNat_add,hone] at hvalue
  have := watermark.toNat_lt
  omega

theorem tracks_start (hloaded : files.watermark = .ok watermark)
    (hstate : files.state path = .ok state) :
    Tracks path ⟨watermark,state⟩ (startPass files watermark) :=
  ⟨trivial,⟨hloaded,hstate⟩,fun _ => rfl⟩

/-- A page that reaches down to the watermark: what is old, and what waits behind it. -/
theorem page_split {limit last w : ℕ} {cs : List Candidate} (hreached : last-w ≤ limit)
    (hw : w ≤ last)
    (h : List.Forall₂ (Brings b) (List.range' (last-limit+1) (min limit last)) cs) :
    ∃ old new, cs = old++new ∧
      List.Forall₂ (Brings b) (List.range' (last-limit+1) (w-(last-limit))) old ∧
      List.Forall₂ (Brings b) (List.range' (w+1) (last-w)) new := by
  have hsplit : List.range' (last-limit+1) (min limit last) =
      List.range' (last-limit+1) (w-(last-limit))++List.range' (w+1) (last-w) := by
    have hfirst : w+1 = last-limit+1+(w-(last-limit)) := by omega
    have hcount : min limit last = w-(last-limit)+(last-w) := by omega
    rw [hfirst,List.range'_append_1,hcount]
  rw [hsplit] at h
  have hold := List.forall₂_take_append _ _ _ h.flip
  have hnew := List.forall₂_drop_append _ _ _ h.flip
  exact ⟨_,_,(List.take_append_drop _ cs).symm,hold.flip,hnew.flip⟩

theorem operator_of_ready (h : checkOperatorChannel config.accountDid config.operatorDid = .ready) :
    config.operatorDid ≠ [] := by
  intro hempty
  rw [checkOperatorChannel,if_pos hempty] at h
  cases h

/-- A pass goes over candidates of other numbers than the next. -/
theorem pass_over_others {input : PollInput} {ks : List ℕ} {cs : List Candidate}
    (hstate : files.state path = .ok state) (happlies : 0 < input.config.maxApplies)
    (hroom : cs.length ≤ input.config.maxRecords) (h : List.Forall₂ (Brings b) ks cs)
    (hks : ∀ k ∈ ks, 0 < k ∧ k ≠ watermark.toNat+1) :
    ∃ refusals, pollLoop path input (startPass files watermark) cs =
      { startPass files watermark with
        report := { (startPass files watermark).report with
          examined := cs.length, refusals := refusals } } := by
  obtain ⟨refusals,hover⟩ := @pass_over path input (startPass files watermark) state rfl hstate
    happlies cs ((Nat.zero_add _).le.trans hroom) fun c hc request hparse => by
      obtain ⟨k,hk,hbrings⟩ := brought_mem h hc
      exact hbrings.other (hks k hk).1 (hks k hk).2 hparse
  refine ⟨refusals,?_⟩
  rw [hover]
  simp only [startPass,Nat.zero_add]

/-- A pass that is fed carries out the next commands. -/
theorem Fed.poll (hfed : Fed path files b config watermark state)
    (hb : b.WellFormed config.operatorDid) (hlt : watermark.toNat ≤ b.last)
    (hrecords : 0 < config.maxRecords) (happlies : 0 < config.maxApplies)
    (hroom : b.Room state.timeless watermark.toNat
      (min config.maxApplies (b.last-watermark.toNat))) :
    ∃ q, Done path b ⟨watermark,state⟩ (min config.maxApplies (b.last-watermark.toNat)) q ∧
      (Control.poll path files (b.input config clock)).files = q.files ∧
      (Control.poll path files (b.input config clock)).trace = q.trace ∧
      ∃ report, (Control.poll path files (b.input config clock)).outcome =
          some (.returned report) ∧
        report.applied = min config.maxApplies (b.last-watermark.toNat) := by
  obtain ⟨hlisted,hbrings⟩ := @candidates_brought b config clock hb
  have hstarts : Starts files (b.input config clock) watermark := ⟨hfed.ready,hfed.loaded,hlisted⟩
  have hlimit := requestedLimit_le config hrecords
  obtain ⟨old,new,hcs,hold,hnew⟩ := page_split hfed.reached hlt hbrings
  have hlength := congrArg List.length hcs
  rw [← hbrings.length_eq,List.length_append,List.length_range'] at hlength
  have hnewLength := hnew.length_eq
  rw [List.length_range'] at hnewLength
  obtain ⟨refusals,hover⟩ := @pass_over_others path files b watermark state
    (b.input config clock) _ old hfed.state happlies
    (show old.length ≤ config.maxRecords by omega) hold fun k hk => by
      rw [List.mem_range'_1] at hk
      omega
  have hstart : Done path b ⟨watermark,state⟩ 0
      (pollLoop path (b.input config clock) (startPass files watermark) old) := by
    have htracks : Tracks path ⟨watermark,state⟩
        (pollLoop path (b.input config clock) (startPass files watermark) old) :=
      (tracks_start hfed.loaded hfed.state).loop rfl old
    rw [hover] at htracks ⊢
    exact ⟨htracks,rfl,fun a ha => absurd ha List.not_mem_nil,rfl⟩
  have hrun : (pollLoop path (b.input config clock) (startPass files watermark) old).outcome =
      none := by rw [hover]; rfl
  have hexamined : (pollLoop path (b.input config clock) (startPass files watermark)
      old).report.examined+(b.last-watermark.toNat) ≤ (b.input config clock).config.maxRecords := by
    rw [hover]
    exact show old.length+(b.last-watermark.toNat) ≤ config.maxRecords by omega
  have hend : watermark.toNat+0+(b.last-watermark.toNat) ≤ b.last := by omega
  have hroom' : b.Room state.timeless watermark.toNat
      (min (b.input config clock).config.maxApplies (0+(b.last-watermark.toNat))) := by
    rw [Nat.zero_add]
    exact hroom
  obtain ⟨hdone,hends⟩ := hstart.go rfl (operator_of_ready hfed.ready)
    (fun k hlow hhigh => (hb.carried k (by omega) hhigh).numbered) hb.counted hrun (Nat.zero_le _)
    hnew hend hexamined hroom'
  rw [Nat.zero_add] at hdone
  rw [← pollLoop_append hrun,← hcs] at hdone hends
  refine ⟨_,hdone,(hstarts.outcome path).1,(hstarts.outcome path).2.1,_,?_,hdone.applied⟩
  have hpoll := hstarts.poll path
  simp only at hpoll
  rw [hpoll]
  cases ho : (pollLoop path (b.input config clock) (startPass files watermark)
      (b.input config clock).candidates).outcome with
  | none => rfl
  | some outcome =>
      rw [← hends outcome ho]
      exact ho

theorem commanded_add (command : UInt64 → ControlOp × Bytes) (w m j : ℕ) (state : ControlState) :
    commanded command w (m+j) state = commanded command (w+m) j (commanded command w m state) := by
  have hfirst : w+m+1 = w+1+m := by omega
  rw [commanded,commanded,commanded,hfirst,← List.foldl_append,List.range'_append_1]

theorem commanded_timeless (command : UInt64 → ControlOp × Bytes) (w m : ℕ)
    (state : ControlState) :
    (commanded command w m state).timeless = commanded command w m state.timeless := by
  induction m with
  | zero => rfl
  | succ m ih => rw [commanded_succ,commanded_succ,mutate_timeless,ih]

theorem room_timeless {w m : ℕ} : b.Room state.timeless w m ↔ b.Room state w m := by
  have hsame : ∀ j, b.approvedAfter state.timeless w j = b.approvedAfter state w j := fun j => by
    rw [Backlog.approvedAfter,← commanded_timeless,timeless_approvedDigests]
    rfl
  simp only [Backlog.Room,hsame]

theorem Backlog.Room.mono {w m m' : ℕ} (h : b.Room state w m) (hle : m' ≤ m) : b.Room state w m' :=
  fun j hj => h j (hj.trans_le hle)

/-- The room that is left behind the first `m` commands. -/
theorem Backlog.Room.behind {w m j : ℕ} (h : b.Room state w (m+j)) :
    b.Room (commanded b.command w m state) (w+m) j := by
  intro i hi
  have hat := h (m+i) (by omega)
  have hposition : w+(m+i)+1 = w+m+i+1 := by omega
  rwa [hposition,Backlog.approvedAfter,commanded_add] at hat

theorem Fed.applies (hfed : Fed path files b config watermark state)
    (hb : b.WellFormed config.operatorDid) (hlt : watermark.toNat ≤ b.last)
    (hrecords : 0 < config.maxRecords) (happlies : 0 < config.maxApplies)
    (hroom : b.Room state watermark.toNat (b.last-watermark.toNat)) :
    AppliesNext path files b config watermark clock := by
  obtain ⟨q,hdone,hfiles,htrace,report,houtcome,happlied⟩ := @Fed.poll path files b config watermark state clock hfed hb hlt
    hrecords happlies (room_timeless.mpr (hroom.mono (Nat.min_le_right _ _)))
  refine ⟨by rw [htrace]; exact hdone.requests,⟨report,houtcome,happlied⟩,?_⟩
  rw [hfiles,hdone.tracks.holds.1,← hdone.watermark,UInt64.ofNat_toNat]

/-- Fed passes go on until nothing waits. -/
theorem Fed.reaches (hfed : Fed path files b config watermark state)
    (hb : b.WellFormed config.operatorDid) (hlt : watermark.toNat ≤ b.last)
    (hrecords : 0 < config.maxRecords) (happlies : 0 < config.maxApplies)
    (hroom : b.Room state.timeless watermark.toNat (b.last-watermark.toNat))
    {clocks : List (ℕ → ℤ)} (hclocks : b.last-watermark.toNat ≤ clocks.length) :
    (runPolls path files (clocks.map (b.input config))).1.watermark = .ok (.ofNat b.last) := by
  induction clocks generalizing files watermark state with
  | nil =>
      rw [List.length_nil] at hclocks
      have hall : b.last = watermark.toNat := by omega
      rw [hall,UInt64.ofNat_toNat]
      exact hfed.loaded
  | cons clock clocks ih =>
      obtain ⟨q,hdone,hfiles,-⟩ := @Fed.poll path files b config watermark state clock hfed hb hlt hrecords happlies
        (hroom.mono (Nat.min_le_right _ _))
      have hraised : (runFrom carry ⟨watermark,state⟩ q.trace).watermark.toNat =
          watermark.toNat+min config.maxApplies (b.last-watermark.toNat) := hdone.watermark
      generalize hm : min config.maxApplies (b.last-watermark.toNat) = m at hdone hraised
      rw [List.length_cons] at hclocks
      have hfed' : Fed path q.files b config (runFrom carry ⟨watermark,state⟩ q.trace).watermark
          (runFrom carry ⟨watermark,state⟩ q.trace).state := by
        refine ⟨hfed.ready,hdone.tracks.holds.1,hdone.tracks.holds.2,?_⟩
        have := hfed.reached
        rw [hraised]
        omega
      have hstate := hdone.state fun k hlow hhigh =>
        (hb.carried k (by omega) (show k ≤ b.last by simp only at hhigh; omega)).numbered
      have hsplit : m+(b.last-(watermark.toNat+m)) = b.last-watermark.toNat := by omega
      have hroom' : b.Room (runFrom carry ⟨watermark,state⟩ q.trace).state.timeless
          (runFrom carry ⟨watermark,state⟩ q.trace).watermark.toNat
          (b.last-(runFrom carry ⟨watermark,state⟩ q.trace).watermark.toNat) := by
        rw [hstate,hraised]
        exact Backlog.Room.behind (by rw [hsplit]; exact hroom)
      rw [List.map_cons,runPolls]
      simp only
      rw [hfiles]
      exact ih hfed' (by omega) hroom' (by omega)

/-- A pass that does not die counts what it accepts. -/
theorem pollLoop_counted {input : PollInput} (hcrash : input.crash = none) {p : Pass}
    (hp : ∀ a ∈ p.trace, a.counted = true) (cs : List Candidate) :
    ∀ a ∈ (pollLoop path input p cs).trace, a.counted = true := by
  induction cs generalizing p with
  | nil => exact hp
  | cons c rest ih =>
      have hstep : ∀ a ∈ (examineCandidate path input p c).trace, a.counted = true := by
        rcases examineCandidate_cases path input p c with ⟨-,-,htrace⟩ | ⟨request,state,-,hq⟩
        · rw [htrace]
          exact hp
        · rw [hq,hcrash,if_neg nofun]
          intro a ha
          rcases List.mem_append.mp ha with ha | ha
          · exact hp a ha
          · rw [List.mem_singleton.mp ha]
      rw [pollLoop_cons]
      split
      · exact hstep
      · exact ih hstep

theorem runPolls_counted (clocks : List (ℕ → ℤ)) :
    ∀ a ∈ (runPolls path files (clocks.map (b.input config))).2, a.counted = true := by
  induction clocks generalizing files with
  | nil => exact fun a ha => absurd ha List.not_mem_nil
  | cons clock clocks ih =>
      intro a ha
      rcases List.mem_append.mp ha with ha | ha
      · rcases poll_files_trace path files (b.input config clock) with ⟨-,htrace⟩ | ⟨w,-,-,htrace⟩
        · rw [htrace] at ha
          exact absurd ha List.not_mem_nil
        · rw [htrace] at ha
          exact pollLoop_counted rfl (fun a ha => absurd ha List.not_mem_nil) _ a ha
      · exact ih a ha

/-- Every acceptance of a run is of a command of the repository. -/
theorem runPolls_requests (hb : b.WellFormed config.operatorDid) (clocks : List (ℕ → ℤ)) :
    ∀ a ∈ (runPolls path files (clocks.map (b.input config))).2,
      a.request = b.request a.request.seq.toNat := by
  intro a ha
  obtain ⟨input,hinput,c,hc,hparse⟩ := runPolls_trace _ a ha
  obtain ⟨clock,-,rfl⟩ := List.mem_map.mp hinput
  obtain ⟨k,-,hbrings⟩ := brought_mem (@candidates_brought b config clock hb).2 hc
  have hrequest := Except.ok.inj (hparse.symm.trans hbrings.1)
  rw [hrequest,hbrings.2]

/-- What a run that reaches the last command tells of the room for all that waited. -/
theorem room_of_reaches (hb : b.WellFormed config.operatorDid)
    (hholds : files.Holds path ⟨watermark,state⟩) {clocks : List (ℕ → ℤ)}
    (hend : (runPolls path files (clocks.map (b.input config))).1.watermark = .ok (.ofNat b.last)) :
    b.Room state watermark.toNat (b.last-watermark.toNat) := by
  obtain ⟨hafter,hdue⟩ := runPolls_holds hholds (clocks.map (b.input config))
  have hcounted := @runPolls_counted path files b config clocks
  have hrequests := @runPolls_requests path files b config hb clocks
  generalize (runPolls path files (clocks.map (b.input config))).2 = run at *
  have hraised := (watermark_raised hdue).1
  have hlast : (runFrom carry ⟨watermark,state⟩ run).watermark = .ofNat b.last :=
    Except.ok.inj (hafter.1.symm.trans hend)
  have hlength : watermark.toNat+run.length = b.last := by
    rw [counted_eq hcounted,hlast,UInt64.toNat_ofNat',Nat.mod_eq_of_lt hb.counted] at hraised
    exact hraised.symm
  intro j hj hop harg
  have hlt : j < run.length := by omega
  have hsplit : run = run.take j++run[j]::run.drop (j+1) := by
    rw [← List.drop_eq_getElem_cons hlt,List.take_append_drop]
  rw [hsplit] at hdue
  obtain ⟨hbefore,⟨hseq,hadmissible⟩,-⟩ := Guarded.append_iff.mp hdue
  have hpre : ∀ a ∈ run.take j, a.counted = true := fun a ha =>
    hcounted a (List.mem_of_mem_take ha)
  have hwatermark := (watermark_raised hbefore).1
  rw [counted_eq hpre,List.length_take,Nat.min_eq_left hlt.le] at hwatermark
  rw [hwatermark] at hseq
  have hrequest : run[j].request = b.request (watermark.toNat+j+1) := by
    rw [hrequests _ (List.getElem_mem hlt),hseq]
  have hagree : ∀ a ∈ run.take j, b.command a.request.seq = (a.request.op,a.request.arg) := by
    intro a ha
    rw [Backlog.command,← hrequests a (List.mem_of_mem_take ha)]
  have hsettled : Settled (run.take j) := fun a ha => hpre a (List.mem_of_getLast? ha)
  rcases state_commanded hbefore hagree with hstate | ⟨hnot,-⟩
  · rw [counted_eq hpre,List.length_take,Nat.min_eq_left hlt.le,← commanded_timeless] at hstate
    have happroved : (runFrom carry ⟨watermark,state⟩ (run.take j)).state.approvedDigests =
        b.approvedAfter state watermark.toNat j := by
      rw [Backlog.approvedAfter,← timeless_approvedDigests,hstate,timeless_approvedDigests]
    rw [hrequest,happroved] at hadmissible
    exact hadmissible.2 hop harg
  · exact absurd hsettled hnot

/-- The operator is not stranded exactly where the channel is ready, the state loads, the page
reaches down to the first command that waits, and no command approves over a full list. -/
theorem polls_progress (hb : b.WellFormed config.operatorDid)
    (hloaded : files.watermark = .ok watermark) (hlt : watermark.toNat < b.last)
    (hrecords : 0 < config.maxRecords) (happlies : 0 < config.maxApplies) :
    ((∀ clock, AppliesNext path files b config watermark clock) ∧ Reaches path files b config) ↔
      checkOperatorChannel config.accountDid config.operatorDid = .ready ∧
      (∃ state, files.state path = .ok state ∧
        b.Room state watermark.toNat (b.last-watermark.toNat)) ∧
      b.last-watermark.toNat ≤ (Backlog.requestedLimit config).toNat := by
  constructor
  · rintro ⟨happly,k,hreach⟩
    have hsome : (poll path files (b.input config fun _ => 0)).trace ≠ [] := by
      intro hnone
      have hlength := congrArg List.length (happly fun _ => 0).requests
      rw [hnone] at hlength
      simp only [List.map_nil,List.length_nil,List.length_map,List.length_range'] at hlength
      omega
    obtain ⟨hlisted,hbrings⟩ := @candidates_brought b config (fun _ => 0) hb
    have hready : checkOperatorChannel config.accountDid config.operatorDid = .ready := by
      rcases poll_cases path files (b.input config fun _ => 0) with ⟨outcome,hidle,-⟩ | ⟨w,hstarts⟩
      · rw [hidle] at hsome
        exact absurd rfl hsome
      · exact hstarts.ready
    obtain ⟨d,hd⟩ : ∃ d, files.Holds path d := by
      by_contra hnone
      exact hsome (poll_unreadable (not_exists.mp hnone) _).2
    obtain ⟨w,state⟩ := d
    obtain rfl := Except.ok.inj (hloaded.symm.trans hd.1)
    refine ⟨hready,⟨state,hd.2,?_⟩,?_⟩
    · exact room_of_reaches hb hd (hreach (List.replicate k fun _ => 0) (by simp))
    · by_contra hfar
      have hlimit := requestedLimit_le config hrecords
      have hstarts : Starts files (b.input config fun _ => 0) watermark :=
        ⟨hready,hloaded,hlisted⟩
      have hlength := hbrings.length_eq
      rw [List.length_range'] at hlength
      obtain ⟨refusals,hover⟩ := @pass_over_others path files b watermark state
        (b.input config fun _ => 0) _ _ hd.2 happlies
        (show _ ≤ config.maxRecords by rw [← hlength]; omega) hbrings fun k hk => by
          rw [List.mem_range'_1] at hk
          omega
      rw [(hstarts.outcome path).2.1,hover] at hsome
      exact hsome rfl
  · rintro ⟨hready,⟨state,hstate,hroom⟩,hreached⟩
    have hfed : Fed path files b config watermark state := ⟨hready,hloaded,hstate,hreached⟩
    exact ⟨fun clock => hfed.applies hb hlt.le hrecords happlies hroom,
      _,fun clocks hclocks => hfed.reaches hb hlt.le hrecords happlies (room_timeless.mpr hroom)
        hclocks⟩

end Passes

namespace Sample

/-- Three commands, all of them to pause. -/
def pauses : Backlog where
  last := 3
  record k := operatorRecord (toString k) "pause"
  request k := ⟨.ofNat k,.pause,[],none⟩

def channel (maxRecords : ℕ) : RemotePollConfig where
  operatorDid := utf8 "did:op"
  accountDid := utf8 "did:me"
  maxRecords := maxRecords
  maxApplies := 2

theorem pauses_wellFormed : pauses.WellFormed (utf8 "did:op") := by
  refine ⟨by decide,fun k hlow hhigh => ?_⟩
  have hcases : k = 1 ∨ k = 2 ∨ k = 3 := by
    have hlast : pauses.last = 3 := rfl
    omega
  rcases hcases with rfl | rfl | rfl
  · exact ⟨⟨_,utf8 "1pause",rfl,by decide +kernel,by decide +kernel⟩,by decide +kernel,rfl⟩
  · exact ⟨⟨_,utf8 "2pause",rfl,by decide +kernel,by decide +kernel⟩,by decide +kernel,rfl⟩
  · exact ⟨⟨_,utf8 "3pause",rfl,by decide +kernel,by decide +kernel⟩,by decide +kernel,rfl⟩

theorem polls_progress_pauses :
    Reaches "" ⟨none,none⟩ pauses (channel 3) :=
  ((@polls_progress "" ⟨none,none⟩ pauses (channel 3) 0 pauses_wellFormed rfl (by decide)
    (by decide) (by decide)).mpr
    ⟨by decide,⟨{},rfl,fun j _ hop => by cases hop⟩,by decide⟩).2

/-- With room for two records the page ends above the first command. -/
theorem pauses_stranded : pauses.WellFormed (channel 2).operatorDid ∧
    ¬((∀ clock, AppliesNext "" ⟨none,none⟩ pauses (channel 2) 0 clock) ∧
      Reaches "" ⟨none,none⟩ pauses (channel 2)) := by
  refine ⟨pauses_wellFormed,fun h => ?_⟩
  have hrequests := congrArg List.length (h.1 fun _ => 0).requests
  have hnone : ((poll "" ⟨none,none⟩ (pauses.input (channel 2) fun _ => 0)).trace.map
      (·.request)).length = 0 := by decide +kernel
  rw [hnone] at hrequests
  exact absurd hrequests (by decide)

end Sample

end Atperson.Control