import Atperson.Control.InOrder

/-!
# Interrupted acceptances

A command that was carried out but not counted is due again. Where the operator's records
agree on what each sequence number commands, the state after a run is that of the counted
commands, carried out once each; a pass that is repeated after dying between its saves ends
as if it had not died.
-/
namespace Atperson.Control
open Wire Runs

section Agreement
variable {command : UInt64 → ControlOp × Bytes} {d : Durable} {trace : List Acceptance}

/-- No two records of the run command different things under one sequence number. -/
def Agree (command : UInt64 → ControlOp × Bytes) (inputs : List PollInput) : Prop :=
  ∀ input ∈ inputs, ∀ c ∈ input.candidates, ∀ request,
    parseControlRequest c.json = .ok request → command request.seq = (request.op,request.arg)

/-- The state after the `n` commands behind the watermark `w`. -/
def commanded (command : UInt64 → ControlOp × Bytes) (w n : ℕ) (state : ControlState) :
    ControlState :=
  (List.range' (w+1) n).foldl
    (fun s seq => mutate (command (.ofNat seq)).1 (command (.ofNat seq)).2 [] s) state

theorem commanded_succ (w n : ℕ) (state : ControlState) :
    commanded command w (n+1) state =
      mutate (command (.ofNat (w+n+1))).1 (command (.ofNat (w+n+1))).2 []
        (commanded command w n state) := by
  rw [commanded,List.range'_concat,List.foldl_append,commanded]
  have hseq : w+1+1*n = w+n+1 := by omega
  rw [hseq]
  rfl

/-- The last acceptance, if any, is counted. -/
def Settled (trace : List Acceptance) : Prop :=
  ∀ a, trace.getLast? = some a → a.counted = true

theorem state_commanded (h : Guarded carry Due d trace)
    (hagree : ∀ a ∈ trace, command a.request.seq = (a.request.op,a.request.arg)) :
    (runFrom carry d trace).state.timeless =
        commanded command d.watermark.toNat (counted trace).length d.state.timeless ∨
    ¬ Settled trace ∧ (runFrom carry d trace).state.timeless =
        commanded command d.watermark.toNat ((counted trace).length+1) d.state.timeless := by
  induction trace using List.reverseRecOn with
  | nil => exact .inl rfl
  | append_singleton trace a ih =>
      obtain ⟨hbefore,⟨hseq,-⟩,-⟩ := Guarded.append_iff.mp h
      have ih := ih hbefore fun b hb => hagree b (List.mem_append_left _ hb)
      have hcommand : command (.ofNat (d.watermark.toNat+(counted trace).length+1)) =
          (a.request.op,a.request.arg) := by
        rw [← (watermark_raised hbefore).1,← hseq,UInt64.ofNat_toNat]
        exact hagree a (by simp)
      have hafter : (runFrom carry d (trace++[a])).state.timeless =
          commanded command d.watermark.toNat ((counted trace).length+1) d.state.timeless := by
        rw [runFrom_append,runFrom_cons,runFrom_nil,carry,mutate_timeless]
        rcases ih with ih | ⟨-,ih⟩
        · rw [ih,commanded_succ,hcommand]
        · rw [ih,commanded_succ,hcommand]
          exact mutate_again _ _ _ _
      have hcounted : counted (trace++[a]) =
          counted trace++(if a.counted then [a] else []) := by
        cases hc : a.counted <;> simp [counted,hc]
      cases hc : a.counted with
      | true =>
          refine .inl ?_
          rw [hcounted,hc,if_pos rfl,List.length_append]
          exact hafter
      | false =>
          refine .inr ⟨fun hsettled => ?_,?_⟩
          · have := hsettled a (by simp)
            simp [hc] at this
          · rw [hcounted,hc,if_neg (by decide),List.append_nil]
            exact hafter

/-- A settled run leaves what the counted commands command, each once. -/
theorem settled_state {path : String} {files : ChannelFiles} {inputs : List PollInput}
    (h : files.Holds path d) (hagree : Agree command inputs)
    (hsettled : Settled (runPolls path files inputs).2) :
    ∃ state, (runPolls path files inputs).1.state path = .ok state ∧ state.timeless =
      commanded command d.watermark.toNat (counted (runPolls path files inputs).2).length
        d.state.timeless := by
  obtain ⟨hholds,hdue⟩ := runPolls_holds h inputs
  refine ⟨_,hholds.2,?_⟩
  have hcommands : ∀ a ∈ (runPolls path files inputs).2,
      command a.request.seq = (a.request.op,a.request.arg) := by
    intro a ha
    obtain ⟨input,hinput,c,hc,hparse⟩ := runPolls_trace inputs a ha
    exact hagree input hinput c hc a.request hparse
  rcases state_commanded hdue hcommands with h | ⟨hnot,-⟩
  · exact h
  · exact absurd hsettled hnot

/-- Two settled runs over agreeing records that stop at one watermark leave one state. -/
theorem settled_runs_agree {path : String} {files : ChannelFiles}
    {inputs inputs' : List PollInput} (hagree : Agree command (inputs++inputs'))
    (hsettled : Settled (runPolls path files inputs).2)
    (hsettled' : Settled (runPolls path files inputs').2)
    (hwatermark : (runPolls path files inputs).1.watermark =
      (runPolls path files inputs').1.watermark) :
    ((runPolls path files inputs).1.state path).map (·.timeless) =
      ((runPolls path files inputs').1.state path).map (·.timeless) := by
  by_cases hholds : ∃ d, files.Holds path d
  · obtain ⟨d,hd⟩ := hholds
    obtain ⟨state,hstate,hcommanded⟩ := settled_state hd
      (fun input hi => hagree input (List.mem_append_left _ hi)) hsettled
    obtain ⟨state',hstate',hcommanded'⟩ := settled_state hd
      (fun input hi => hagree input (List.mem_append_right _ hi)) hsettled'
    obtain ⟨hend,hdue⟩ := runPolls_holds hd inputs
    obtain ⟨hend',hdue'⟩ := runPolls_holds hd inputs'
    have hsame : (counted (runPolls path files inputs).2).length =
        (counted (runPolls path files inputs').2).length := by
      have heq := Except.ok.inj (hend.1.symm.trans (hwatermark.trans hend'.1))
      have := congrArg UInt64.toNat heq
      rw [(watermark_raised hdue).1,(watermark_raised hdue').1] at this
      omega
    rw [hstate,hstate']
    simp only [Except.map,hcommanded,hcommanded',hsame]
  · have hnone : ∀ d, ¬ files.Holds path d := fun d hd => hholds ⟨d,hd⟩
    rw [runPolls_unreadable hnone,runPolls_unreadable hnone]

end Agreement

section Repetition
variable {path : String} {input : PollInput} {p : Pass}

def sameNumber (c c' : Candidate) : Bool :=
  match parseControlRequest c.json, parseControlRequest c'.json with
  | .ok request, .ok request' => request.seq = request'.seq
  | _, _ => false

/-- No two records of the listing carry one sequence number. -/
def DistinctNumbers (candidates : List Candidate) : Prop :=
  candidates.Pairwise fun c c' => sameNumber c c' = false

instance (candidates : List Candidate) : Decidable (DistinctNumbers candidates) :=
  inferInstanceAs (Decidable (candidates.Pairwise _))

theorem pollLoop_append {pre : List Candidate} (hrun : (pollLoop path input p pre).outcome = none)
    (post : List Candidate) : pollLoop path input p (pre++post) =
      pollLoop path input (pollLoop path input p pre) post := by
  induction pre generalizing p with
  | nil => rfl
  | cons c pre ih =>
      rw [pollLoop_cons] at hrun ⊢
      rw [List.cons_append,pollLoop_cons]
      split at hrun
      · rename_i hends
        rw [hrun] at hends
        cases hends
      · rename_i hgoes
        rw [if_neg hgoes,if_neg hgoes,ih hrun]

theorem pollLoop_skip {c : Candidate} {q : Pass} (hq : examineCandidate path input p c = q)
    (hrun : q.outcome = none) (rest : List Candidate) :
    pollLoop path input p (c::rest) = pollLoop path input q rest := by
  rw [pollLoop_cons,hq,hrun]
  rfl

theorem pollLoop_stop {c : Candidate} {q : Pass} (hq : examineCandidate path input p c = q)
    (hends : q.outcome.isSome) (rest : List Candidate) :
    pollLoop path input p (c::rest) = q := by
  rw [pollLoop_cons,hq,if_pos hends]

theorem examined_of_running {candidates : List Candidate} (hp : p.outcome = none)
    (hrun : (pollLoop path input p candidates).outcome = none) :
    (pollLoop path input p candidates).report.examined =
      p.report.examined+candidates.length := by
  induction candidates generalizing p with
  | nil => rfl
  | cons c rest ih =>
      rcases candidate_fate path input.config p c with h | h | ⟨request,state,h⟩
      · obtain ⟨report,outcome,hq,-,-⟩ := h.examine
        rw [pollLoop_stop hq rfl] at hrun
        cases hrun
      · obtain ⟨refusals,hq⟩ := h.examine
        rw [pollLoop_skip hq hp] at hrun ⊢
        rw [ih (p := afterSkip p refusals) hp hrun,List.length_cons]
        simp only [afterSkip]
        omega
      · have hq := h.examine
        by_cases hcrash : input.crash = some p.report.applied
        · rw [if_pos hcrash] at hq
          rw [pollLoop_stop hq rfl] at hrun
          cases hrun
        · rw [if_neg hcrash] at hq
          rw [pollLoop_skip hq hp] at hrun ⊢
          rw [ih (p := afterAcceptance p request state _) hp hrun,List.length_cons]
          simp only [afterAcceptance]
          omega

theorem applied_le (hp : p.outcome = none) (candidates : List Candidate) :
    p.report.applied ≤ (pollLoop path input p candidates).report.applied := by
  induction candidates generalizing p with
  | nil => rfl
  | cons c rest ih =>
      rcases candidate_fate path input.config p c with h | h | ⟨request,state,h⟩
      · obtain ⟨report,outcome,hq,-,happlied⟩ := h.examine
        rw [pollLoop_stop hq rfl,← happlied]
      · obtain ⟨refusals,hq⟩ := h.examine
        rw [pollLoop_skip hq hp]
        exact ih (p := afterSkip p refusals) hp
      · have hq := h.examine
        by_cases hcrash : input.crash = some p.report.applied
        · rw [if_pos hcrash] at hq
          rw [pollLoop_stop hq rfl]
          rfl
        · rw [if_neg hcrash] at hq
          rw [pollLoop_skip hq hp]
          exact (Nat.le_succ _).trans (ih (p := afterAcceptance p request state _) hp)

/-- A pass that dies between its saves goes as one that does not until it dies. -/
theorem dying_pass {k : ℕ} {candidates : List Candidate} (hp : p.outcome = none)
    (hdies : (pollLoop path { input with crash := some k } p candidates).outcome =
      some .crashed) :
    ∃ pre c post request state now, candidates = pre++c::post ∧
      let q := pollLoop path { input with crash := none } p pre
      q.outcome = none ∧ Accepts path input.config q c request state ∧
      now = controlNowRfc3339 (input.clock q.report.applied) ∧
      (pollLoop path { input with crash := some k } p candidates).files =
        (betweenSaves q request state now).files := by
  induction candidates generalizing p with
  | nil =>
      rw [pollLoop,hp] at hdies
      cases hdies
  | cons c rest ih =>
      rcases candidate_fate path input.config p c with h | h | ⟨request,state,h⟩
      · have hends : Ends path { input with crash := some k }.config p c := h
        obtain ⟨report,outcome,hq,hne,-⟩ := hends.examine
        rw [pollLoop_stop hq rfl] at hdies
        exact absurd (Option.some.inj hdies) hne
      · obtain ⟨refusals,hq⟩ := h.examine_any
        rw [pollLoop_skip (hq (some k)) hp] at hdies ⊢
        obtain ⟨pre,c',post,request,state,now,rfl,hrest⟩ :=
          ih (p := afterSkip p refusals) hp hdies
        refine ⟨c::pre,c',post,request,state,now,rfl,?_⟩
        rw [pollLoop_skip (hq none) hp]
        exact hrest
      · have hdying : examineCandidate path { input with crash := some k } p c = _ :=
          Accepts.examine h
        have hliving : examineCandidate path { input with crash := none } p c = _ :=
          Accepts.examine h
        rw [if_neg nofun] at hliving
        by_cases hk : k = p.report.applied
        · rw [if_pos (by simp [hk])] at hdying
          refine ⟨[],c,rest,request,state,_,rfl,hp,h,rfl,?_⟩
          rw [pollLoop_stop hdying rfl]
          rfl
        · rw [if_neg (by simp [hk])] at hdying
          rw [pollLoop_skip hdying hp] at hdies ⊢
          obtain ⟨pre,c',post,request',state',now,rfl,hrest⟩ :=
            ih (p := afterAcceptance p request state _) hp hdies
          refine ⟨c::pre,c',post,request',state',now,rfl,?_⟩
          rw [pollLoop_skip hliving hp]
          exact hrest

/-- The files tell the same, the time of a shutdown aside. -/
def SameFiles (path : String) (files files' : ChannelFiles) : Prop :=
  files'.watermark = files.watermark ∧
    (files'.state path).map (·.timeless) = (files.state path).map (·.timeless)

/-- Two passes at one place of the listing, the second with no more acceptances behind it. -/
structure Alike (path : String) (p p' : Pass) : Prop where
  watermark : p'.watermark = p.watermark
  examined : p'.report.examined = p.report.examined
  applied : p'.report.applied ≤ p.report.applied
  running : p.outcome = none
  running' : p'.outcome = none
  saved : p'.files.watermark = p.files.watermark
  states : ∃ state state', p.files.state path = .ok state ∧ p'.files.state path = .ok state' ∧
    state'.timeless = state.timeless

theorem Alike.sameFiles {p' : Pass} (h : Alike path p p') : SameFiles path p.files p'.files := by
  obtain ⟨state,state',hs,hs',htimeless⟩ := h.states
  exact ⟨h.saved,by rw [hs,hs',Except.map,Except.map,htimeless]⟩

theorem approved_of_timeless {state state' : ControlState}
    (h : state'.timeless = state.timeless) : state'.approvedDigests = state.approvedDigests :=
  (congrArg ControlState.approvedDigests h :
    state'.timeless.approvedDigests = state.timeless.approvedDigests)

/-- What one pass does behind a candidate, the other does. -/
theorem Alike.fate {p' : Pass} {config : RemotePollConfig} (h : Alike path p p')
    (hbudget : p.report.applied < config.maxApplies) (c : Candidate) :
    Ends path config p c ∧ Ends path config p' c ∨
    Skips path config p c ∧ Skips path config p' c ∨
    ∃ request state state', Accepts path config p c request state ∧
      Accepts path config p' c request state' ∧ state'.timeless = state.timeless := by
  obtain ⟨state,state',hs,hs',htimeless⟩ := h.states
  have hbudget' := h.applied.trans_lt hbudget
  rcases candidate_fate path config p c with hfate | hfate | ⟨request,found,hfate⟩
  · refine .inl ⟨hfate,⟨fun hexamined => ?_⟩⟩
    rw [h.examined] at hexamined
    obtain ⟨request,-,-,hload⟩ := hfate.stuck hexamined
    obtain ⟨error,herror⟩ := hload hbudget
    cases hs.symm.trans herror
  · refine .inr (.inl ⟨hfate,⟨h.examined ▸ hfate.examined,fun request hparse => ?_⟩⟩)
    rw [h.watermark]
    rcases hfate.unfit request hparse with hold | ⟨-,found,hfound,hunfit⟩
    · exact .inl hold
    · cases hs.symm.trans hfound
      refine .inr ⟨hbudget',state',hs',?_⟩
      rwa [approved_of_timeless htimeless]
  · cases hs.symm.trans hfate.loaded
    refine .inr (.inr ⟨request,state,state',hfate,?_,htimeless⟩)
    exact ⟨h.examined ▸ hfate.examined,hfate.parsed,h.watermark ▸ hfate.fresh,hbudget',hs',
      hfate.operator,h.watermark ▸ hfate.next,
      (approved_of_timeless htimeless).symm ▸ hfate.admissible⟩

theorem Alike.accept {p' : Pass} {config : RemotePollConfig} {c : Candidate}
    {request : ControlRequest} {state state' : ControlState}
    (hexamined : p'.report.examined = p.report.examined)
    (happlied : p'.report.applied ≤ p.report.applied)
    (hrun : p.outcome = none) (hrun' : p'.outcome = none)
    (h : Accepts path config p c request state)
    (h' : Accepts path config p' c request state') (clock clock' : ℤ)
    (hsame : mutate request.op request.arg [] state'.timeless =
      mutate request.op request.arg [] state.timeless) :
    Alike path (afterAcceptance p request state (controlNowRfc3339 clock))
      (afterAcceptance p' request state' (controlNowRfc3339 clock')) where
  watermark := rfl
  examined := congrArg (·+1) hexamined
  applied := Nat.succ_le_succ happlied
  running := hrun
  running' := hrun'
  saved := rfl
  states := ⟨_,_,state_of_stateJson (h.stored clock) rfl,state_of_stateJson (h'.stored clock') rfl,
    by rw [mutate_timeless,mutate_timeless,hsame]⟩

/-- Alike passes end with the same files while the apply budget of the first lasts. -/
theorem Alike.loop {p' : Pass} {input input' : PollInput} (h : Alike path p p')
    (hconfig : input'.config = input.config) (hlives : input.crash = none)
    (hlives' : input'.crash = none) (candidates : List Candidate)
    (hbudget : (pollLoop path input p candidates).report.applied < input.config.maxApplies) :
    SameFiles path (pollLoop path input p candidates).files
      (pollLoop path input' p' candidates).files := by
  induction candidates generalizing p p' with
  | nil => exact h.sameFiles
  | cons c rest ih =>
      have hroom := (applied_le h.running (c::rest)).trans_lt hbudget
      rcases h.fate hroom c with ⟨hends,hends'⟩ | ⟨hskips,hskips'⟩ |
        ⟨request,state,state',haccepts,haccepts',htimeless⟩
      · rw [← hconfig] at hends'
        obtain ⟨report,outcome,hq,-,-⟩ := hends.examine
        obtain ⟨report',outcome',hq',-,-⟩ := hends'.examine
        rw [pollLoop_stop hq rfl,pollLoop_stop hq' rfl]
        exact h.sameFiles
      · rw [← hconfig] at hskips'
        obtain ⟨refusals,hq⟩ := hskips.examine
        obtain ⟨refusals',hq'⟩ := hskips'.examine
        rw [pollLoop_skip hq h.running] at hbudget ⊢
        rw [pollLoop_skip hq' h.running']
        refine ih ?_ hbudget
        exact { h with examined := congrArg (·+1) h.examined }
      · have hnext := Alike.accept h.examined h.applied h.running h.running' haccepts haccepts'
          (input.clock p.report.applied) (input'.clock p'.report.applied) (by rw [htimeless])
        rw [← hconfig] at haccepts'
        have hq := haccepts.examine
        have hq' := haccepts'.examine
        rw [hlives,if_neg nofun] at hq
        rw [hlives',if_neg nofun] at hq'
        rw [pollLoop_skip hq h.running] at hbudget ⊢
        rw [pollLoop_skip hq' h.running']
        exact ih hnext hbudget

/-- A pass goes over candidates of which none carries the next command. -/
theorem pass_over {state : ControlState} (hp : p.outcome = none)
    (hload : p.files.state path = .ok state)
    (hbudget : p.report.applied < input.config.maxApplies) (candidates : List Candidate)
    (hroom : p.report.examined+candidates.length ≤ input.config.maxRecords)
    (hother : ∀ c ∈ candidates, ∀ request, parseControlRequest c.json = .ok request →
      request.seq ≠ p.watermark+1) :
    ∃ refusals, pollLoop path input p candidates = { p with
      report := { p.report with
        examined := p.report.examined+candidates.length, refusals := refusals } } := by
  induction candidates generalizing p with
  | nil => exact ⟨_,rfl⟩
  | cons c rest ih =>
      simp only [List.length_cons] at hroom
      have hskips : Skips path input.config p c := by
        refine ⟨by omega,fun request hparse => .inr ⟨hbudget,state,hload,?_⟩⟩
        exact fun hfit => hother c List.mem_cons_self request hparse hfit.2.1
      obtain ⟨refusals,hq⟩ := hskips.examine
      obtain ⟨later,hrest⟩ := ih (p := afterSkip p refusals) hp hload hbudget
        (by simp only [afterSkip]; omega) (fun c hc => hother c (List.mem_cons_of_mem _ hc))
      refine ⟨later,?_⟩
      rw [pollLoop_skip hq hp,hrest]
      simp only [afterSkip,List.length_cons]
      rw [Nat.add_assoc,Nat.add_comm 1]

theorem admissible_again {request : ControlRequest} {state : ControlState} {now : Bytes}
    (h : Admissible state.approvedDigests request) :
    Admissible (mutate request.op request.arg now state).approvedDigests request := by
  refine ⟨h.1,fun hop hnot => absurd ?_ hnot⟩
  rw [hop]
  by_cases hin : isDigestApproved state request.arg = true
  · simpa only [mutate,if_pos hin] using List.contains_iff_mem.mp hin
  · simp [mutate,if_neg hin]

/-- A pass that died between its saves ends, repeated over the same listing, as the pass that
does not die: the numbers of the listing are distinct and its budget is not used up. -/
theorem repeated_pass {files : ChannelFiles} {k : ℕ} {clock : ℕ → ℤ}
    (hdistinct : DistinctNumbers input.candidates)
    (hdies : (poll path files { input with crash := some k }).outcome = some .crashed)
    (hbudget : (poll path files { input with crash := none }).report.applied <
      input.config.maxApplies) :
    SameFiles path (poll path files { input with crash := none }).files
      (poll path (poll path files { input with crash := some k }).files
        { input with clock := clock, crash := none }).files := by
  rcases poll_cases path files { input with crash := some k } with ⟨outcome,h,hne⟩ |
    ⟨w,hstarts⟩
  · rw [h] at hdies
    exact absurd (Option.some.inj hdies) hne
  obtain ⟨hdead,-,-,hcrashed⟩ := hstarts.outcome path
  have hfull : Starts files { input with crash := none } w :=
    ⟨hstarts.ready,hstarts.loaded,hstarts.listed⟩
  obtain ⟨hfiles,-,hreport,-⟩ := hfull.outcome path
  obtain ⟨pre,c,post,request,state,now,hsplit,hrun,haccepts,hnow,hleft⟩ :=
    dying_pass (rfl : (startPass files w).outcome = none) (hcrashed hdies)
  rw [hreport] at hbudget
  rw [hfiles]
  change input.candidates = _ at hsplit
  generalize hq : pollLoop path { input with crash := none } (startPass files w) pre = q
    at hrun haccepts hnow hleft
  obtain ⟨hqueued,hqstate⟩ : q.files.watermark = .ok q.watermark ∧
      ∃ state, files.state path = .ok state := by
    cases hload : files.state path with
    | error error =>
        have hsame := (pollLoop_unreadable { input with crash := none } (p := startPass files w)
          hload pre).1
        rw [hq] at hsame
        have hloaded := haccepts.loaded
        rw [hsame] at hloaded
        cases hload.symm.trans hloaded
    | ok found =>
        have htracks : Tracks path ⟨w,found⟩ (startPass files w) :=
          ⟨trivial,⟨hstarts.loaded,hload⟩,fun _ => rfl⟩
        have htracks : Tracks path ⟨w,found⟩ (pollLoop path { input with crash := none }
            (startPass files w) pre) := htracks.loop rfl pre
        rw [hq] at htracks
        exact ⟨(htracks.current hrun).symm ▸ htracks.holds.1,found,rfl⟩
  -- what the dead pass leaves: the new state beside the old watermark
  have hstored : (mutate request.op request.arg now state).Stored := hnow ▸ haccepts.stored _
  generalize hF : (poll path files { input with crash := some k }).files = F
  have hleft : F = (betweenSaves q request state now).files := by rw [← hF,hdead,← hleft]
  have hFwatermark : F.watermark = .ok q.watermark := by rw [hleft]; exact hqueued
  have hFstate : F.state path = .ok (mutate request.op request.arg now state) := by
    rw [hleft]
    exact state_of_stateJson hstored rfl
  have hagain : Starts F { input with clock := clock, crash := none } q.watermark :=
    ⟨hstarts.ready,hFwatermark,hstarts.listed⟩
  rw [(hagain.outcome path).1]
  have hexamined : q.report.examined = pre.length := by
    have := examined_of_running (rfl : (startPass files w).outcome = none) (hq ▸ hrun)
    rw [hq] at this
    exact this.trans (Nat.zero_add _)
  have hroom : pre.length < input.config.maxRecords := hexamined ▸ haccepts.examined
  have hother : ∀ c' ∈ pre, ∀ request', parseControlRequest c'.json = .ok request' →
      request'.seq ≠ q.watermark+1 := by
    intro c' hc' request' hparse
    rw [hsplit,DistinctNumbers,List.pairwise_append] at hdistinct
    have hdiffer := hdistinct.2.2 c' hc' c List.mem_cons_self
    rw [← haccepts.next]
    simpa [sameNumber,hparse,haccepts.parsed] using hdiffer
  obtain ⟨refusals,hover⟩ : ∃ refusals, pollLoop path
      { input with clock := clock, crash := none } (startPass F q.watermark) pre = _ :=
    pass_over rfl hFstate (Nat.zero_lt_of_lt haccepts.budget) pre
      (by simp only [startPass]; omega) hother
  generalize hp' : ({ startPass F q.watermark with report := _ } : Pass) = p' at hover
  have hcandidates : ({ input with clock := clock, crash := none } : PollInput).candidates =
      pre++c::post := hsplit
  have hcandidates' : ({ input with crash := none } : PollInput).candidates = pre++c::post :=
    hsplit
  rw [hcandidates,pollLoop_append (by rw [hover,← hp']; rfl),hover]
  rw [hcandidates',pollLoop_append (by rw [hq]; exact hrun),hq] at hbudget ⊢
  have haccepts' : Accepts path input.config p' c request
      (mutate request.op request.arg now state) := by
    subst hp'
    exact ⟨by simp only [startPass]; omega,haccepts.parsed,haccepts.fresh,
      Nat.zero_lt_of_lt haccepts.budget,hFstate,haccepts.operator,haccepts.next,
      admissible_again haccepts.admissible⟩
  have hrun' : p'.outcome = none := by subst hp'; rfl
  have hnext : examineCandidate path { input with crash := none } q c = _ :=
    Accepts.examine haccepts
  have hnext' : examineCandidate path { input with clock := clock, crash := none } p' c = _ :=
    Accepts.examine haccepts'
  rw [if_neg (by simp)] at hnext hnext'
  rw [pollLoop_skip hnext hrun] at hbudget ⊢
  rw [pollLoop_skip hnext' hrun']
  have halike (clock' : ℤ) : Alike path
      (afterAcceptance q request state (controlNowRfc3339 (input.clock q.report.applied)))
      (afterAcceptance p' request (mutate request.op request.arg now state)
        (controlNowRfc3339 clock')) := by
    refine Alike.accept ?_ ?_ hrun hrun' haccepts haccepts' _ _ ?_
    · subst hp'
      exact (Nat.zero_add _).trans hexamined.symm
    · subst hp'
      exact Nat.zero_le _
    · rw [mutate_timeless,mutate_again]
  exact @Alike.loop path _ _ { input with crash := none }
    { input with clock := clock, crash := none } (halike _) rfl rfl rfl post hbudget

end Repetition

/-- A refusal changes nothing. Every run follows its acceptances: each is of the number behind
the watermark, which rises by the counted ones, and the state is what they make of it. Where
the records agree, settled runs that stop at one watermark leave one state; and a pass that
died between its saves is made good when it is repeated. -/
theorem remote_commands_in_order :
    (∀ state watermark request operatorDid requestDid clock,
      let decision := applyControlRequest state watermark request operatorDid requestDid clock
      decision.report.applied = false →
        decision.state = state ∧ decision.watermark = watermark) ∧
    (∀ path files inputs,
      (∀ d : Durable, files.Holds path d →
        let after := runFrom carry d (runPolls path files inputs).2
        (runPolls path files inputs).1.Holds path after ∧
          InOrder d.watermark (runPolls path files inputs).2 after.watermark) ∧
      ((∀ d : Durable, ¬ files.Holds path d) → runPolls path files inputs = (files,[]))) ∧
    (∀ path files inputs inputs' command, Agree command (inputs++inputs') →
      Settled (runPolls path files inputs).2 → Settled (runPolls path files inputs').2 →
      (runPolls path files inputs).1.watermark = (runPolls path files inputs').1.watermark →
      SameFiles path (runPolls path files inputs).1 (runPolls path files inputs').1) ∧
    (∀ path files (input : PollInput) k clock, DistinctNumbers input.candidates →
      (poll path files { input with crash := some k }).outcome = some .crashed →
      (poll path files { input with crash := none }).report.applied < input.config.maxApplies →
      SameFiles path (poll path files { input with crash := none }).files
        (poll path (poll path files { input with crash := some k }).files
          { input with clock := clock, crash := none }).files) := by
  refine ⟨fun _ _ _ _ _ _ h => applyControlRequest_refused h,?_,?_,?_⟩
  · intro path files inputs
    refine ⟨fun d hd => ?_,fun hnone => runPolls_unreadable hnone inputs⟩
    obtain ⟨hholds,hdue⟩ := runPolls_holds hd inputs
    exact ⟨hholds,Guarded.inOrder hdue⟩
  · intro path files inputs inputs' command hagree hsettled hsettled' hwatermark
    exact ⟨hwatermark.symm,(settled_runs_agree hagree hsettled hsettled' hwatermark).symm⟩
  · intro path files input k clock hdistinct hdies hbudget
    exact repeated_pass hdistinct hdies hbudget

section Samples

instance (path : String) (files files' : ChannelFiles) : Decidable (SameFiles path files files') :=
  inferInstanceAs (Decidable (_ ∧ _))

/-- A record of the operator `did:op`. -/
def operatorRecord (seq op : String) : ListedRecord where
  uri := some (utf8 ("at://did:op/c/"++seq++op))
  value := some (.object [
    ("format",.string (utf8 kControlRequestFormat)),
    ("version",.number (.finite 1)),
    ("type",.string (utf8 kControlRequestType)),
    ("seq",.string (utf8 seq)),
    ("op",.string (utf8 op))])

def operatorPoll (newestFirst : List ListedRecord) (crash : Option ℕ) : PollInput where
  config := { operatorDid := utf8 "did:op", accountDid := utf8 "did:me" }
  listing := .ok newestFirst
  clock := fun _ => 0
  crash := crash

/-- A pause and a shutdown, the second left between its saves and repeated. -/
theorem remote_commands_in_order_sample :
    let input := operatorPoll [operatorRecord "2" "shutdown",operatorRecord "1" "pause"] none
    SameFiles "" (poll "" ⟨none,none⟩ input).files
      (poll "" (poll "" ⟨none,none⟩ { input with crash := some 1 }).files input).files :=
  remote_commands_in_order.2.2.2 "" ⟨none,none⟩
    (operatorPoll [operatorRecord "2" "shutdown",operatorRecord "1" "pause"] none) 1
    (fun _ => 0) (by decide +kernel) (by decide +kernel) (by decide +kernel)

/-- A second command with a number that was refused at first: the crash leaves it to the first
one of that number, which is then carried out too. -/
theorem crashed_run_diverges : ¬ ∀ path files inputs, SameFiles path
    (runPolls path files (inputs.map fun input => { input with crash := none })).1
    (runPolls path files inputs).1 := by
  intro h
  have hsame := h "" ⟨none,none⟩
    [operatorPoll [operatorRecord "2" "dry-run-off",operatorRecord "1" "pause",
      operatorRecord "2" "writes-on"] (some 1),
    operatorPoll [operatorRecord "2" "dry-run-off",operatorRecord "1" "pause",
      operatorRecord "2" "writes-on"] none]
  exact absurd hsame (by decide +kernel)

end Samples

end Atperson.Control
