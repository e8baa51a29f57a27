import Atperson.Core.Expansion
import Atperson.Core.Guard
import Atperson.Core.Lifecycle

/-!
# The contract of a decision

The accepted plan is the longest admissible front of some raw plan, and no other is better.
What makes steps admissible is told of the steps as a whole: their floors, the falls between
neighbours, the runs of one token and the returns to it.
-/
namespace Atperson.Core
open Floats (narrow widen)
open Ledger (Status)
open Runs (Ranked)

/-! ## Admissible steps -/

/-- A step that is below no floor. -/
structure Clears (guards : GuardConfig) (c : ActionCandidate) : Prop where
  score : ¬c.score < guards.minCandidateScore
  support : ¬c.supportScore < guards.minSupportScore
  valence : ¬(guards.valenceGuard = true ∧ 0 < c.valenceEvents ∧ c.valence < guards.minValence)

structure Admissible (guards : GuardConfig) (steps : List ActionCandidate) : Prop where
  floors : ∀ c ∈ steps, Clears guards c
  drops : steps.IsChain fun a b => ¬guards.maxScoreDrop < a.score-b.score
  runs : ∀ token n, List.replicate n token <:+: tokenPath steps →
    n ≤ guards.maxConsecutiveOccurrences
  returns : ∀ a b, List.Sublist [a,b,a] (tokenPath steps) → a = b

/-- What a guard says against a step behind accepted ones. -/
def Fails (guards : GuardConfig) (accepted : List ActionCandidate) (c : ActionCandidate) :
    PlanStop → Prop
  | .lowScore => c.score < guards.minCandidateScore
  | .lowSupport => c.supportScore < guards.minSupportScore
  | .negativeValence =>
      guards.valenceGuard = true ∧ 0 < c.valenceEvents ∧ c.valence < guards.minValence
  | .scoreDrop => ∃ last, accepted.getLast? = some last ∧ guards.maxScoreDrop < last.score-c.score
  | .repetition => ∃ n, guards.maxConsecutiveOccurrences < n ∧
      List.replicate n c.token <:+ tokenPath (accepted++[c])
  | .cycle => ∃ b, b ≠ c.token ∧ List.Sublist [c.token,b,c.token] (tokenPath (accepted++[c]))
  | _ => False

def guardOrder : List PlanStop :=
  [.lowScore,.lowSupport,.negativeValence,.scoreDrop,.repetition,.cycle]

/-- The first guard in order that rejects the step. -/
def FirstFailure (guards : GuardConfig) (accepted : List ActionCandidate) (c : ActionCandidate)
    (reason : PlanStop) : Prop :=
  Fails guards accepted c reason ∧ ∃ before after, guardOrder = before++reason::after ∧
    ∀ r ∈ before, ¬Fails guards accepted c r

/-! ## Runs and returns of a token -/

section Tokens
variable {α : Type} {l : List α} {a b : α} {n : ℕ}

/-- An element that has been left behind. -/
theorem left_behind_iff (hlast : l.getLast? ≠ some a) :
    a ∈ l ↔ ∃ b, b ≠ a ∧ List.Sublist [a,b] l := by
  constructor
  · intro ha
    rcases List.eq_nil_or_concat l with rfl | ⟨init,last,rfl⟩
    · cases ha
    · rw [List.concat_eq_append] at ha hlast ⊢
      rw [List.getLast?_concat] at hlast
      have hne : last ≠ a := fun h => hlast (congrArg some h)
      rcases List.mem_append.mp ha with hinit | heq
      · exact ⟨last,hne,(List.singleton_sublist.mpr hinit).append (List.Sublist.refl [last])⟩
      · exact absurd (List.mem_singleton.mp heq).symm hne
  · rintro ⟨b,-,hsub⟩
    exact hsub.mem List.mem_cons_self

/-- The last element closes every return it takes part in. -/
theorem return_concat_iff {c : α} :
    List.Sublist [a,b,a] (l++[c]) ↔ List.Sublist [a,b,a] l ∨ a = c ∧ List.Sublist [a,b] l := by
  constructor
  · intro h
    obtain ⟨front,back,hsplit,hfront,hback⟩ := List.sublist_append_iff.mp h
    rcases List.sublist_singleton.mp hback with rfl | rfl
    · rw [List.append_nil] at hsplit
      exact .inl (hsplit ▸ hfront)
    · have hsame : [a,b]++[a] = front++[c] := hsplit
      obtain ⟨rfl,hlast⟩ := List.append_inj' hsame rfl
      exact .inr ⟨(List.cons.inj hlast).1,hfront⟩
  · rintro (h | ⟨rfl,h⟩)
    · exact h.trans (List.sublist_append_left l [c])
    · exact h.append (List.Sublist.refl [a])

variable [DecidableEq α]

theorem replicate_prefix_iff :
    List.replicate n a <+: l ↔ n ≤ (l.takeWhile fun b => b = a).length := by
  induction n generalizing l with
  | zero => simp
  | succ n ih =>
      rw [List.replicate_succ]
      cases l with
      | nil => simp
      | cons b l =>
          rw [List.cons_prefix_cons,ih]
          by_cases hab : b = a
          · subst hab
            rw [List.takeWhile_cons_of_pos (by simp),List.length_cons]
            simp
          · rw [List.takeWhile_cons_of_neg (by simpa using hab)]
            have hne : a ≠ b := fun h => hab h.symm
            simp [hne]

/-- How long a run of one element at the end can be. -/
theorem replicate_suffix_iff :
    List.replicate n a <:+ l++[a] ↔ n ≤ (l.reverse.takeWhile fun b => b = a).length+1 := by
  rw [← List.reverse_prefix,List.reverse_replicate,List.reverse_append,replicate_prefix_iff]
  simp

end Tokens

/-! ## One step more -/

section Step
variable {guards : GuardConfig} {accepted : List ActionCandidate} {c : ActionCandidate}
  {token : Token} {r : Rejection}

theorem admissible_nil : Admissible guards [] where
  floors := fun c hc => absurd hc List.not_mem_nil
  drops := List.isChain_nil
  runs := by
    intro token n h
    have hlength := h.length_le
    rw [List.length_replicate] at hlength
    exact hlength.trans (Nat.zero_le _)
  returns := fun a b h => by cases h

theorem Admissible.of_prefix {steps : List ActionCandidate} (h : Admissible guards steps)
    (hfront : accepted <+: steps) : Admissible guards accepted := by
  have hpath : tokenPath accepted <+: tokenPath steps := hfront.map _
  obtain ⟨rest,rfl⟩ := hfront
  exact ⟨fun c hc => h.floors c (List.mem_append_left rest hc),h.drops.left_of_append,
    fun token n hrun => h.runs token n (hrun.trans hpath.isInfix),
    fun a b hback => h.returns a b (hback.trans hpath.sublist)⟩

theorem consecutive_iff {n : ℕ} :
    List.replicate n c.token <:+ tokenPath (accepted++[c]) ↔ n ≤ consecutive accepted c.token := by
  rw [tokenPath_append]
  exact replicate_suffix_iff

theorem fails_repetition_iff : Fails guards accepted c .repetition ↔
    guards.maxConsecutiveOccurrences < consecutive accepted c.token := by
  constructor
  · rintro ⟨n,hn,hrun⟩
    exact hn.trans_le (consecutive_iff.mp hrun)
  · intro h
    exact ⟨_,h,consecutive_iff.mpr le_rfl⟩

/-- Behind admissible steps, a token comes back after a different one where it has been left. -/
theorem fails_cycle_iff (h : Admissible guards accepted) : Fails guards accepted c .cycle ↔
    (tokenPath accepted).getLast? ≠ some c.token ∧ c.token ∈ tokenPath accepted := by
  unfold Fails
  simp only [tokenPath_append,return_concat_iff]
  constructor
  · rintro ⟨b,hb,hback | ⟨-,hsub⟩⟩
    · exact absurd (h.returns _ _ hback).symm hb
    · refine ⟨fun hlast => hb ?_,hsub.mem List.mem_cons_self⟩
      -- were the token the last one, it would have come back among the accepted steps
      rcases List.eq_nil_or_concat (tokenPath accepted) with hnil | ⟨init,last,hinit⟩
      · rw [hnil] at hlast
        cases hlast
      · rw [List.concat_eq_append] at hinit
        rw [hinit,List.getLast?_concat] at hlast
        obtain rfl := Option.some.inj hlast
        have hpair : List.Sublist ([c.token]++[b]) (init++[c.token]) := hinit ▸ hsub
        obtain ⟨front,back,hsplit,hfront,hback⟩ := List.sublist_append_iff.mp hpair
        rcases List.sublist_singleton.mp hback with rfl | rfl
        · rw [List.append_nil] at hsplit
          rw [← hsplit] at hfront
          have hthree : List.Sublist ([c.token,b]++[c.token]) (init++[c.token]) :=
            hfront.append (List.Sublist.refl [c.token])
          exact (h.returns c.token b (hinit ▸ hthree)).symm
        · exact (List.cons.inj (List.append_inj' hsplit rfl).2).1
  · rintro ⟨hlast,hmem⟩
    obtain ⟨b,hb,hsub⟩ := (left_behind_iff hlast).mp hmem
    exact ⟨b,hb,.inr ⟨trivial,hsub⟩⟩

/-- Admissible steps stay so with one more that no guard rejects, and only then. -/
theorem admissible_append (h : Admissible guards accepted) :
    Admissible guards (accepted++[c]) ↔ ∀ reason, ¬Fails guards accepted c reason := by
  constructor
  · intro hall reason hfails
    have hclears := hall.floors c (by simp)
    cases reason with
    | lowScore => exact hclears.score hfails
    | lowSupport => exact hclears.support hfails
    | negativeValence => exact hclears.valence hfails
    | scoreDrop =>
        obtain ⟨last,hlast,hdrop⟩ := hfails
        exact (List.isChain_append.mp hall.drops).2.2 last hlast c (by simp) hdrop
    | repetition =>
        obtain ⟨n,hn,hrun⟩ := hfails
        exact absurd (hall.runs c.token n hrun.isInfix) (Nat.not_le.mpr hn)
    | cycle =>
        obtain ⟨b,hb,hback⟩ := hfails
        exact hb (hall.returns _ _ hback).symm
    | none => exact hfails
    | deadEnd => exact hfails
    | maxTokens => exact hfails
  · intro hnone
    refine ⟨?_,?_,?_,?_⟩
    · intro d hd
      rcases List.mem_append.mp hd with hd | hd
      · exact h.floors d hd
      · rw [List.mem_singleton.mp hd]
        exact ⟨hnone .lowScore,hnone .lowSupport,hnone .negativeValence⟩
    · refine List.isChain_append.mpr ⟨h.drops,List.isChain_singleton c,?_⟩
      intro last hlast d hd hdrop
      obtain rfl : c = d := by simpa using hd
      exact hnone .scoreDrop ⟨last,hlast,hdrop⟩
    · intro token n hrun
      rw [tokenPath_append,List.infix_concat_iff] at hrun
      rcases hrun with hsuffix | hinfix
      · cases n with
        | zero => exact Nat.zero_le _
        | succ n =>
            have htoken : token = c.token := by
              rw [List.replicate_succ',List.suffix_concat_iff] at hsuffix
              rcases hsuffix with hnil | ⟨t,ht,-⟩
              · simp at hnil
              · exact (List.cons.inj (List.append_inj' ht rfl).2).1
            subst htoken
            refine Nat.not_lt.mp fun hlong => hnone .repetition ⟨n+1,hlong,?_⟩
            rw [tokenPath_append]
            exact hsuffix
      · exact h.runs token n hinfix
    · intro a b hback
      rw [tokenPath_append] at hback
      by_cases hreturn : List.Sublist [a,b,a] (tokenPath accepted)
      · exact h.returns a b hreturn
      · obtain ⟨rfl,-⟩ := (return_concat_iff.mp hback).resolve_left hreturn
        by_contra hne
        refine hnone .cycle ⟨b,fun heq => hne heq.symm,?_⟩
        rw [tokenPath_append]
        exact hback

theorem fails_scoreDrop_iff : Fails guards accepted c .scoreDrop ↔
    accepted ≠ [] ∧ guards.maxScoreDrop < previousScore accepted-c.score := by
  unfold Fails previousScore
  cases hlast : accepted.getLast? with
  | none => simp [List.getLast?_eq_none_iff.mp hlast]
  | some last =>
      have hne : accepted ≠ [] := fun hnil => by simp [hnil] at hlast
      simp [hne]

/-- Behind a different token a run begins anew. -/
theorem consecutive_eq_one (hlast : (tokenPath accepted).getLast? ≠ some c.token) :
    consecutive accepted c.token = 1 := by
  unfold consecutive
  rcases List.eq_nil_or_concat (tokenPath accepted) with hnil | ⟨init,last,hinit⟩
  · rw [hnil]
    rfl
  · rw [List.concat_eq_append] at hinit
    rw [hinit,List.getLast?_concat] at hlast
    have hne : last ≠ c.token := fun heq => hlast (congrArg some heq)
    rw [hinit,List.reverse_concat,List.takeWhile_cons_of_neg (by simpa using hne),List.length_nil]

/-- The code asks the guards in their order. -/
theorem guardReject_some (hone : 1 ≤ guards.maxConsecutiveOccurrences)
    (h : Admissible guards accepted) (hr : guardReject guards accepted c = some r) :
    FirstFailure guards accepted c r.reason := by
  unfold guardReject at hr
  by_cases hscore : c.score < guards.minCandidateScore
  · rw [if_pos hscore] at hr
    obtain rfl := Option.some.inj hr
    exact ⟨hscore,[],_,rfl,by simp⟩
  rw [if_neg hscore] at hr
  by_cases hsupport : c.supportScore < guards.minSupportScore
  · rw [if_pos hsupport] at hr
    obtain rfl := Option.some.inj hr
    exact ⟨hsupport,[.lowScore],_,rfl,List.forall_mem_singleton.mpr hscore⟩
  rw [if_neg hsupport] at hr
  by_cases hvalence :
      guards.valenceGuard = true ∧ 0 < c.valenceEvents ∧ c.valence < guards.minValence
  · rw [if_pos hvalence] at hr
    obtain rfl := Option.some.inj hr
    exact ⟨hvalence,[.lowScore,.lowSupport],_,rfl,
      List.forall_mem_cons.mpr ⟨hscore,List.forall_mem_singleton.mpr hsupport⟩⟩
  rw [if_neg hvalence] at hr
  have hfloors : ∀ reason ∈ [PlanStop.lowScore,.lowSupport,.negativeValence],
      ¬Fails guards accepted c reason :=
    List.forall_mem_cons.mpr ⟨hscore,List.forall_mem_cons.mpr ⟨hsupport,
      List.forall_mem_singleton.mpr hvalence⟩⟩
  by_cases hdrop : accepted ≠ [] ∧ guards.maxScoreDrop < previousScore accepted-c.score
  · rw [if_pos hdrop] at hr
    obtain rfl := Option.some.inj hr
    exact ⟨fails_scoreDrop_iff.mpr hdrop,[.lowScore,.lowSupport,.negativeValence],_,rfl,hfloors⟩
  rw [if_neg hdrop] at hr
  have hdrops : ∀ reason ∈ [PlanStop.lowScore,.lowSupport,.negativeValence,.scoreDrop],
      ¬Fails guards accepted c reason := by
    intro reason hreason
    rcases List.mem_append.mp (show reason ∈ [PlanStop.lowScore,.lowSupport,.negativeValence]++
      [.scoreDrop] from hreason) with hfloor | hlast
    · exact hfloors reason hfloor
    · rw [List.mem_singleton.mp hlast,fails_scoreDrop_iff]
      exact hdrop
  by_cases hlast : (tokenPath accepted).getLast? = some c.token
  · rw [if_pos hlast] at hr
    split at hr
    · next hlong =>
        obtain rfl := Option.some.inj hr
        exact ⟨fails_repetition_iff.mpr hlong,[.lowScore,.lowSupport,.negativeValence,.scoreDrop],
          _,rfl,hdrops⟩
    · cases hr
  · rw [if_neg hlast] at hr
    obtain ⟨j,hj,rfl⟩ := Option.map_eq_some_iff.mp hr
    have hmem : c.token ∈ tokenPath accepted := by
      by_contra hnot
      have hnone : (tokenPath accepted).findIdx? (fun t => t = c.token) = none := by
        rw [List.findIdx?_eq_none_iff]
        intro t ht
        exact decide_eq_false fun heq => hnot (heq ▸ ht)
      rw [hnone] at hj
      cases hj
    refine ⟨(fails_cycle_iff h).mpr ⟨hlast,hmem⟩,
      [.lowScore,.lowSupport,.negativeValence,.scoreDrop,.repetition],_,rfl,?_⟩
    intro reason hreason
    rcases List.mem_append.mp (show reason ∈ [PlanStop.lowScore,.lowSupport,.negativeValence,
      .scoreDrop]++[.repetition] from hreason) with hbefore | hrepetition
    · exact hdrops reason hbefore
    · rw [List.mem_singleton.mp hrepetition,fails_repetition_iff,consecutive_eq_one hlast]
      omega

/-- A step that the code accepts fails no guard. -/
theorem guardReject_none (hone : 1 ≤ guards.maxConsecutiveOccurrences)
    (h : Admissible guards accepted) (hr : guardReject guards accepted c = none) :
    Admissible guards (accepted++[c]) := by
  refine (admissible_append h).mpr ?_
  unfold guardReject at hr
  by_cases hscore : c.score < guards.minCandidateScore
  · rw [if_pos hscore] at hr
    cases hr
  rw [if_neg hscore] at hr
  by_cases hsupport : c.supportScore < guards.minSupportScore
  · rw [if_pos hsupport] at hr
    cases hr
  rw [if_neg hsupport] at hr
  by_cases hvalence :
      guards.valenceGuard = true ∧ 0 < c.valenceEvents ∧ c.valence < guards.minValence
  · rw [if_pos hvalence] at hr
    cases hr
  rw [if_neg hvalence] at hr
  by_cases hdrop : accepted ≠ [] ∧ guards.maxScoreDrop < previousScore accepted-c.score
  · rw [if_pos hdrop] at hr
    cases hr
  rw [if_neg hdrop] at hr
  have htokens : ¬Fails guards accepted c .repetition ∧ ¬Fails guards accepted c .cycle := by
    rw [fails_repetition_iff,fails_cycle_iff h]
    by_cases hlast : (tokenPath accepted).getLast? = some c.token
    · rw [if_pos hlast] at hr
      split at hr
      · cases hr
      · next hshort => exact ⟨hshort,fun hcycle => hcycle.1 hlast⟩
    · rw [if_neg hlast,Option.map_eq_none_iff,List.findIdx?_eq_none_iff] at hr
      rw [consecutive_eq_one hlast]
      refine ⟨by omega,fun hcycle => ?_⟩
      exact absurd rfl (of_decide_eq_false (hr c.token hcycle.2))
  intro reason
  cases reason with
  | lowScore => exact hscore
  | lowSupport => exact hsupport
  | negativeValence => exact hvalence
  | scoreDrop => exact fun hfails => hdrop (fails_scoreDrop_iff.mp hfails)
  | repetition => exact htokens.1
  | cycle => exact htokens.2
  | none => exact id
  | deadEnd => exact id
  | maxTokens => exact id

end Step

/-! ## The cut -/

/-- The settings of the guards, which every evidence repeats. -/
structure Echoes (config : DecisionConfig) (e : StopEvidence) : Prop where
  minCandidateScore : e.minCandidateScore = config.guards.minCandidateScore
  minSupportScore : e.minSupportScore = config.guards.minSupportScore
  maxScoreDrop : e.maxScoreDrop = config.guards.maxScoreDrop
  maxConsecutiveOccurrences :
    e.maxConsecutiveOccurrences = config.guards.maxConsecutiveOccurrences
  valenceGuard : e.valenceGuard = config.guards.valenceGuard
  minValence : e.minValence = config.guards.minValence
  maxTokens : e.maxTokens = config.planner.maxTokens

/-- The evidence names a rejected step and the guard that rejected it. -/
structure NamesStep (q : ActionPlan) (c : ActionCandidate) (e : StopEvidence) : Prop where
  reason : e.reason = q.stopReason
  stepIndex : e.stepIndex = q.steps.length
  acceptedSteps : e.acceptedSteps = q.steps.length
  token : e.token = c.token
  candidateScore : e.candidateScore = c.score
  supportScore : e.supportScore = c.supportScore
  candidateValence : e.candidateValence = c.valence
  previousScore : e.previousScore = previousScore q.steps

/-- The evidence names the end of the raw plan. -/
structure NamesEnd (q : ActionPlan) (e : StopEvidence) : Prop where
  reason : e.reason = q.stopReason
  stepIndex : e.stepIndex = q.steps.length
  acceptedSteps : e.acceptedSteps = q.steps.length
  token : ∀ last, q.steps.getLast? = some last → e.token = last.token

/-- What is left of a raw plan under the guards. -/
structure Cut (config : DecisionConfig) (raw q : ActionPlan) (e : StopEvidence) : Prop where
  front : q.steps <+: raw.steps
  admissible : Admissible config.guards q.steps
  longest : ∀ steps, steps <+: raw.steps → Admissible config.guards steps →
    steps.length ≤ q.steps.length
  mean : q.steps ≠ [] → q.score = meanScore q.steps
  stop : (q.steps = raw.steps ∧ q.stopReason = raw.stopReason ∧ NamesEnd q e) ∨
    ∃ c rest, raw.steps = q.steps++c::rest ∧
      FirstFailure config.guards q.steps c q.stopReason ∧ NamesStep q c e
  echoes : Echoes config e

section Cut
variable {config : DecisionConfig} {raw q q' : ActionPlan} {e e' : StopEvidence}
  {accepted rest : List ActionCandidate} {c : ActionCandidate} {r : Rejection} {score : Float32}

theorem cutBefore_cut (h : Admissible config.guards accepted)
    (hraw : raw.steps = accepted++c::rest)
    (hscore : accepted ≠ [] → score = meanScore accepted)
    (hfailure : FirstFailure config.guards accepted c r.reason) :
    Cut config raw (cutBefore config accepted.length accepted score c r).plan
      (cutBefore config accepted.length accepted score c r).evidence where
  front := ⟨c::rest,hraw.symm⟩
  admissible := h
  longest := by
    intro steps hsteps hadmissible
    refine Nat.not_lt.mp fun hlong => ?_
    have hnext : accepted++[c] <+: raw.steps := ⟨rest,by simp [hraw]⟩
    have hlength : (accepted++[c]).length ≤ steps.length := by
      rw [List.length_append,List.length_singleton]
      exact hlong
    have hfront := List.prefix_of_prefix_length_le hnext hsteps hlength
    exact (admissible_append h).mp (hadmissible.of_prefix hfront) _ hfailure.1
  mean := hscore
  stop := .inr ⟨c,rest,hraw,hfailure,⟨rfl,rfl,rfl,rfl,rfl,rfl,rfl,rfl⟩⟩
  echoes := ⟨rfl,rfl,rfl,rfl,rfl,rfl,rfl⟩

theorem evidenceAtEnd_cut (h : Admissible config.guards raw.steps)
    (hscore : raw.steps ≠ [] → score = meanScore raw.steps) :
    Cut config raw ⟨raw.steps,score,raw.stopReason⟩
      (evidenceAtEnd config raw.stopReason raw.steps) where
  front := List.prefix_rfl
  admissible := h
  longest := fun steps hsteps _ => hsteps.length_le
  mean := hscore
  stop := by
    refine .inl ⟨rfl,rfl,?_⟩
    unfold evidenceAtEnd
    cases hlast : raw.steps.getLast? with
    | none => exact ⟨rfl,rfl,rfl,fun last hsome => by rw [hlast] at hsome; cases hsome⟩
    | some last =>
        refine ⟨rfl,rfl,rfl,fun last' hsome => ?_⟩
        rw [hlast] at hsome
        exact congrArg (·.token) (Option.some.inj hsome)
  echoes := by
    unfold evidenceAtEnd
    cases raw.steps.getLast? <;> exact ⟨rfl,rfl,rfl,rfl,rfl,rfl,rfl⟩

/-- A step that no guard rejects is accepted, and the score is the mean again. -/
theorem guardLoop_accept {reason : PlanStop} (h : guardReject config.guards accepted c = none) :
    guardLoop config reason accepted.length accepted (scoreSum accepted) score (c::rest) =
      guardLoop config reason (accepted++[c]).length (accepted++[c]) (scoreSum (accepted++[c]))
        (meanScore (accepted++[c])) rest := by
  have hlength : (accepted++[c]).length = accepted.length+1 := by simp
  rw [guardLoop,h,meanScore,scoreSum_append,hlength]

/-- From admissible steps on, the loop cuts the raw plan. -/
theorem guardLoop_cut (hone : 1 ≤ config.guards.maxConsecutiveOccurrences)
    (h : Admissible config.guards accepted) (hraw : raw.steps = accepted++rest)
    (hscore : accepted ≠ [] → score = meanScore accepted) :
    Cut config raw
      (guardLoop config raw.stopReason accepted.length accepted (scoreSum accepted) score rest).plan
      (guardLoop config raw.stopReason accepted.length accepted (scoreSum accepted) score
        rest).evidence := by
  induction rest generalizing accepted score with
  | nil =>
      rw [List.append_nil] at hraw
      subst hraw
      exact evidenceAtEnd_cut h hscore
  | cons c rest ih =>
      cases hreject : guardReject config.guards accepted c with
      | some r =>
          rw [guardLoop,hreject]
          exact cutBefore_cut h hraw hscore (guardReject_some hone h hreject)
      | none =>
          have hraw' : raw.steps = (accepted++[c])++rest := by simp [hraw]
          rw [guardLoop_accept hreject]
          exact ih (guardReject_none hone h hreject) hraw' fun _ => rfl

/-- What the code leaves of a raw plan. -/
theorem guardRawPlan_cut (hone : 1 ≤ config.guards.maxConsecutiveOccurrences)
    (raw : ActionPlan) :
    Cut config raw (guardRawPlan config raw).plan (guardRawPlan config raw).evidence :=
  guardLoop_cut hone admissible_nil rfl fun h => absurd rfl h

theorem firstFailure_unique {guards : GuardConfig} {reason reason' : PlanStop}
    (h : FirstFailure guards accepted c reason) (h' : FirstFailure guards accepted c reason') :
    reason = reason' := by
  obtain ⟨hfails,before,after,horder,hbefore⟩ := h
  obtain ⟨hfails',before',after',horder',hbefore'⟩ := h'
  rw [horder] at horder'
  rcases List.append_eq_append_iff.mp horder' with ⟨between,rfl,hrest⟩ | ⟨between,rfl,hrest⟩
  · cases between with
    | nil => exact (List.cons.inj hrest).1
    | cons x between =>
        obtain rfl := (List.cons.inj hrest).1
        exact absurd hfails (hbefore' _ (by simp))
  · cases between with
    | nil => exact (List.cons.inj hrest).1.symm
    | cons x between =>
        obtain rfl := (List.cons.inj hrest).1
        exact absurd hfails' (hbefore _ (by simp))

/-- There is one longest admissible front. -/
theorem Cut.steps_unique (h : Cut config raw q e) (h' : Cut config raw q' e') :
    q.steps = q'.steps := by
  have hlength : q.steps.length = q'.steps.length :=
    Nat.le_antisymm (h'.longest _ h.front h.admissible) (h.longest _ h'.front h'.admissible)
  exact (List.prefix_of_prefix_length_le h.front h'.front hlength.le).eq_of_length hlength

/-- Where something is left of a raw plan, the plan that is left is determined. -/
theorem Cut.plan_unique (h : Cut config raw q e) (h' : Cut config raw q' e') (hne : q.steps ≠ []) :
    q = q' := by
  have hsteps := h.steps_unique h'
  have hscore : q.score = q'.score := by rw [h.mean hne,h'.mean (hsteps ▸ hne),hsteps]
  have hstop : q.stopReason = q'.stopReason := by
    rcases h.stop with ⟨hall,hreason,-⟩ | ⟨c,rest,hsplit,hfailure,-⟩
    · rcases h'.stop with ⟨-,hreason',-⟩ | ⟨c,rest,hsplit,-,-⟩
      · rw [hreason,hreason']
      · have hlength := congrArg List.length hsplit
        rw [← hsteps,← hall] at hlength
        simp at hlength
    · rcases h'.stop with ⟨hall,-,-⟩ | ⟨c',rest',hsplit',hfailure',-⟩
      · have hlength := congrArg List.length hsplit
        rw [hsteps,hall] at hlength
        simp at hlength
      · rw [hsplit,hsteps] at hsplit'
        obtain ⟨rfl,-⟩ := List.cons.inj (List.append_cancel_left hsplit')
        rw [← hsteps] at hfailure'
        exact firstFailure_unique hfailure hfailure'
  obtain ⟨steps,score,reason⟩ := q
  obtain ⟨steps',score',reason'⟩ := q'
  dsimp only at hsteps hscore hstop
  rw [hsteps,hscore,hstop]

/-- Something is left of a raw plan where its first step is admissible. -/
theorem Cut.empty_iff (h : Cut config raw q e) : q.steps = [] ↔
    ∀ c rest, raw.steps = c::rest → ¬Admissible config.guards [c] := by
  constructor
  · intro hnil c rest hraw hfirst
    have hlength := h.longest [c] ⟨rest,hraw.symm⟩ hfirst
    rw [hnil] at hlength
    exact absurd hlength (Nat.not_succ_le_zero 0)
  · intro hnone
    cases hsteps : q.steps with
    | nil => rfl
    | cons c rest =>
        obtain ⟨more,hraw⟩ := h.front
        rw [hsteps] at hraw
        have hadmissible := h.admissible
        rw [hsteps] at hadmissible
        exact absurd (hadmissible.of_prefix ⟨rest,rfl⟩) (hnone c (rest++more) hraw.symm)

end Cut

/-! ## The decision -/

/-- What a decision says about the raw plans. -/
structure Decided (config : DecisionConfig) (raw : List ActionPlan) (d : ActionDecision) :
    Prop where
  abstains : d.abstained = true ↔
    ∀ p ∈ raw, ∀ c rest, p.steps = c::rest → ¬Admissible config.guards [c]
  nonempty : d.abstained = false → d.plan.steps ≠ []
  cut : d.abstained = false → ∃ p ∈ raw, Cut config p d.plan d.evidence
  best : d.abstained = false → ∀ p ∈ raw, ∀ q e, Cut config p q e → q.steps ≠ [] →
    actionPlanCompare q d.plan ≠ .lt

section Decide
variable {U : Utf8proc} {g : Graph} {context : Text} {config : Option DecisionConfig}
  {decision : DecisionConfig} {raw : List ActionPlan} {d : ActionDecision} {q : GuardedPlan}

theorem GuardConfig.one_le {guards : GuardConfig} (h : guards.valid = true) :
    1 ≤ guards.maxConsecutiveOccurrences := by
  simp only [GuardConfig.valid,Bool.and_eq_true,decide_eq_true_eq] at h
  exact h.1.1.1.1.2

theorem mem_viablePlans : q ∈ viablePlans decision raw ↔
    ∃ p ∈ raw, guardRawPlan decision p = q ∧ q.plan.steps ≠ [] := by
  rw [viablePlans,List.mem_filter,List.mem_map,decide_eq_true_eq]
  constructor
  · rintro ⟨⟨p,hp,rfl⟩,hne⟩
    exact ⟨p,hp,rfl,hne⟩
  · rintro ⟨p,hp,rfl,hne⟩
    exact ⟨⟨p,hp,rfl⟩,hne⟩

theorem viablePlans_empty (hone : 1 ≤ decision.guards.maxConsecutiveOccurrences) :
    viablePlans decision raw = [] ↔
      ∀ p ∈ raw, ∀ c rest, p.steps = c::rest → ¬Admissible decision.guards [c] := by
  rw [List.eq_nil_iff_forall_not_mem]
  constructor
  · intro hnone p hp
    rw [← (guardRawPlan_cut hone p).empty_iff]
    by_contra hne
    exact hnone _ (mem_viablePlans.mpr ⟨p,hp,rfl,hne⟩)
  · intro hall q hq
    obtain ⟨p,hp,rfl,hne⟩ := mem_viablePlans.mp hq
    exact hne ((guardRawPlan_cut hone p).empty_iff.mpr (hall p hp))

theorem Chooses.decided (hone : 1 ≤ decision.guards.maxConsecutiveOccurrences)
    (h : Chooses decision raw d) : Decided decision raw d := by
  unfold Chooses at h
  split at h
  · next hnil =>
      subst h hnil
      exact ⟨⟨fun _ p hp => absurd hp List.not_mem_nil,fun _ => rfl⟩,
        fun hne => Bool.noConfusion hne,fun hne => Bool.noConfusion hne,
        fun hne => Bool.noConfusion hne⟩
  · split at h
    · next hnone =>
        subst h
        exact ⟨⟨fun _ => (viablePlans_empty hone).mp hnone,fun _ => rfl⟩,
          fun hne => Bool.noConfusion hne,fun hne => Bool.noConfusion hne,
          fun hne => Bool.noConfusion hne⟩
    · next hsome =>
        obtain ⟨best,rest,hranked,rfl⟩ := h
        obtain ⟨p,hp,hbest,hne⟩ := mem_viablePlans.mp (hranked.mem_iff.mp List.mem_cons_self)
        subst hbest
        refine ⟨⟨fun habstained => Bool.noConfusion habstained,
          fun hall => absurd ((viablePlans_empty hone).mpr hall) hsome⟩,fun _ => hne,
          fun _ => ⟨p,hp,guardRawPlan_cut hone p⟩,?_⟩
        intro _ p' hp' q e hcut hq
        -- what is left of the other raw plan is what the code has ranked
        obtain rfl := hcut.plan_unique (guardRawPlan_cut hone p') hq
        have hviable : guardRawPlan decision p' ∈ viablePlans decision raw :=
          mem_viablePlans.mpr ⟨p',hp',rfl,hq⟩
        rcases hranked.head_best hviable with heq | hle
        · rw [heq]
          exact fun hlt => by rw [actionPlanCompare_self] at hlt; cases hlt
        · exact actionPlanCompare_asymm hle

/-- A decision that is returned for a context obeys its contract. -/
theorem decide_contract (hcontext : context.bytes ≠ [])
    (hrun : Decides U g context config (.ok,d)) :
    ∃ raw, Plans U g context (some (config.getD .default).planner)
        (config.getD .default).planner.beamWidth (.ok,raw) ∧
      Decided (config.getD .default) raw d := by
  unfold Decides at hrun
  dsimp only at hrun
  split at hrun
  · cases hrun
  · next hvalid =>
      simp only [not_or,Bool.not_eq_false] at hvalid
      obtain ⟨status,raw,hplans,⟨hfailed,hsame⟩ | ⟨rfl,-,hchooses⟩⟩ := hrun
      · exact absurd (Prod.mk.inj hsame).1.symm hfailed
      · exact ⟨raw,hplans,hchooses.decided (GuardConfig.one_le hvalid.2)⟩

end Decide

namespace Crossroads

def letter (b : UInt8) : Token := Wire.CText.truncate (Wire.CString.ofRaw [b])

def c : Token := letter 99
def x : Token := letter 120
def y : Token := letter 121
def z : Token := letter 122

def road (source target : ℕ) : Edge := ⟨source,target,1,0,1⟩

/-- A road from `c` over `x` and `y` to `z`, from where it goes back to `x` or to `y`. All that
the network sees of the nodes is the same. -/
def graph : Graph :=
  {Graph.fresh .default Sample.shallow 1
    ⟨⟨layoutLayers 2 0 0 [1,1],3,2⟩,[0.5,0.25,1],[0.5,2],[1,1,1],[1,1]⟩ with
    nodes := [c,x,y,z].map fun t => ⟨t,1,0.5,[0.5],[1]⟩
    edges := [road 0 1,road 1 2,road 2 3,road 3 1,road 3 2]}

/-- Every candidate is this one but for its token. -/
def step (t : Token) : ActionCandidate :=
  graph.candidateAt ⟨t,1,0.5,[0.5],[1]⟩ ⟨0+graph.association (road 0 1),1,1⟩

def guards : GuardConfig := ⟨0,0,1,1,false,0⟩

def config : DecisionConfig := ⟨⟨4,2⟩,guards⟩

/-- The search's plan along some tokens. -/
def along (tokens : List Token) : PlanWork := tokens.foldl (fun w t => w.extend (step t)) .start

def raw : List ActionPlan :=
  [((along [x,y,z,x]).stop .maxTokens).plan,((along [x,y,z,y]).stop .maxTokens).plan]

/-- Each letter names its own node, and the network sees the same of every pair of them. -/
theorem nodes_seen : (∀ s < 4, ∀ t < 4,
    pairInput graph.nodes graph.neuralArchitecture.embeddingDim s t =
      pairInput graph.nodes graph.neuralArchitecture.embeddingDim 0 1) ∧
    queryNodes .plain graph c.text = [0] ∧ queryNodes .plain graph x.text = [1] ∧
    queryNodes .plain graph y.text = [2] ∧ queryNodes .plain graph z.text = [3] := by
  decide +kernel

theorem association_road {s t : ℕ} (hs : s < 4) (ht : t < 4) :
    graph.association (road s t) = graph.association (road 0 1) := by
  unfold Graph.association Graph.networkScore
  simp only [road,nodes_seen.1 s hs t ht]

theorem candidates_c : graph.contextCandidates .plain c.text = [step x] := by
  rw [Graph.contextCandidates,nodes_seen.2.1]
  rfl

theorem candidates_x : graph.contextCandidates .plain x.text = [step y] := by
  have hfrom : graph.candidatesFrom [1] = [graph.candidateAt ⟨y,1,0.5,[0.5],[1]⟩
    ⟨0+graph.association (road 1 2),1,1⟩] := rfl
  rw [Graph.contextCandidates,nodes_seen.2.2.1,hfrom,association_road (by omega) (by omega)]
  rfl

theorem candidates_y : graph.contextCandidates .plain y.text = [step z] := by
  have hfrom : graph.candidatesFrom [2] = [graph.candidateAt ⟨z,1,0.5,[0.5],[1]⟩
    ⟨0+graph.association (road 2 3),1,1⟩] := rfl
  rw [Graph.contextCandidates,nodes_seen.2.2.2.1,hfrom,association_road (by omega) (by omega)]
  rfl

theorem candidates_z : graph.contextCandidates .plain z.text = [step x,step y] := by
  have hfrom : graph.candidatesFrom [3] = [graph.candidateAt ⟨x,1,0.5,[0.5],[1]⟩
    ⟨0+graph.association (road 3 1),1,1⟩,graph.candidateAt ⟨y,1,0.5,[0.5],[1]⟩
    ⟨0+graph.association (road 3 2),1,1⟩] := rfl
  rw [Graph.contextCandidates,nodes_seen.2.2.2.2,hfrom,association_road (by omega) (by omega),
    association_road (by omega) (by omega)]
  rfl

theorem candidates_of {context : Text} {l r : List ActionCandidate}
    (h : graph.contextCandidates .plain context = l) (hranked : Ranked actionCandidateCompare l r) :
    graph.Candidates .plain context 2 (r.take 2) := by
  unfold Graph.Candidates
  rw [if_neg (by decide),h]
  exact ⟨r,hranked,rfl⟩

/-- Equal but for their tokens, candidates are ranked by them. -/
theorem candidate_order : actionCandidateCompare (step x) (step y) ≠ .gt := by
  have hcompare : actionCandidateCompare (step x) (step y) = Wire.strcmp x.bytes y.bytes := by
    unfold actionCandidateCompare
    rw [show (step y).score = (step x).score from rfl,
      show (step y).associationScore = (step x).associationScore from rfl,
      show (step y).familiarityScore = (step x).familiarityScore from rfl,
      show (step y).supportingObservations = (step x).supportingObservations from rfl,
      higherFirst_self (Floats.lt_irrefl _),higherFirst_self (Floats.lt_irrefl _),
      higherFirst_self (Floats.lt_irrefl _),higherFirst_self (UInt64.lt_irrefl _)]
    rfl
  rw [hcompare]
  decide

theorem plan_order (reason : PlanStop) :
    planWorkCompare ((along [x,y,z,x]).stop reason) ((along [x,y,z,y]).stop reason) ≠ .gt := by
  have hcompare : planWorkCompare ((along [x,y,z,x]).stop reason)
      ((along [x,y,z,y]).stop reason) =
      ((stepsCompare [step x,step y,step z,step x] [step x,step y,step z,step y]).then
        (compare reason.code reason.code)) := by
    unfold planWorkCompare actionPlanCompare
    rw [show ((along [x,y,z,y]).stop reason).plan.score =
        ((along [x,y,z,x]).stop reason).plan.score from rfl,
      higherFirst_self (Floats.lt_irrefl _)]
    rfl
  have hsteps : stepsCompare [step x,step y,step z,step x] [step x,step y,step z,step y] = .lt := by
    decide
  rw [hcompare,hsteps]
  exact fun heq => by cases heq

/-- Where there is one candidate, the search goes one step along it. -/
theorem advance {depth : ℕ} {tokens : List Token} {t : Token} (hdepth : depth < 4)
    (hc : graph.contextCandidates .plain (stepContext c.text (along tokens).plan.steps) = [step t]) :
    Relation.ReflTransGen (BeamStep .plain graph c.text config.planner)
      ⟨depth,[along tokens],[],[]⟩ ⟨depth+1,[along (tokens++[t])],[],[]⟩ := by
  have hnext : along (tokens++[t]) = (along tokens).extend (step t) := List.foldl_append
  rw [hnext]
  refine .tail (.single (.propose hdepth (candidates_of hc (Ranked.singleton _))
    (List.cons_ne_nil _ _) ?_)) (.prune hdepth (List.cons_ne_nil _ _) (Ranked.singleton _))
  exact (by decide : 1 ≤ 4)

theorem search : Relation.ReflTransGen (BeamStep .plain graph c.text config.planner) .start
    ⟨4,[along [x,y,z,x],along [x,y,z,y]],[],[]⟩ := by
  have hone := @advance 0 [] _ (show 0 < 4 by decide) candidates_c
  have htwo := @advance 1 [x] _ (show 1 < 4 by decide) candidates_x
  have hthree := @advance 2 [x,y] _ (show 2 < 4 by decide) candidates_y
  have hcandidates : graph.Candidates .plain (stepContext c.text (along [x,y,z]).plan.steps)
      config.planner.beamWidth [step x,step y] :=
    candidates_of candidates_z (Ranked.pair candidate_order)
  have hpropose : BeamStep .plain graph c.text config.planner ⟨3,[along [x,y,z]],[],[]⟩
      ⟨3,[],[along [x,y,z,x],along [x,y,z,y]],[]⟩ :=
    .propose (by decide) hcandidates (List.cons_ne_nil _ _) (by decide : 2 ≤ 4)
  have hprune : BeamStep .plain graph c.text config.planner
      ⟨3,[],[along [x,y,z,x],along [x,y,z,y]],[]⟩ ⟨4,[along [x,y,z,x],along [x,y,z,y]],[],[]⟩ :=
    .prune (by decide) (List.cons_ne_nil _ _) (Ranked.pair (plan_order .none))
  exact ((hone.trans htwo).trans hthree).tail hpropose |>.tail hprune

theorem plans : Plans .plain graph c.text (some config.planner) 2 (.ok,raw) := by
  unfold Plans
  dsimp only [Option.getD_some]
  rw [if_neg (by decide),if_neg (by decide)]
  exact ⟨_,search,.inr ⟨⟨rfl,.inl rfl⟩,_,Ranked.pair (plan_order .maxTokens),rfl⟩⟩

/-! The guards see the tokens only. -/

theorem support_nonnegative (t : Token) : ¬(step t).supportScore < 0 := by
  have hsupport : ¬narrow ((1 : UInt64).toFloat/((1 : UInt64).toFloat+1)) < 0 := by decide +kernel
  exact hsupport

theorem step_nonnegative (t : Token) : ¬(step t).score < 0 := by
  have hends : ¬(0 : Float32) < 0 ∧ ¬(1 : Float32) < 0 := by decide +kernel
  have hclamp : ∀ v, ¬actionClamp01 v < 0 := by
    intro v
    unfold actionClamp01
    split
    · exact hends.1
    · next hv =>
        split
        · exact hends.2
        · exact hv
  have hthree : (3 : Float32).toModel.unpack = .finite .positive 12582912 (-22) (by decide) := rfl
  exact Floats.div_nonnegative
    (Floats.add_nonnegative (Floats.add_nonnegative (hclamp _) (hclamp _))
      (support_nonnegative t)) hthree

theorem guard_step (tokens : List Token) (t : Token) :
    guardReject guards (tokens.map step) (step t) =
      if tokens.getLast? = some t then
        if 1 < (tokens.reverse.takeWhile fun s => s = t).length+1 then
          some ⟨.repetition,(tokens.reverse.takeWhile fun s => s = t).length+1,noIndex⟩
        else none
      else (tokens.findIdx? fun s => s = t).map fun j => ⟨.cycle,0,j⟩ := by
  have hpath : tokenPath (tokens.map step) = tokens := by
    rw [tokenPath,List.map_map]
    exact List.map_id tokens
  have hdrop : ¬(tokens.map step ≠ [] ∧
      guards.maxScoreDrop < previousScore (tokens.map step)-(step t).score) := by
    rintro ⟨hne,hdrop⟩
    unfold previousScore at hdrop
    rw [List.getLast?_map] at hdrop
    cases hlast : tokens.getLast? with
    | none => exact hne (by rw [List.getLast?_eq_none_iff.mp hlast]; rfl)
    | some last =>
        rw [hlast] at hdrop
        exact Floats.not_one_lt_sub_self _ hdrop
  have hscore : ¬(step t).score < guards.minCandidateScore := step_nonnegative t
  have hsupport : ¬(step t).supportScore < guards.minSupportScore := support_nonnegative t
  have hvalence : ¬(guards.valenceGuard = true ∧ 0 < (step t).valenceEvents ∧
      (step t).valence < guards.minValence) := fun h => Bool.noConfusion h.1
  unfold guardReject consecutive
  rw [if_neg hscore,if_neg hsupport,if_neg hvalence,if_neg hdrop,hpath]
  rfl

/-- Behind `z`, each way back is a cycle. -/
theorem guarded {t : Token} {j : ℕ}
    (ht : guardReject guards [step x,step y,step z] (step t) = some ⟨.cycle,0,j⟩) :
    guardRawPlan config ((along [x,y,z,t]).stop .maxTokens).plan =
      cutBefore config 3 [step x,step y,step z] (along [x,y,z]).plan.score (step t) ⟨.cycle,0,j⟩ := by
  have hx : guardReject config.guards [] (step x) = none := (guard_step [] x).trans (by decide)
  have hy : guardReject config.guards ([]++[step x]) (step y) = none :=
    (guard_step [x] y).trans (by decide)
  have hz : guardReject config.guards ([]++[step x]++[step y]) (step z) = none :=
    (guard_step [x,y] z).trans (by decide)
  have ht : guardReject config.guards ([]++[step x]++[step y]++[step z]) (step t) =
    some ⟨.cycle,0,j⟩ := ht
  have hscore : (along [x,y,z]).plan.score = meanScore ([]++[step x]++[step y]++[step z]) :=
    extend_mean (extend_sum (extend_sum rfl))
  have hloop : guardRawPlan config ((along [x,y,z,t]).stop .maxTokens).plan =
    guardLoop config .maxTokens ([] : List ActionCandidate).length [] (scoreSum []) 0
      [step x,step y,step z,step t] := rfl
  rw [hloop,guardLoop_accept hx,guardLoop_accept hy,guardLoop_accept hz,guardLoop,ht,hscore]
  rfl

def best : GuardedPlan :=
  cutBefore config 3 [step x,step y,step z] (along [x,y,z]).plan.score (step x) ⟨.cycle,0,0⟩

def other : GuardedPlan :=
  cutBefore config 3 [step x,step y,step z] (along [x,y,z]).plan.score (step y) ⟨.cycle,0,1⟩

/-- What is decided where a guarded plan comes first. -/
def decision (first : GuardedPlan) : ActionDecision := ⟨false,.none,first.plan,first.evidence,2,2⟩

theorem viable : viablePlans config raw = [best,other] := by
  have hx := @guarded x 0 ((guard_step [x,y,z] x).trans (by decide))
  have hy := @guarded y 1 ((guard_step [x,y,z] y).trans (by decide))
  rw [viablePlans,raw,List.map_cons,List.map_cons,List.map_nil,hx,hy]
  rfl

theorem decides {first second : GuardedPlan}
    (hranked : Ranked guardedPlanCompare [best,other] [first,second]) :
    Decides .plain graph c.text (some config) (.ok,decision first) := by
  have hvalid : ¬(config.planner.valid = false ∨ config.guards.valid = false) := by decide +kernel
  unfold Decides
  dsimp only [Option.getD_some]
  rw [if_neg hvalid,if_neg (by decide)]
  refine ⟨.ok,raw,plans,.inr ⟨rfl,rfl,?_⟩⟩
  unfold Chooses
  rw [viable,if_neg (by decide),if_neg (by decide)]
  exact ⟨first,[second],hranked,rfl⟩

theorem best_first : Ranked guardedPlanCompare [best,other] [best,other] :=
  Ranked.pair fun h => by
    rw [guardedPlanCompare,show other.plan = best.plan from rfl,actionPlanCompare_self] at h
    cases h

theorem other_first : Ranked guardedPlanCompare [best,other] [other,best] :=
  Ranked.pair_swapped fun h => by
    rw [guardedPlanCompare,show other.plan = best.plan from rfl,actionPlanCompare_self] at h
    cases h

/-- The way to `z` is the decision. -/
theorem decide_contract_crossroads : ∃ raw, Plans .plain graph c.text (some config.planner) 2 (.ok,raw) ∧
    Decided config raw (decision best) :=
  decide_contract (by decide) (decides best_first)

end Crossroads

end Atperson.Core
