import Atperson.Core.Decision

/-!
# Ties

Candidates and plans that tie are equal, so that no choice of a sort routine shows in them.
Guarded plans may be equal and still carry different evidence: two raw plans that are cut to
the same front by the same guard need not go on with the same step.
-/
namespace Atperson.Core
open Ledger (Status)
open Relation (ReflTransGen)
open Runs (Ranked)

/-- Raw plans that one guard cuts to the best front there is go on with the same token. -/
def EvidenceSettled (U : Utf8proc) (g : Graph) (context : Text) (config : DecisionConfig) : Prop :=
  config.guards.valid = true → context.bytes ≠ [] →
  ∀ raw, Plans U g context (some config.planner) config.planner.beamWidth (.ok,raw) →
  ∀ p ∈ raw, ∀ p' ∈ raw, ∀ steps c c' rest rest' reason,
    p.steps = steps++c::rest → p'.steps = steps++c'::rest' → steps ≠ [] →
    Admissible config.guards steps → FirstFailure config.guards steps c reason →
    FirstFailure config.guards steps c' reason →
    (∀ p'' ∈ raw, ∀ q e, Cut config p'' q e → q.steps ≠ [] →
      actionPlanCompare q ⟨steps,meanScore steps,reason⟩ ≠ .lt) →
    c.token = c'.token

/-- Planning does not depend on the sort routine, and keeps to its arrays. -/
structure SortFree (U : Utf8proc) (g : Graph) (context : Text) (capacity : ℕ)
    (planner : Option PlanConfig) (config : Option DecisionConfig) : Prop where
  candidates : ∀ out out', g.Candidates U context capacity out →
    g.Candidates U context capacity out' → out = out'
  plans : ∀ r r', Plans U g context planner capacity r → Plans U g context planner capacity r' →
    r = r'
  decides : ∀ r r', Decides U g context config r → Decides U g context config r' → r = r'
  bounds : (planner.getD .default).valid = true → g.nodes ≠ [] → g.edges ≠ [] →
    ∀ s, ReflTransGen (BeamStep U g context (planner.getD .default)) .start s →
      s.proposals.length ≤ (planner.getD .default).proposalCapacity ∧
      s.finish.length ≤ (planner.getD .default).completedCapacity ∧
      ¬BeamOverflow U g context (planner.getD .default) s
  distinct : ∀ status out, Plans U g context planner capacity (status,out) →
    (out.map fun p => tokenPath p.steps).Nodup
  stops : ∀ status out, Plans U g context planner capacity (status,out) → ∀ p ∈ out,
    (p.stopReason = .deadEnd ↔ g.contextCandidates U (stepContext context p.steps) = [] ∧
      p.steps.length < (planner.getD .default).maxTokens) ∧
    (p.stopReason = .maxTokens ↔ p.steps.length = (planner.getD .default).maxTokens)

section Search
variable {U : Utf8proc} {g : Graph} {context : Text} {planner : PlanConfig} {s : BeamState}

/-- The completed plans fit in their array, the last ones included. -/
theorem Searching.finish_le (h : Searching U g context planner s) :
    s.finish.length ≤ planner.completedCapacity := by
  have hcompleted := h.completed_le
  have hdepth : planner.beamWidth*(s.depth+1) ≤ planner.beamWidth*(planner.maxTokens+1) :=
    Nat.mul_le_mul_left _ (Nat.succ_le_succ h.depth_le)
  rw [BeamState.finish,List.length_append,List.length_map,PlanConfig.completedCapacity]
  omega

end Search

/-! ## Ties go both ways -/

theorem higherFirst_eq_symm {α : Type} [LT α] [DecidableLT α] {x y : α} {next next' : Ordering}
    (hnext : next = .eq → next' = .eq) (h : higherFirst x y next = .eq) :
    higherFirst y x next' = .eq := by
  unfold higherFirst at h ⊢
  by_cases hxy : x < y
  · rw [if_pos hxy] at h
    cases h
  · by_cases hyx : y < x
    · rw [if_neg hxy,if_pos hyx] at h
      cases h
    · rw [if_neg hxy,if_neg hyx] at h
      rw [if_neg hyx,if_neg hxy]
      exact hnext h

theorem actionPlanCompare_eq_symm {a b : ActionPlan} (h : actionPlanCompare a b = .eq) :
    actionPlanCompare b a = .eq := by
  refine higherFirst_eq_symm (fun h => higherFirst_eq_symm (fun h => ?_) h) h
  rw [Ordering.then_eq_eq] at h
  rw [stepsCompare_swap a.steps b.steps,h.1,Nat.compare_eq_eq.mp h.2,Nat.compare_eq_eq.mpr rfl]
  rfl

/-! ## What a guarded plan depends on -/

section Guarded
variable {config : DecisionConfig} {p p' : ActionPlan} {q : ActionPlan} {e : StopEvidence}
  {accepted steps rest rest' : List ActionCandidate} {c : ActionCandidate} {reason : PlanStop}
  {score : Float32} {r : Rejection}

theorem guardReject_of_admissible (hone : 1 ≤ config.guards.maxConsecutiveOccurrences)
    (h : Admissible config.guards (accepted++[c])) :
    guardReject config.guards accepted c = none := by
  have hfront := h.of_prefix (List.prefix_append accepted [c])
  cases hreject : guardReject config.guards accepted c with
  | none => rfl
  | some r =>
      exact absurd (guardReject_some hone hfront hreject).1 ((admissible_append hfront).mp h _)

/-- The loop passes admissible steps. -/
theorem guardLoop_pass (hone : 1 ≤ config.guards.maxConsecutiveOccurrences)
    (h : Admissible config.guards (accepted++steps)) (hne : steps ≠ []) :
    guardLoop config reason accepted.length accepted (scoreSum accepted) score (steps++rest) =
      guardLoop config reason (accepted++steps).length (accepted++steps)
        (scoreSum (accepted++steps)) (meanScore (accepted++steps)) rest := by
  induction steps generalizing accepted score with
  | nil => exact absurd rfl hne
  | cons c steps ih =>
      have hassoc : accepted++c::steps = (accepted++[c])++steps := by simp
      rw [hassoc] at h
      rw [List.cons_append,guardLoop_accept
        (guardReject_of_admissible hone (h.of_prefix (List.prefix_append _ _))),hassoc]
      rcases steps with _ | ⟨d,steps⟩
      · simp
      · exact ih h (List.cons_ne_nil _ _)

/-- A raw plan is read up to the first step that is rejected, and no further. -/
theorem guardRawPlan_reject (hone : 1 ≤ config.guards.maxConsecutiveOccurrences)
    (hsteps : p.steps = steps++c::rest) (hne : steps ≠ [])
    (h : Admissible config.guards steps) (hreject : guardReject config.guards steps c = some r) :
    guardRawPlan config p = cutBefore config steps.length steps (meanScore steps) c r := by
  have hpass := @guardLoop_pass config [] steps (c::rest) p.stopReason 0 hone h hne
  rw [List.nil_append] at hpass
  have hloop : guardRawPlan config p =
      guardLoop config p.stopReason ([] : List ActionCandidate).length [] (scoreSum []) 0
        (steps++c::rest) := by
    rw [guardRawPlan,hsteps]
    rfl
  rw [hloop,hpass,guardLoop,hreject]

/-- A step that fails a guard is rejected for the first one it fails. -/
theorem guardReject_of_failure (hone : 1 ≤ config.guards.maxConsecutiveOccurrences)
    (h : Admissible config.guards steps) (hfailure : FirstFailure config.guards steps c reason) :
    ∃ r, guardReject config.guards steps c = some r ∧ r.reason = reason := by
  cases hreject : guardReject config.guards steps c with
  | none =>
      have hadmissible := guardReject_none hone h hreject
      exact absurd hfailure.1 ((admissible_append h).mp hadmissible reason)
  | some r => exact ⟨r,rfl,firstFailure_unique (guardReject_some hone h hreject) hfailure⟩

/-- A guard's reason is not the planner's. -/
theorem FirstFailure.of_guard (h : FirstFailure config.guards steps c reason) :
    reason ∈ guardOrder := by
  obtain ⟨-,before,after,horder,-⟩ := h
  rw [horder]
  exact List.mem_append_right before List.mem_cons_self

end Guarded

/-! ## The decision -/

section Decide
variable {U : Utf8proc} {g : Graph} {context : Text} {config : Option DecisionConfig}
  {decision : DecisionConfig} {raw : List ActionPlan} {d d' : ActionDecision} {p p' : ActionPlan}
  {planner : PlanConfig}

/-- A guard's reason to stop is not the planner's. -/
theorem RawPlan.not_guarded (h : RawPlan U g context planner p) : p.stopReason ∉ guardOrder := by
  rcases h.stopped with hstop | hstop
  · rw [hstop]
    decide
  · rw [hstop]
    decide

/-- Raw plans with the same tokens that stop for the same reason are equal. -/
theorem RawPlan.eq_of_path (hg : (g.nodes.map (·.token)).Nodup)
    (h : RawPlan U g context planner p) (h' : RawPlan U g context planner p')
    (hpath : tokenPath p.steps = tokenPath p'.steps) (hstop : p.stopReason = p'.stopReason) :
    p = p' := by
  have hsteps := h.follows.eq_of_path hg h'.follows hpath
  have hscore : p.score = p'.score := by rw [h.mean,h'.mean,hsteps]
  obtain ⟨steps,score,reason⟩ := p
  obtain ⟨steps',score',reason'⟩ := p'
  dsimp only at hsteps hscore hstop
  rw [hsteps,hscore,hstop]

/-- Guarded plans that tie are equal but for their evidence. -/
theorem guarded_tie (hg : (g.nodes.map (·.token)).Nodup)
    (hone : 1 ≤ decision.guards.maxConsecutiveOccurrences)
    (h : RawPlan U g context planner p) (h' : RawPlan U g context planner p')
    (hne : (guardRawPlan decision p).plan.steps ≠ [])
    (hle : guardedPlanCompare (guardRawPlan decision p) (guardRawPlan decision p') ≠ .gt)
    (hge : guardedPlanCompare (guardRawPlan decision p') (guardRawPlan decision p) ≠ .gt) :
    (guardRawPlan decision p).plan = (guardRawPlan decision p').plan := by
  have hcut := guardRawPlan_cut hone p
  have hcut' := guardRawPlan_cut hone p'
  obtain ⟨hpath,hstop⟩ := actionPlanCompare_tie hle hge
  have hsteps := (h.follows.of_prefix hcut.front).eq_of_path hg (h'.follows.of_prefix hcut'.front)
    hpath
  have hscore := (hcut.mean hne).trans (hsteps ▸ (hcut'.mean (hsteps ▸ hne)).symm)
  generalize (guardRawPlan decision p).plan = q at hsteps hscore hstop
  generalize (guardRawPlan decision p').plan = q' at hsteps hscore hstop
  obtain ⟨steps,score,reason⟩ := q
  obtain ⟨steps',score',reason'⟩ := q'
  dsimp only at hsteps hscore hstop
  rw [hsteps,hscore,hstop]

/-- Where evidence is settled, the best guarded plans agree on it. -/
theorem guarded_eq (hg : (g.nodes.map (·.token)).Nodup)
    (hone : 1 ≤ decision.guards.maxConsecutiveOccurrences)
    (hraw : ∀ p ∈ raw, RawPlan U g context planner p)
    (hsettled : ∀ p ∈ raw, ∀ p' ∈ raw, ∀ steps c c' rest rest' reason,
      p.steps = steps++c::rest → p'.steps = steps++c'::rest' → steps ≠ [] →
      Admissible decision.guards steps → FirstFailure decision.guards steps c reason →
      FirstFailure decision.guards steps c' reason →
      (∀ p'' ∈ raw, ∀ q e, Cut decision p'' q e → q.steps ≠ [] →
        actionPlanCompare q ⟨steps,meanScore steps,reason⟩ ≠ .lt) → c.token = c'.token)
    (hp : p ∈ raw) (hp' : p' ∈ raw) (hne : (guardRawPlan decision p).plan.steps ≠ [])
    (hsame : (guardRawPlan decision p).plan = (guardRawPlan decision p').plan)
    (hbest : ∀ p'' ∈ raw, ∀ q e, Cut decision p'' q e → q.steps ≠ [] →
      actionPlanCompare q (guardRawPlan decision p).plan ≠ .lt) :
    guardRawPlan decision p = guardRawPlan decision p' := by
  have hcut := guardRawPlan_cut hone p
  have hcut' := guardRawPlan_cut hone p'
  rcases hcut.stop with ⟨hall,hstop,-⟩ | ⟨c,rest,hsplit,hfailure,-⟩
  · rcases hcut'.stop with ⟨hall',hstop',-⟩ | ⟨c',rest',-,hfailure',-⟩
    · -- neither is cut: the raw plans are one
      have hpath : tokenPath p.steps = tokenPath p'.steps := by rw [← hall,← hall',hsame]
      have hreason : p.stopReason = p'.stopReason := by rw [← hstop,← hstop',hsame]
      rw [(hraw p hp).eq_of_path hg (hraw p' hp') hpath hreason]
    · have hguard := hfailure'.of_guard
      rw [← hsame,hstop] at hguard
      exact absurd hguard (hraw p hp).not_guarded
  · rcases hcut'.stop with ⟨-,hstop',-⟩ | ⟨c',rest',hsplit',hfailure',-⟩
    · have hguard := hfailure.of_guard
      rw [hsame,hstop'] at hguard
      exact absurd hguard (hraw p' hp').not_guarded
    · rw [← hsame] at hsplit' hfailure'
      have hmean := hcut.mean hne
      have hadmissible := hcut.admissible
      generalize hq : (guardRawPlan decision p).plan = q at *
      obtain ⟨steps,score,reason⟩ := q
      dsimp only at *
      subst hmean
      have htoken : c.token = c'.token := hsettled p hp p' hp' steps c c' rest rest' reason hsplit
        hsplit' hne hadmissible hfailure hfailure' hbest
      have hc := (hraw p hp).follows steps c rest hsplit
      have hc' := (hraw p' hp').follows steps c' rest' hsplit'
      obtain rfl := Graph.contextCandidates_inj hg hc hc' htoken
      obtain ⟨r,hreject,-⟩ := guardReject_of_failure hone hadmissible hfailure
      rw [guardRawPlan_reject hone hsplit hne hadmissible hreject,
        guardRawPlan_reject hone hsplit' hne hadmissible hreject]

/-- Settled evidence leaves the decision no choice. -/
theorem Chooses.unique (hg : (g.nodes.map (·.token)).Nodup)
    (hone : 1 ≤ decision.guards.maxConsecutiveOccurrences)
    (hraw : ∀ p ∈ raw, RawPlan U g context planner p)
    (hsettled : ∀ p ∈ raw, ∀ p' ∈ raw, ∀ steps c c' rest rest' reason,
      p.steps = steps++c::rest → p'.steps = steps++c'::rest' → steps ≠ [] →
      Admissible decision.guards steps → FirstFailure decision.guards steps c reason →
      FirstFailure decision.guards steps c' reason →
      (∀ p'' ∈ raw, ∀ q e, Cut decision p'' q e → q.steps ≠ [] →
        actionPlanCompare q ⟨steps,meanScore steps,reason⟩ ≠ .lt) → c.token = c'.token)
    (h : Chooses decision raw d) (h' : Chooses decision raw d') : d = d' := by
  have hdecided := h.decided hone
  unfold Chooses at h h'
  split at h
  · next hnil =>
      rw [if_pos hnil] at h'
      rw [h,h']
  · next hnonempty =>
      rw [if_neg hnonempty] at h'
      split at h
      · next hnone =>
          rw [if_pos hnone] at h'
          rw [h,h']
      · next hsome =>
          rw [if_neg hsome] at h'
          obtain ⟨best,rest,hranked,rfl⟩ := h
          obtain ⟨best',rest',hranked',rfl⟩ := h'
          have hmem := hranked.mem_iff.mp List.mem_cons_self
          have hmem' := hranked'.mem_iff.mp List.mem_cons_self
          suffices hsame : best = best' by rw [hsame]
          rcases hranked.head_best hmem' with heq | hle
          · exact heq.symm
          rcases hranked'.head_best hmem with heq | hge
          · exact heq
          obtain ⟨p,hp,rfl,hne⟩ := mem_viablePlans.mp hmem
          obtain ⟨p',hp',rfl,-⟩ := mem_viablePlans.mp hmem'
          exact guarded_eq hg hone hraw hsettled hp hp' hne
            (guarded_tie hg hone (hraw p hp) (hraw p' hp') hne hle hge) (hdecided.best rfl)

/-- Any of the best guarded plans may be the decision. -/
theorem Chooses.first (hg : (g.nodes.map (·.token)).Nodup)
    (hone : 1 ≤ decision.guards.maxConsecutiveOccurrences)
    (hraw : ∀ p ∈ raw, RawPlan U g context planner p) (h : Chooses decision raw d) (hp : p ∈ raw)
    (hne : (guardRawPlan decision p).plan.steps ≠ [])
    (hbest : ∀ p'' ∈ raw, ∀ q e, Cut decision p'' q e → q.steps ≠ [] →
      actionPlanCompare q (guardRawPlan decision p).plan ≠ .lt) :
    ∃ d, Chooses decision raw d ∧ d.evidence = (guardRawPlan decision p).evidence := by
  have hviable : guardRawPlan decision p ∈ viablePlans decision raw :=
    mem_viablePlans.mpr ⟨p,hp,rfl,hne⟩
  have hnonempty : raw ≠ [] := List.ne_nil_of_mem hp
  have hsome : viablePlans decision raw ≠ [] := List.ne_nil_of_mem hviable
  have hfirst : ∃ rest, Ranked guardedPlanCompare (viablePlans decision raw)
      (guardRawPlan decision p::rest) := by
    unfold Chooses at h
    rw [if_neg hnonempty,if_neg hsome] at h
    obtain ⟨best,rest,hranked,-⟩ := h
    rcases hranked.head_best hviable with heq | hle
    · exact ⟨rest,heq ▸ hranked⟩
    rcases List.mem_cons.mp (hranked.mem_iff.mpr hviable) with heq | hrest
    · exact ⟨rest,heq ▸ hranked⟩
    obtain ⟨p',hp',rfl,hne'⟩ := mem_viablePlans.mp (hranked.mem_iff.mp List.mem_cons_self)
    -- no better one stands before it, so the first one ties with it
    have htie : guardedPlanCompare (guardRawPlan decision p') (guardRawPlan decision p) = .eq := by
      have hnot := hbest p' hp' _ _ (guardRawPlan_cut hone p') hne'
      unfold guardedPlanCompare at hle ⊢
      cases hcompare : actionPlanCompare (guardRawPlan decision p').plan
          (guardRawPlan decision p).plan with
      | lt => exact absurd hcompare hnot
      | eq => rfl
      | gt => exact absurd hcompare hle
    have hback : guardedPlanCompare (guardRawPlan decision p) (guardRawPlan decision p') ≠ .gt := by
      rw [guardedPlanCompare,actionPlanCompare_eq_symm htie]
      exact fun heq => by cases heq
    have hplan := guarded_tie hg hone (hraw p' hp') (hraw p hp) hne' hle hback
    refine hranked.promote hrest ?_ fun q => ?_
    · rw [guardedPlanCompare,actionPlanCompare_self]
      exact fun heq => by cases heq
    · rw [guardedPlanCompare,guardedPlanCompare,hplan]
  obtain ⟨rest,hranked⟩ := hfirst
  refine ⟨{ActionDecision.cleared with
    rawPlanCount := raw.length
    viablePlanCount := (viablePlans decision raw).length
    plan := (guardRawPlan decision p).plan
    evidence := (guardRawPlan decision p).evidence},?_,rfl⟩
  unfold Chooses
  rw [if_neg hnonempty,if_neg hsome]
  exact ⟨_,rest,hranked,rfl⟩

/-- A decision without a choice has settled evidence. -/
theorem Chooses.settled (hg : (g.nodes.map (·.token)).Nodup)
    (hone : 1 ≤ decision.guards.maxConsecutiveOccurrences)
    (hraw : ∀ p ∈ raw, RawPlan U g context planner p) (h : Chooses decision raw d)
    (hunique : ∀ d d', Chooses decision raw d → Chooses decision raw d' → d = d')
    {steps rest rest' : List ActionCandidate} {c c' : ActionCandidate} {reason : PlanStop}
    (hp : p ∈ raw) (hp' : p' ∈ raw) (hsplit : p.steps = steps++c::rest)
    (hsplit' : p'.steps = steps++c'::rest') (hne : steps ≠ [])
    (hadmissible : Admissible decision.guards steps)
    (hfailure : FirstFailure decision.guards steps c reason)
    (hfailure' : FirstFailure decision.guards steps c' reason)
    (hbest : ∀ p'' ∈ raw, ∀ q e, Cut decision p'' q e → q.steps ≠ [] →
      actionPlanCompare q ⟨steps,meanScore steps,reason⟩ ≠ .lt) : c.token = c'.token := by
  obtain ⟨r,hreject,rfl⟩ := guardReject_of_failure hone hadmissible hfailure
  obtain ⟨r',hreject',hreason⟩ := guardReject_of_failure hone hadmissible hfailure'
  have hcut := guardRawPlan_reject hone hsplit hne hadmissible hreject
  have hcut' := guardRawPlan_reject hone hsplit' hne hadmissible hreject'
  obtain ⟨d₁,hd₁,hevidence₁⟩ := h.first hg hone hraw hp (by rw [hcut]; exact hne)
    (by rw [hcut]; exact hbest)
  obtain ⟨d₂,hd₂,hevidence₂⟩ := h.first hg hone hraw hp' (by rw [hcut']; exact hne)
    (by rw [hcut',cutBefore,hreason]; exact hbest)
  rw [hunique d₁ d₂ hd₁ hd₂,hevidence₂,hcut,hcut'] at hevidence₁
  exact (congrArg StopEvidence.token hevidence₁).symm

/-- Behind its checks, a decision is a choice over raw plans. -/
theorem decides_iff {result : Status×ActionDecision}
    (hplanner : (config.getD .default).planner.valid = true)
    (hguards : (config.getD .default).guards.valid = true) (hcontext : context.bytes ≠ []) :
    Decides U g context config result ↔ ∃ status raw,
      Plans U g context (some (config.getD .default).planner)
        (config.getD .default).planner.beamWidth (status,raw) ∧
      ((status ≠ .ok ∧ result = (status,.cleared)) ∨
        (status = .ok ∧ result.1 = .ok ∧ Chooses (config.getD .default) raw result.2)) := by
  unfold Decides
  dsimp only
  rw [if_neg (by simp [hplanner,hguards]),if_neg hcontext]

/-- The sort routine has no choice exactly where evidence is settled. -/
theorem planning_ties (capacity : ℕ) (planner : Option PlanConfig)
    (hg : (g.nodes.map (·.token)).Nodup) {result : Status×ActionDecision}
    (hrun : Decides U g context config result) :
    SortFree U g context capacity planner config ↔
      EvidenceSettled U g context (config.getD .default) := by
  constructor
  · intro hfree hguards hcontext raw hplans p hp p' hp' steps c c' rest rest' reason hsplit hsplit'
      hne hadmissible hfailure hfailure' hbest
    have hplanner : (config.getD .default).planner.valid = true := by
      have hstatus := hplans.status_eq
      rw [Option.getD_some] at hstatus
      by_contra hinvalid
      rw [if_pos (.inl (Bool.not_eq_true _ ▸ hinvalid))] at hstatus
      cases hstatus
    have hiff := fun result => @decides_iff U g context config result hplanner hguards hcontext
    obtain ⟨status,raw',hplans',⟨hfailed,-⟩ | ⟨rfl,-,hchooses⟩⟩ := (hiff _).mp hrun
    · exact absurd (Prod.mk.inj (hplans'.unique hg hplans)).1 hfailed
    obtain rfl := (Prod.mk.inj (hplans'.unique hg hplans)).2
    refine hchooses.settled hg (GuardConfig.one_le hguards) (fun p hp => hplans.rawPlan hp) ?_ hp
      hp' hsplit hsplit' hne hadmissible hfailure hfailure' hbest
    intro d d' hd hd'
    exact (Prod.mk.inj (hfree.decides (.ok,d) (.ok,d')
      ((hiff _).mpr ⟨.ok,_,hplans,.inr ⟨rfl,rfl,hd⟩⟩)
      ((hiff _).mpr ⟨.ok,_,hplans,.inr ⟨rfl,rfl,hd'⟩⟩))).2
  · intro hsettled
    refine ⟨fun out out' h h' => h.unique hg h',fun r r' h h' => h.unique hg h',?_,?_,
      fun status out h => h.distinct hg,?_⟩
    · rintro ⟨status,d⟩ ⟨status',d'⟩ h h'
      by_cases hvalid : (config.getD .default).planner.valid = false ∨
          (config.getD .default).guards.valid = false
      · unfold Decides at h h'
        dsimp only at h h'
        rw [if_pos hvalid] at h h'
        rw [h,h']
      · simp only [not_or,Bool.not_eq_false] at hvalid
        by_cases hcontext : context.bytes = []
        · unfold Decides at h h'
          dsimp only at h h'
          rw [if_neg (by simp [hvalid.1,hvalid.2]),if_pos hcontext] at h h'
          rw [h,h']
        · rw [decides_iff hvalid.1 hvalid.2 hcontext] at h h'
          obtain ⟨status₁,raw,hplans,h⟩ := h
          obtain ⟨status₂,raw',hplans',h'⟩ := h'
          obtain ⟨rfl,rfl⟩ := Prod.mk.inj (hplans.unique hg hplans')
          rcases h with ⟨hfailed,h⟩ | ⟨hok,hstatus,hchooses⟩
          · rcases h' with ⟨-,h'⟩ | ⟨hok,-,-⟩
            · rw [h,h']
            · exact absurd hok hfailed
          · rcases h' with ⟨hfailed,-⟩ | ⟨-,hstatus',hchooses'⟩
            · exact absurd hok hfailed
            · subst hok
              dsimp only at hstatus hstatus' hchooses hchooses'
              rw [hstatus,hstatus',hchooses.unique hg (GuardConfig.one_le hvalid.2)
                (fun p hp => hplans.rawPlan hp) (hsettled hvalid.2 hcontext raw hplans) hchooses']
    · intro hvalid hnodes hedges s hs
      have hsearching := run_searching hvalid hnodes hedges hs
      have hproposals := hsearching.proposals_le
      exact ⟨by omega,hsearching.finish_le,hsearching.not_overflow⟩
    · intro status out h p hp
      have hraw := h.rawPlan hp
      exact ⟨hraw.deadEnd,hraw.full⟩

end Decide

namespace Crossroads

theorem tokens_nodup : (graph.nodes.map (·.token)).Nodup := by decide

/-- Behind `z` there is a way back to `x` and one to `y`, and either may be named. -/
theorem sort_free_fails : ¬∀ (U : Utf8proc) (g : Graph) (context : Text) (capacity : ℕ)
    (planner : Option PlanConfig) (config : Option DecisionConfig),
    (g.nodes.map (·.token)).Nodup → SortFree U g context capacity planner config := by
  intro h
  have hsame := (h .plain graph c.text 0 none (some config) tokens_nodup).decides _ _
    (decides best_first) (decides other_first)
  have htoken : x = y := congrArg (fun r => r.2.evidence.token) hsame
  exact absurd htoken (by decide)

theorem planning_ties_crossroads :
    SortFree .plain graph c.text 0 none (some config) ↔
      EvidenceSettled .plain graph c.text config :=
  planning_ties 0 none tokens_nodup (decides best_first)

end Crossroads

end Atperson.Core
