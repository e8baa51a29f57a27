import Atperson.Core.Candidates
import Atperson.Runs.Terminal

/-!
# Bounded plans

The beam search over continuations. The search takes one plan of the frontier after another:
a plan without candidates is completed, the others propose one longer plan for each
candidate. When the frontier is used up, the best proposals are the next one. Sort routines
are known by their comparators only, so the search is a relation.
-/
namespace Atperson.Core
open Floats (narrow widen)
open Ledger (Status)
open Relation (ReflTransGen)
open Runs (Ranked Stuck)
open Wire (strcmp strcmp_antisymm)

def planMaxTokens : ℕ := 16
def planMaxBeamWidth : ℕ := 8
def planMaxContextBytes : ℕ := 4096

structure PlanConfig where
  maxTokens : ℕ
  beamWidth : ℕ
  deriving DecidableEq

namespace PlanConfig

/-- `atp_action_plan_default_config`. -/
def default : PlanConfig := ⟨8,4⟩

def valid (planner : PlanConfig) : Bool :=
  1 ≤ planner.maxTokens && planner.maxTokens ≤ planMaxTokens && 1 ≤ planner.beamWidth &&
    planner.beamWidth ≤ planMaxBeamWidth

def proposalCapacity (planner : PlanConfig) : ℕ := planner.beamWidth*planner.beamWidth

def completedCapacity (planner : PlanConfig) : ℕ := planner.beamWidth*(planner.maxTokens+1)

end PlanConfig

inductive PlanStop where
  | none | deadEnd | maxTokens | lowScore | lowSupport | scoreDrop | repetition | cycle
  | negativeValence
  deriving DecidableEq

/-- The numbers of `atp_action_plan_stop_reason`. -/
def PlanStop.code : PlanStop → ℕ
  | .none => 0
  | .deadEnd => 1
  | .maxTokens => 2
  | .lowScore => 3
  | .lowSupport => 4
  | .scoreDrop => 5
  | .repetition => 6
  | .cycle => 7
  | .negativeValence => 8

structure ActionPlan where
  steps : List ActionCandidate
  score : Float32
  stopReason : PlanStop
  deriving DecidableEq

/-! ## The order of plans -/

/-- The first steps whose tokens differ decide. -/
def stepsCompare : List ActionCandidate → List ActionCandidate → Ordering
  | a::as, b::bs => (strcmp a.token.bytes b.token.bytes).then (stepsCompare as bs)
  | _, _ => .eq

/-- `atp_action_plan_compare`. -/
def actionPlanCompare (a b : ActionPlan) : Ordering :=
  higherFirst a.score b.score <|
  higherFirst a.steps.length b.steps.length <|
  (stepsCompare a.steps b.steps).then (compare a.stopReason.code b.stopReason.code)

/-! ## The search -/

/-- A plan with the sum of its scores. -/
structure PlanWork where
  plan : ActionPlan
  scoreSum : Float

/-- `atp_action_plan_work_compare`. -/
def planWorkCompare (a b : PlanWork) : Ordering := actionPlanCompare a.plan b.plan

/-- A token read as a text. -/
def Token.text (t : Token) : Text :=
  ⟨t.bytes,t.fits.trans (by decide),t.noNul⟩

/-- A plan goes on from its last token. -/
def stepContext (context : Text) (steps : List ActionCandidate) : Text :=
  match steps.getLast? with
  | none => context
  | some c => c.token.text

namespace PlanWork

def start : PlanWork := ⟨⟨[],0,.none⟩,0⟩

def extend (current : PlanWork) (c : ActionCandidate) : PlanWork :=
  let scoreSum := current.scoreSum+widen c.score
  let steps := current.plan.steps++[c]
  ⟨⟨steps,narrow (scoreSum/Float.ofNat steps.length),.none⟩,scoreSum⟩

def stop (current : PlanWork) (reason : PlanStop) : PlanWork :=
  {current with plan := {current.plan with stopReason := reason}}

end PlanWork

/-- The arrays of the search. Of the frontier there is what is left at this depth. -/
structure BeamState where
  depth : ℕ
  frontier : List PlanWork
  proposals : List PlanWork
  completed : List PlanWork

namespace BeamState

def start : BeamState := ⟨0,[.start],[],[]⟩

/-- The completed plans at the end of the search. -/
def finish (s : BeamState) : List PlanWork :=
  s.completed++s.frontier.map fun w => w.stop .maxTokens

end BeamState

/-- What a plan without candidates adds to the completed ones. -/
def deadEnds (current : PlanWork) : List PlanWork :=
  if current.plan.steps = [] then [] else [current.stop .deadEnd]

section Search
variable (U : Utf8proc) (g : Graph) (context : Text) (planner : PlanConfig)

/-- One step of the search: a plan of the frontier is expanded, or the proposals pruned. -/
inductive BeamStep : BeamState → BeamState → Prop where
  | deadEnd {depth : ℕ} {current : PlanWork} {rest proposals completed : List PlanWork}
      (hdepth : depth < planner.maxTokens)
      (hnone : g.Candidates U (stepContext context current.plan.steps) planner.beamWidth []) :
      BeamStep ⟨depth,current::rest,proposals,completed⟩
        ⟨depth,rest,proposals,completed++deadEnds current⟩
  | propose {depth : ℕ} {current : PlanWork} {rest proposals completed : List PlanWork}
      {candidates : List ActionCandidate} (hdepth : depth < planner.maxTokens)
      (hsome : g.Candidates U (stepContext context current.plan.steps) planner.beamWidth candidates)
      (hne : candidates ≠ [])
      (hfits : proposals.length+candidates.length ≤ planner.proposalCapacity) :
      BeamStep ⟨depth,current::rest,proposals,completed⟩
        ⟨depth,rest,proposals++candidates.map current.extend,completed⟩
  | prune {depth : ℕ} {proposals ranked completed : List PlanWork}
      (hdepth : depth < planner.maxTokens) (hne : proposals ≠ [])
      (hranked : Ranked planWorkCompare proposals ranked) :
      BeamStep ⟨depth,[],proposals,completed⟩
        ⟨depth+1,ranked.take planner.beamWidth,[],completed⟩

/-- The proposals of the next plan do not fit. -/
def BeamOverflow (s : BeamState) : Prop :=
  s.depth < planner.maxTokens ∧ ∃ current rest candidates, s.frontier = current::rest ∧
    g.Candidates U (stepContext context current.plan.steps) planner.beamWidth candidates ∧
    planner.proposalCapacity < s.proposals.length+candidates.length

/-- The loop is left. -/
def BeamState.Finished (s : BeamState) : Prop :=
  s.proposals = [] ∧ (s.depth = planner.maxTokens ∨ s.frontier = [])

/-- What `atp_graph_action_plans` may return, with any sort routine. -/
def Plans (config : Option PlanConfig) (capacity : ℕ) (result : Status×List ActionPlan) : Prop :=
  let planner := config.getD .default
  if planner.valid = false ∨ planMaxContextBytes < context.bytes.length then
    result = (.invalidArgument,[])
  else if capacity = 0 ∨ g.nodes = [] ∨ g.edges = [] then result = (.ok,[])
  else ∃ s, ReflTransGen (BeamStep U g context planner) .start s ∧
    ((BeamOverflow U g context planner s ∧ result = (.format,[])) ∨
      (s.Finished planner ∧ ∃ ranked, Ranked planWorkCompare s.finish ranked ∧
        result = (.ok,(ranked.take capacity).map PlanWork.plan)))

end Search

/-! ## Ties -/

theorem PlanStop.code_inj {a b : PlanStop} (h : a.code = b.code) : a = b := by
  cases a <;> cases b <;> first | rfl | cases h

/-- The tokens of the steps. -/
def tokenPath (steps : List ActionCandidate) : List Token := steps.map (·.token)

@[simp] theorem tokenPath_append (steps : List ActionCandidate) (c : ActionCandidate) :
    tokenPath (steps++[c]) = tokenPath steps++[c.token] := List.map_append

@[simp] theorem length_tokenPath (steps : List ActionCandidate) :
    (tokenPath steps).length = steps.length := List.length_map _

theorem stepsCompare_self (steps : List ActionCandidate) : stepsCompare steps steps = .eq := by
  induction steps with
  | nil => rfl
  | cons a steps ih => rw [stepsCompare,Wire.strcmp_self,Ordering.eq_then,ih]

theorem stepsCompare_swap (as bs : List ActionCandidate) :
    stepsCompare bs as = (stepsCompare as bs).swap := by
  induction as generalizing bs with
  | nil => cases bs <;> rfl
  | cons a as ih =>
      cases bs with
      | nil => rfl
      | cons b bs =>
          rw [stepsCompare,stepsCompare,Ordering.swap_then,Wire.strcmp_swap,ih]

theorem stepsCompare_eq {as bs : List ActionCandidate} (hlength : as.length = bs.length)
    (h : stepsCompare as bs = .eq) : tokenPath as = tokenPath bs := by
  induction as generalizing bs with
  | nil =>
      rw [List.length_nil] at hlength
      rw [List.length_eq_zero_iff.mp hlength.symm]
  | cons a as ih =>
      cases bs with
      | nil => cases hlength
      | cons b bs =>
          rw [stepsCompare,Ordering.then_eq_eq] at h
          have hhead : a.token = b.token := Wire.CText.ext (Wire.strcmp_eq.mp h.1)
          have htail := ih (Nat.succ.inj hlength) h.2
          rw [tokenPath,List.map_cons,hhead]
          exact congrArg (b.token::·) htail

theorem then_tie {x y y' : Ordering} (h : x.then y ≠ .gt) (h' : x.swap.then y' ≠ .gt) :
    x = .eq ∧ y ≠ .gt ∧ y' ≠ .gt := by
  cases x with
  | lt => exact absurd rfl h'
  | eq => exact ⟨rfl,h,h'⟩
  | gt => exact absurd rfl h

/-- Plans that tie have the same tokens and stop for the same reason. -/
theorem actionPlanCompare_tie {a b : ActionPlan} (h : actionPlanCompare a b ≠ .gt)
    (h' : actionPlanCompare b a ≠ .gt) :
    tokenPath a.steps = tokenPath b.steps ∧ a.stopReason = b.stopReason := by
  obtain ⟨h,h'⟩ := higherFirst_tie h h'
  have hlength : a.steps.length = b.steps.length := by
    unfold higherFirst at h h'
    rcases Nat.lt_trichotomy a.steps.length b.steps.length with hlt | heq | hgt
    · rw [if_pos hlt] at h
      exact absurd rfl h
    · exact heq
    · rw [if_pos hgt] at h'
      exact absurd rfl h'
  obtain ⟨h,h'⟩ := higherFirst_tie h h'
  rw [stepsCompare_swap a.steps b.steps] at h'
  obtain ⟨hsteps,hstop,hstop'⟩ := then_tie h h'
  exact ⟨stepsCompare_eq hlength hsteps,PlanStop.code_inj
    (Nat.le_antisymm (Nat.compare_ne_gt.mp hstop) (Nat.compare_ne_gt.mp hstop'))⟩

theorem actionPlanCompare_self (a : ActionPlan) : actionPlanCompare a a = .eq := by
  rw [actionPlanCompare,higherFirst_self (Floats.lt_irrefl _),higherFirst_self (Nat.lt_irrefl _),
    stepsCompare_self,Ordering.eq_then,Nat.compare_eq_eq.mpr rfl]

/-- A plan that comes no later is not beaten. -/
theorem actionPlanCompare_asymm {a b : ActionPlan} (h : actionPlanCompare a b ≠ .gt) :
    actionPlanCompare b a ≠ .lt := by
  refine higherFirst_asymm (fun h => higherFirst_asymm (fun h => ?_) h) h
  rw [stepsCompare_swap a.steps b.steps]
  cases hsteps : stepsCompare a.steps b.steps with
  | lt => exact fun heq => by cases heq
  | eq =>
      rw [hsteps] at h
      have hle := Nat.compare_ne_gt.mp h
      exact fun heq => absurd (Nat.compare_eq_lt.mp heq) (Nat.not_lt.mpr hle)
  | gt =>
      rw [hsteps] at h
      exact absurd rfl h

/-! ## What a plan is made of -/

/-- The sum of the scores, in the order of the steps. -/
def scoreSum (steps : List ActionCandidate) : Float :=
  steps.foldl (fun sum c => sum+widen c.score) 0

/-- The mean of the scores. -/
def meanScore (steps : List ActionCandidate) : Float32 :=
  narrow (scoreSum steps/Float.ofNat steps.length)

theorem scoreSum_append (steps : List ActionCandidate) (c : ActionCandidate) :
    scoreSum (steps++[c]) = scoreSum steps+widen c.score := List.foldl_append

/-- Each step is a candidate of the step before it, the first one of the context. -/
def Follows (U : Utf8proc) (g : Graph) (context : Text) (steps : List ActionCandidate) : Prop :=
  ∀ before c after, steps = before++c::after →
    c ∈ g.contextCandidates U (stepContext context before)

section Follows
variable {U : Utf8proc} {g : Graph} {context : Text} {steps steps' : List ActionCandidate}
  {c : ActionCandidate}

theorem follows_nil : Follows U g context [] := by
  intro before c after h
  exact absurd h (by simp)

theorem follows_append : Follows U g context (steps++[c]) ↔
    Follows U g context steps ∧ c ∈ g.contextCandidates U (stepContext context steps) := by
  constructor
  · intro h
    refine ⟨fun before d after hsplit => ?_,h steps c [] rfl⟩
    refine h before d (after++[c]) ?_
    rw [hsplit,List.append_assoc,List.cons_append]
  · rintro ⟨hsteps,hc⟩ before d after hsplit
    rcases List.eq_nil_or_concat after with rfl | ⟨after,e,rfl⟩
    · obtain ⟨rfl,hlast⟩ := List.append_inj' hsplit rfl
      rw [← (List.cons.inj hlast).1]
      exact hc
    · have hassoc : before++d::after.concat e = before++d::after++[e] := by simp
      rw [hassoc] at hsplit
      exact hsteps before d after (List.append_inj' hsplit rfl).1

theorem Follows.of_prefix (h : Follows U g context steps) (hfront : steps' <+: steps) :
    Follows U g context steps' := by
  obtain ⟨rest,rfl⟩ := hfront
  intro before c after hsplit
  refine h before c (after++rest) ?_
  rw [hsplit,List.append_assoc,List.cons_append]

/-- The tokens tell the steps, where no two nodes share a token. -/
theorem Follows.eq_of_path (hg : (g.nodes.map (·.token)).Nodup) (h : Follows U g context steps)
    (h' : Follows U g context steps') (hpath : tokenPath steps = tokenPath steps') :
    steps = steps' := by
  induction steps using List.reverseRecOn generalizing steps' with
  | nil =>
      have hlength := congrArg List.length hpath
      rw [length_tokenPath,length_tokenPath] at hlength
      exact (List.length_eq_zero_iff.mp hlength.symm).symm
  | append_singleton steps c ih =>
      rcases List.eq_nil_or_concat steps' with rfl | ⟨steps',c',rfl⟩
      · simp [tokenPath] at hpath
      · rw [List.concat_eq_append] at h' hpath ⊢
        rw [tokenPath_append,tokenPath_append] at hpath
        obtain ⟨hinit,hlast⟩ := List.append_inj' hpath rfl
        rw [follows_append] at h h'
        obtain rfl := ih h.1 h'.1 hinit
        rw [Graph.contextCandidates_inj hg h.2 h'.2 (List.cons.inj hlast).1]

end Follows

/-! ## What the search keeps -/

section Search
variable {U : Utf8proc} {g : Graph} {context : Text} {planner : PlanConfig} {s t t' : BeamState}
  {w w' : PlanWork} {c : ActionCandidate} {config : Option PlanConfig} {capacity : ℕ}

/-- A plan of candidates, with its scores. -/
structure Assembled (U : Utf8proc) (g : Graph) (context : Text) (w : PlanWork) : Prop where
  follows : Follows U g context w.plan.steps
  sum : w.scoreSum = scoreSum w.plan.steps
  mean : w.plan.steps ≠ [] → w.plan.score = meanScore w.plan.steps

theorem assembled_start : Assembled U g context .start := ⟨follows_nil,rfl,fun h => absurd rfl h⟩

theorem extend_sum (h : w.scoreSum = scoreSum w.plan.steps) :
    (w.extend c).scoreSum = scoreSum (w.plan.steps++[c]) := by
  rw [scoreSum_append,← h]
  rfl

theorem extend_mean (h : w.scoreSum = scoreSum w.plan.steps) :
    (w.extend c).plan.score = meanScore (w.plan.steps++[c]) :=
  congrArg (fun sum => narrow (sum/Float.ofNat (w.plan.steps++[c]).length)) (extend_sum h)

theorem Assembled.extend (h : Assembled U g context w)
    (hc : c ∈ g.contextCandidates U (stepContext context w.plan.steps)) :
    Assembled U g context (w.extend c) :=
  ⟨follows_append.mpr ⟨h.follows,hc⟩,extend_sum h.sum,
    fun _ => extend_mean h.sum⟩

theorem Assembled.stop (h : Assembled U g context w) (reason : PlanStop) :
    Assembled U g context (w.stop reason) := ⟨h.follows,h.sum,h.mean⟩

/-- The tokens and the reason to stop tell the plan. -/
theorem Assembled.eq_of_path (hg : (g.nodes.map (·.token)).Nodup) (h : Assembled U g context w)
    (h' : Assembled U g context w') (hne : w.plan.steps ≠ [])
    (hpath : tokenPath w.plan.steps = tokenPath w'.plan.steps)
    (hstop : w.plan.stopReason = w'.plan.stopReason) : w = w' := by
  have hsteps := h.follows.eq_of_path hg h'.follows hpath
  have hscore : w.plan.score = w'.plan.score := by
    rw [h.mean hne,h'.mean (hsteps ▸ hne),hsteps]
  have hsum : w.scoreSum = w'.scoreSum := by rw [h.sum,h'.sum,hsteps]
  obtain ⟨⟨steps,score,reason⟩,sum⟩ := w
  obtain ⟨⟨steps',score',reason'⟩,sum'⟩ := w'
  dsimp only at hsteps hscore hsum hstop
  rw [hsteps,hscore,hsum,hstop]

/-- A plan completed for want of candidates. -/
structure AtDeadEnd (U : Utf8proc) (g : Graph) (context : Text) (planner : PlanConfig)
    (w : PlanWork) : Prop where
  assembled : Assembled U g context w
  stopped : w.plan.stopReason = .deadEnd
  nonempty : w.plan.steps ≠ []
  short : w.plan.steps.length < planner.maxTokens
  none : g.contextCandidates U (stepContext context w.plan.steps) = []

/-- What holds of the arrays at every point of the search. -/
structure Searching (U : Utf8proc) (g : Graph) (context : Text) (planner : PlanConfig)
    (s : BeamState) : Prop where
  depth_le : s.depth ≤ planner.maxTokens
  frontier : ∀ w ∈ s.frontier, Assembled U g context w ∧ w.plan.steps.length = s.depth
  proposals : ∀ w ∈ s.proposals, Assembled U g context w ∧ w.plan.steps.length = s.depth+1 ∧
    w.plan.stopReason = .none
  completed : ∀ w ∈ s.completed, AtDeadEnd U g context planner w ∧ w.plan.steps.length ≤ s.depth
  proposals_le : s.proposals.length+s.frontier.length*planner.beamWidth ≤ planner.proposalCapacity
  completed_le : s.completed.length+s.frontier.length ≤ planner.beamWidth*(s.depth+1)

theorem searching_start (hvalid : 1 ≤ planner.beamWidth) : Searching U g context planner .start where
  depth_le := Nat.zero_le _
  frontier := by
    intro w hw
    obtain rfl := List.mem_singleton.mp hw
    exact ⟨assembled_start,rfl⟩
  proposals := fun w hw => absurd hw List.not_mem_nil
  completed := fun w hw => absurd hw List.not_mem_nil
  proposals_le := by
    have hsquare : 1*planner.beamWidth ≤ planner.beamWidth*planner.beamWidth :=
      Nat.mul_le_mul_right _ hvalid
    simpa [BeamState.start,PlanConfig.proposalCapacity] using hsquare
  completed_le := by simpa [BeamState.start] using hvalid

theorem Searching.step (hvalid : 1 ≤ planner.beamWidth) (hnodes : g.nodes ≠ [])
    (hedges : g.edges ≠ []) (h : Searching U g context planner s)
    (hstep : BeamStep U g context planner s t) : Searching U g context planner t := by
  cases hstep with
  | @deadEnd depth current rest proposals completed hdepth hnone =>
      obtain ⟨hassembled,hlength⟩ := h.frontier current List.mem_cons_self
      have hproposals := h.proposals_le
      have hcompleted := h.completed_le
      simp only [List.length_cons,Nat.add_mul,Nat.one_mul] at hproposals hcompleted
      refine ⟨h.depth_le,fun w hw => h.frontier w (List.mem_cons_of_mem _ hw),h.proposals,?_,
        by dsimp only; omega,?_⟩
      · intro w hw
        rcases List.mem_append.mp hw with hw | hw
        · exact h.completed w hw
        · unfold deadEnds at hw
          split at hw
          · cases hw
          · next hne =>
              obtain rfl := List.mem_singleton.mp hw
              have hcandidates := (hnone.nil_iff (by omega) hnodes hedges).mp rfl
              dsimp only at hlength
              exact ⟨⟨hassembled.stop _,rfl,hne,by simpa [PlanWork.stop,hlength] using hdepth,
                hcandidates⟩,by simp [PlanWork.stop,hlength]⟩
      · have hadded : (deadEnds current).length ≤ 1 := by
          unfold deadEnds
          split <;> simp
        simp only [List.length_append]
        omega
  | @propose depth current rest proposals completed candidates hdepth hsome hne hfits =>
      obtain ⟨hassembled,hlength⟩ := h.frontier current List.mem_cons_self
      have hproposals := h.proposals_le
      have hcompleted := h.completed_le
      have hfew := hsome.length_le
      simp only [List.length_cons,Nat.add_mul,Nat.one_mul] at hproposals hcompleted
      refine ⟨h.depth_le,fun w hw => h.frontier w (List.mem_cons_of_mem _ hw),?_,h.completed,
        by simp only [List.length_append,List.length_map]; omega,by dsimp only; omega⟩
      intro w hw
      rcases List.mem_append.mp hw with hw | hw
      · exact h.proposals w hw
      · obtain ⟨c,hc,rfl⟩ := List.mem_map.mp hw
        refine ⟨hassembled.extend (hsome.mem hc),?_,rfl⟩
        dsimp only at hlength
        simp [PlanWork.extend,hlength]
  | @prune depth proposals ranked completed hdepth hne hranked =>
      have hfrontier : (ranked.take planner.beamWidth).length ≤ planner.beamWidth :=
        List.length_take_le ..
      have hcompleted := h.completed_le
      simp only [List.length_nil,Nat.add_zero] at hcompleted
      refine ⟨hdepth,?_,fun w hw => absurd hw List.not_mem_nil,fun w hw => ⟨(h.completed w hw).1,(h.completed w hw).2.trans
        (Nat.le_succ depth)⟩,?_,?_⟩
      · intro w hw
        obtain ⟨hassembled,hlength,-⟩ := h.proposals w (hranked.mem_iff.mp (List.mem_of_mem_take hw))
        exact ⟨hassembled,hlength⟩
      · simp only [List.length_nil,Nat.zero_add]
        exact Nat.mul_le_mul_right _ hfrontier
      · have hsplit : planner.beamWidth*(depth+1+1) =
            planner.beamWidth*(depth+1)+planner.beamWidth := Nat.mul_succ ..
        dsimp only
        omega

/-- The proposals of the next plan always fit. -/
theorem Searching.not_overflow (h : Searching U g context planner s) :
    ¬BeamOverflow U g context planner s := by
  rintro ⟨-,current,rest,candidates,hfrontier,hcandidates,hover⟩
  have hproposals := h.proposals_le
  have hfew := hcandidates.length_le
  rw [hfrontier] at hproposals
  simp only [List.length_cons,Nat.add_mul,Nat.one_mul] at hproposals
  omega

/-! ## Paths are distinct -/

/-- The tokens of a plan. -/
def PlanWork.path (w : PlanWork) : List Token := tokenPath w.plan.steps

theorem PlanWork.path_extend (w : PlanWork) (c : ActionCandidate) :
    (w.extend c).path = w.path++[c.token] := tokenPath_append ..

/-- No path is searched twice. -/
structure Distinct (s : BeamState) : Prop where
  frontier : (s.frontier.map PlanWork.path).Nodup
  proposals : (s.proposals.map PlanWork.path).Nodup
  completed : (s.completed.map PlanWork.path).Nodup
  apart : ∀ w ∈ s.proposals, ∀ f ∈ s.frontier, w.path.dropLast ≠ f.path
  settled : ∀ w ∈ s.completed, ∀ f ∈ s.frontier, w.path ≠ f.path

theorem distinct_start : Distinct .start where
  frontier := List.nodup_singleton _
  proposals := List.nodup_nil
  completed := List.nodup_nil
  apart := fun _ hw => absurd hw List.not_mem_nil
  settled := fun _ hw => absurd hw List.not_mem_nil

theorem Distinct.step (hg : (g.nodes.map (·.token)).Nodup) (hs : Searching U g context planner s)
    (h : Distinct s) (hstep : BeamStep U g context planner s t) : Distinct t := by
  cases hstep with
  | @deadEnd depth current rest proposals completed hdepth hnone =>
      obtain ⟨hcurrent,hrest⟩ := List.nodup_cons.mp h.frontier
      have hadded : ∀ w ∈ deadEnds current, w.path = current.path := by
        intro w hw
        unfold deadEnds at hw
        split at hw
        · cases hw
        · rw [List.mem_singleton.mp hw]
          rfl
      refine ⟨hrest,h.proposals,?_,fun w hw f hf => h.apart w hw f (List.mem_cons_of_mem _ hf),?_⟩
      · rw [List.map_append,List.nodup_append]
        refine ⟨h.completed,?_,?_⟩
        · unfold deadEnds
          split
          · exact List.nodup_nil
          · exact List.nodup_singleton _
        · intro p hp q hq heq
          obtain ⟨w,hw,rfl⟩ := List.mem_map.mp hp
          obtain ⟨v,hv,rfl⟩ := List.mem_map.mp hq
          rw [hadded v hv] at heq
          exact h.settled w hw current List.mem_cons_self heq
      · intro w hw f hf
        rcases List.mem_append.mp hw with hw | hw
        · exact h.settled w hw f (List.mem_cons_of_mem _ hf)
        · rw [hadded w hw]
          exact fun heq => hcurrent (heq ▸ List.mem_map_of_mem hf)
  | @propose depth current rest proposals completed candidates hdepth hsome hne hfits =>
      obtain ⟨hcurrent,hrest⟩ := List.nodup_cons.mp h.frontier
      have hinit : ∀ w ∈ candidates.map current.extend, w.path.dropLast = current.path := by
        intro w hw
        obtain ⟨c,-,rfl⟩ := List.mem_map.mp hw
        rw [PlanWork.path_extend,List.dropLast_concat]
      refine ⟨hrest,?_,h.completed,?_,
        fun w hw f hf => h.settled w hw f (List.mem_cons_of_mem _ hf)⟩
      · rw [List.map_append,List.nodup_append]
        refine ⟨h.proposals,?_,?_⟩
        · have hpaths : (candidates.map current.extend).map PlanWork.path =
              (candidates.map (·.token)).map fun t => current.path++[t] := by
            rw [List.map_map,List.map_map]
            exact List.map_congr_left fun c _ => PlanWork.path_extend current c
          rw [hpaths]
          exact (hsome.nodup hg).map fun a b hab => by simpa using hab
        · intro p hp q hq heq
          obtain ⟨w,hw,rfl⟩ := List.mem_map.mp hp
          obtain ⟨v,hv,rfl⟩ := List.mem_map.mp hq
          exact h.apart w hw current List.mem_cons_self (heq ▸ hinit v hv)
      · intro w hw f hf
        rcases List.mem_append.mp hw with hw | hw
        · exact h.apart w hw f (List.mem_cons_of_mem _ hf)
        · rw [hinit w hw]
          exact fun heq => hcurrent (heq ▸ List.mem_map_of_mem hf)
  | @prune depth proposals ranked completed hdepth hne hranked =>
      refine ⟨?_,List.nodup_nil,h.completed,fun w hw => absurd hw List.not_mem_nil,?_⟩
      · have hperm := (hranked.perm.map PlanWork.path).nodup_iff.mpr h.proposals
        exact hperm.sublist ((List.take_sublist _ _).map _)
      · intro w hw f hf heq
        have hshort := (hs.completed w hw).2
        have hlong := (hs.proposals f (hranked.mem_iff.mp (List.mem_of_mem_take hf))).2.1
        have hlength := congrArg List.length heq
        rw [PlanWork.path,PlanWork.path,length_tokenPath,length_tokenPath] at hlength
        omega

/-! ## The choice of the sort routine -/

/-- Plans of the search that tie are equal. -/
theorem Assembled.tie (hg : (g.nodes.map (·.token)).Nodup) (h : Assembled U g context w)
    (h' : Assembled U g context w') (hne : w.plan.steps ≠ []) (hle : planWorkCompare w w' ≠ .gt)
    (hge : planWorkCompare w' w ≠ .gt) : w = w' := by
  obtain ⟨hpath,hstop⟩ := actionPlanCompare_tie hle hge
  exact h.eq_of_path hg h' hne hpath hstop

/-- Distinct tokens leave the search no choice. -/
theorem BeamStep.unique (hg : (g.nodes.map (·.token)).Nodup)
    (hs : Searching U g context planner s) (h : BeamStep U g context planner s t)
    (h' : BeamStep U g context planner s t') : t = t' := by
  cases h with
  | deadEnd hdepth hnone =>
      cases h' with
      | deadEnd => rfl
      | propose _ hsome hne _ => exact absurd (hnone.unique hg hsome).symm hne
  | propose hdepth hsome hne hfits =>
      cases h' with
      | deadEnd _ hnone => exact absurd (hsome.unique hg hnone) hne
      | propose _ hsome' _ _ => rw [hsome.unique hg hsome']
  | prune hdepth hne hranked =>
      cases h' with
      | prune _ _ hranked' =>
          have htie := hranked.unique (fun a ha b hb hab hba => (hs.proposals a ha).1.tie hg
            (hs.proposals b hb).1 (fun hnil => by
              have hlength := (hs.proposals a ha).2.1
              rw [hnil] at hlength
              cases hlength) hab hba) hranked'
          rw [htie]

/-- A search that has left the loop does not go on. -/
theorem BeamState.Finished.stuck (h : s.Finished planner) :
    Stuck (BeamStep U g context planner) s := by
  obtain ⟨hproposals,hend⟩ := h
  intro t hstep
  cases hstep with
  | deadEnd hdepth _ =>
      rcases hend with hdeep | hnil
      · exact absurd hdeep (Nat.ne_of_lt hdepth)
      · cases hnil
  | propose hdepth _ _ _ =>
      rcases hend with hdeep | hnil
      · exact absurd hdeep (Nat.ne_of_lt hdepth)
      · cases hnil
  | prune _ hne _ => exact hne hproposals

/-! ## The plans that are returned -/

/-- What `atp_graph_action_plans` says of a plan. -/
structure RawPlan (U : Utf8proc) (g : Graph) (context : Text) (planner : PlanConfig)
    (p : ActionPlan) : Prop where
  follows : Follows U g context p.steps
  nonempty : p.steps ≠ []
  mean : p.score = meanScore p.steps
  length_le : p.steps.length ≤ planner.maxTokens
  deadEnd : p.stopReason = .deadEnd ↔
    g.contextCandidates U (stepContext context p.steps) = [] ∧ p.steps.length < planner.maxTokens
  full : p.stopReason = .maxTokens ↔ p.steps.length = planner.maxTokens
  stopped : p.stopReason = .deadEnd ∨ p.stopReason = .maxTokens

theorem AtDeadEnd.rawPlan (h : AtDeadEnd U g context planner w) :
    RawPlan U g context planner w.plan where
  follows := h.assembled.follows
  nonempty := h.nonempty
  mean := h.assembled.mean h.nonempty
  length_le := h.short.le
  deadEnd := ⟨fun _ => ⟨h.none,h.short⟩,fun _ => h.stopped⟩
  full := by
    rw [h.stopped]
    exact ⟨fun heq => PlanStop.noConfusion heq,fun heq => absurd heq h.short.ne⟩
  stopped := .inl h.stopped

theorem Assembled.rawPlan (h : Assembled U g context w) (hpositive : 1 ≤ planner.maxTokens)
    (hfull : w.plan.steps.length = planner.maxTokens) :
    RawPlan U g context planner (w.stop .maxTokens).plan where
  follows := h.follows
  nonempty := by
    intro hnil
    have hnil : w.plan.steps = [] := hnil
    rw [hnil,List.length_nil] at hfull
    omega
  mean := h.mean fun hnil => by
    rw [hnil,List.length_nil] at hfull
    omega
  length_le := hfull.le
  deadEnd := ⟨fun heq => PlanStop.noConfusion heq,fun hshort => absurd hfull hshort.2.ne⟩
  full := ⟨fun _ => hfull,fun _ => rfl⟩
  stopped := .inr rfl

/-- The plans at the end of a search. -/
theorem Searching.finish (hpositive : 1 ≤ planner.maxTokens)
    (h : Searching U g context planner s) (hfinished : s.Finished planner) (hw : w ∈ s.finish) :
    Assembled U g context w ∧ RawPlan U g context planner w.plan := by
  rcases List.mem_append.mp hw with hw | hw
  · have hdead := (h.completed w hw).1
    exact ⟨hdead.assembled,hdead.rawPlan⟩
  · obtain ⟨f,hf,rfl⟩ := List.mem_map.mp hw
    obtain ⟨hassembled,hlength⟩ := h.frontier f hf
    rcases hfinished.2 with hdeep | hnil
    · exact ⟨hassembled.stop _,hassembled.rawPlan hpositive (hlength.trans hdeep)⟩
    · rw [hnil] at hf
      cases hf

theorem Distinct.finish (h : Distinct s) :
    (s.finish.map PlanWork.path).Nodup := by
  have hpaths : (s.frontier.map fun w => w.stop .maxTokens).map PlanWork.path =
      s.frontier.map PlanWork.path := by
    rw [List.map_map]
    exact List.map_congr_left fun w _ => rfl
  rw [BeamState.finish,List.map_append,hpaths,List.nodup_append]
  refine ⟨h.completed,h.frontier,?_⟩
  intro p hp q hq
  obtain ⟨w,hw,rfl⟩ := List.mem_map.mp hp
  obtain ⟨f,hf,rfl⟩ := List.mem_map.mp hq
  exact h.settled w hw f hf

theorem run_searching (hvalid : planner.valid = true) (hnodes : g.nodes ≠ []) (hedges : g.edges ≠ [])
    (hrun : ReflTransGen (BeamStep U g context planner) .start s) :
    Searching U g context planner s := by
  simp only [PlanConfig.valid,Bool.and_eq_true,decide_eq_true_eq] at hvalid
  exact Runs.run_keeps (fun s t h hstep => h.step hvalid.1.2 hnodes hedges hstep) hrun
    (searching_start hvalid.1.2)

theorem run_distinct (hg : (g.nodes.map (·.token)).Nodup) (hvalid : planner.valid = true)
    (hnodes : g.nodes ≠ []) (hedges : g.edges ≠ [])
    (hrun : ReflTransGen (BeamStep U g context planner) .start s) : Distinct s := by
  have hpositive := hvalid
  simp only [PlanConfig.valid,Bool.and_eq_true,decide_eq_true_eq] at hpositive
  have hboth := Runs.run_keeps (P := fun s => Searching U g context planner s ∧ Distinct s)
    (fun s t h hstep => ⟨h.1.step hpositive.1.2 hnodes hedges hstep,h.2.step hg h.1 hstep⟩) hrun
    ⟨searching_start hpositive.1.2,distinct_start⟩
  exact hboth.2

/-- The status is that of the arguments: no search overflows its arrays. -/
theorem Plans.status_eq {result : Status×List ActionPlan}
    (h : Plans U g context config capacity result) :
    result.1 = if (config.getD .default).valid = false ∨
      planMaxContextBytes < context.bytes.length then .invalidArgument else .ok := by
  unfold Plans at h
  dsimp only at h
  split at h
  · next hbad => rw [h,if_pos hbad]
  · next hgood =>
      rw [if_neg hgood]
      split at h
      · rw [h]
      · next hlearned =>
          simp only [not_or,Bool.not_eq_false] at hgood hlearned
          obtain ⟨s,hrun,⟨hover,-⟩ | ⟨-,ranked,-,rfl⟩⟩ := h
          · exact absurd hover (run_searching hgood.1 hlearned.2.1 hlearned.2.2 hrun).not_overflow
          · rfl

/-- Each plan that is returned is a raw plan. -/
theorem Plans.rawPlan {out : List ActionPlan} {status : Status}
    (h : Plans U g context config capacity (status,out)) {p : ActionPlan} (hp : p ∈ out) :
    RawPlan U g context (config.getD .default) p := by
  unfold Plans at h
  dsimp only at h
  split at h
  · obtain ⟨-,rfl⟩ := Prod.mk.inj h
    cases hp
  · next hgood =>
      split at h
      · obtain ⟨-,rfl⟩ := Prod.mk.inj h
        cases hp
      · next hlearned =>
          simp only [not_or,Bool.not_eq_false] at hgood hlearned
          obtain ⟨s,hrun,⟨-,hformat⟩ | ⟨hfinished,ranked,hranked,hok⟩⟩ := h
          · obtain ⟨-,rfl⟩ := Prod.mk.inj hformat
            cases hp
          · obtain ⟨-,rfl⟩ := Prod.mk.inj hok
            obtain ⟨w,hw,rfl⟩ := List.mem_map.mp hp
            have hvalid := hgood.1
            simp only [PlanConfig.valid,Bool.and_eq_true,decide_eq_true_eq] at hvalid
            exact ((run_searching hgood.1 hlearned.2.1 hlearned.2.2 hrun).finish hvalid.1.1.1
              hfinished (hranked.mem_iff.mp (List.mem_of_mem_take hw))).2

/-- No two plans have the same tokens. -/
theorem Plans.distinct (hg : (g.nodes.map (·.token)).Nodup) {out : List ActionPlan}
    {status : Status} (h : Plans U g context config capacity (status,out)) :
    (out.map fun p => tokenPath p.steps).Nodup := by
  unfold Plans at h
  dsimp only at h
  split at h
  · obtain ⟨-,rfl⟩ := Prod.mk.inj h
    exact List.nodup_nil
  · next hgood =>
      split at h
      · obtain ⟨-,rfl⟩ := Prod.mk.inj h
        exact List.nodup_nil
      · next hlearned =>
          simp only [not_or,Bool.not_eq_false] at hgood hlearned
          obtain ⟨s,hrun,⟨-,hformat⟩ | ⟨-,ranked,hranked,hok⟩⟩ := h
          · obtain ⟨-,rfl⟩ := Prod.mk.inj hformat
            exact List.nodup_nil
          · obtain ⟨-,rfl⟩ := Prod.mk.inj hok
            have hfinish := (run_distinct hg hgood.1 hlearned.2.1 hlearned.2.2 hrun).finish
            have hperm := (hranked.perm.map PlanWork.path).nodup_iff.mpr hfinish
            rw [List.map_map]
            exact hperm.sublist ((List.take_sublist _ _).map _)

/-- Distinct tokens leave the planner no choice. -/
theorem Plans.unique (hg : (g.nodes.map (·.token)).Nodup) {result result' : Status×List ActionPlan}
    (h : Plans U g context config capacity result) (h' : Plans U g context config capacity result') :
    result = result' := by
  unfold Plans at h h'
  dsimp only at h h'
  split at h
  · next hbad =>
      rw [if_pos hbad] at h'
      rw [h,h']
  · next hgood =>
      rw [if_neg hgood] at h'
      split at h
      · next hlearned =>
          rw [if_pos hlearned] at h'
          rw [h,h']
      · next hlearned =>
          rw [if_neg hlearned] at h'
          simp only [not_or,Bool.not_eq_false] at hgood hlearned
          have hvalid := hgood.1
          simp only [PlanConfig.valid,Bool.and_eq_true,decide_eq_true_eq] at hvalid
          obtain ⟨s,hrun,⟨hover,-⟩ | ⟨hfinished,ranked,hranked,rfl⟩⟩ := h
          · exact absurd hover (run_searching hgood.1 hlearned.2.1 hlearned.2.2 hrun).not_overflow
          obtain ⟨s',hrun',⟨hover,-⟩ | ⟨hfinished',ranked',hranked',rfl⟩⟩ := h'
          · exact absurd hover (run_searching hgood.1 hlearned.2.1 hlearned.2.2 hrun').not_overflow
          have hsame : s = s' := Runs.terminal_unique
            (fun s t h hstep => h.step hvalid.1.2 hlearned.2.1 hlearned.2.2 hstep)
            (fun s t t' h ht ht' => ht.unique hg h ht') (searching_start hvalid.1.2)
            hrun hfinished.stuck hrun' hfinished'.stuck
          subst hsame
          have hsearching := run_searching hgood.1 hlearned.2.1 hlearned.2.2 hrun
          have htie := hranked.unique (fun a ha b hb hab hba => by
            obtain ⟨hassembled,hraw⟩ := hsearching.finish hvalid.1.1.1 hfinished ha
            exact hassembled.tie hg (hsearching.finish hvalid.1.1.1 hfinished hb).1 hraw.nonempty hab
              hba) hranked'
          rw [htie]

end Search

end Atperson.Core
