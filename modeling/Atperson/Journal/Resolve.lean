import Atperson.Intent.State
import Atperson.Runs.Guarded

/-!
# Expectation resolution

The state of an expectation is derived from events, intents and the clock; a pass writes down
the terminal ones. While the journal only grows and the clock does not go back, a state only
climbs, so that a state that was left is never recorded again.
-/
namespace Atperson.Journal
open Wire Runs
open Atperson.Intent (latestIntent latestIntents latestIntents_subset mem_latestIntents)

/-! ## The pass -/

structure ResolutionReport where
  evaluated : ℕ
  pending : ℕ
  metWritten : ℕ
  unmetWritten : ℕ
  expiredWritten : ℕ
  stateChanged : ℕ
  skippedAlready : ℕ
  deriving DecidableEq

def ResolutionReport.zero : ResolutionReport := ⟨0,0,0,0,0,0,0⟩

/-- A line that is written. -/
def ResolutionReport.count (r : ResolutionReport) : JournalExpectationState → ResolutionReport
  | .met => {r with metWritten := r.metWritten+1}
  | .unmet => {r with unmetWritten := r.unmetWritten+1}
  | .expired => {r with expiredWritten := r.expiredWritten+1}
  | _ => r

/-- A pass on its way, with the lines it appends. -/
structure Resolving where
  report : ResolutionReport
  lines : List JournalResolution
  deriving DecidableEq

section Pass
variable (journal : JournalContents) (now : ℤ) (time : Bytes)

def stateOf (action : JournalAction) : JournalExpectationState :=
  deriveExpectationState action journal.events now journal.intents

/-- The recorded states of an action. -/
def recorded (id : Bytes) : List JournalExpectationState :=
  (journal.resolutions.filter fun r => r.actionId = id).map JournalResolution.state

/-- The line that records a state. -/
def resolutionLine (action : JournalAction) (state : JournalExpectationState) :
    JournalResolution where
  actionId := action.id
  state
  atEpoch := if 0 < now then UInt64.ofInt now else 0
  time

def resolveAction (p : Resolving) (action : JournalAction) : Resolving :=
  let state := stateOf journal now action
  if state = .none then p
  else
    let report := {p.report with evaluated := p.report.evaluated+1}
    if state = .pending then {p with report := {report with pending := report.pending+1}}
    else
      let prior := recorded journal action.id
      if prior.contains state then
        {p with report := {report with skippedAlready := report.skippedAlready+1}}
      else
        let report := report.count state
        ⟨if prior.any fun s => s ≠ state then {report with stateChanged := report.stateChanged+1}
          else report,p.lines++[resolutionLine now time action state]⟩

/-- `resolve_expectations`: its report, and the lines it appends. -/
def resolveExpectations : Resolving := journal.actions.foldl (resolveAction journal now time) ⟨.zero,[]⟩

/-- A state of its own that is not recorded yet. -/
def Unrecorded (action : JournalAction) : Prop :=
  stateOf journal now action ≠ .none ∧ stateOf journal now action ≠ .pending ∧
    stateOf journal now action ∉ recorded journal action.id

instance (action : JournalAction) : Decidable (Unrecorded journal now action) :=
  inferInstanceAs (Decidable (_ ∧ _ ∧ _))

variable {journal now time}

theorem resolveAction_lines (p : Resolving) (action : JournalAction) :
    (resolveAction journal now time p action).lines =
      p.lines++if Unrecorded journal now action then
        [resolutionLine now time action (stateOf journal now action)] else [] := by
  unfold resolveAction
  simp only
  split
  · rename_i hnone
    rw [if_neg fun h : Unrecorded journal now action => h.1 hnone,List.append_nil]
  · rename_i hsome
    split
    · rename_i hpending
      rw [if_neg fun h : Unrecorded journal now action => h.2.1 hpending,List.append_nil]
    · rename_i hterminal
      split
      · rename_i hprior
        rw [if_neg fun h : Unrecorded journal now action =>
          h.2.2 (List.contains_iff_mem.mp hprior),List.append_nil]
      · rename_i hprior
        have hnew : Unrecorded journal now action :=
          ⟨hsome,hterminal,fun h => hprior (List.contains_iff_mem.mpr h)⟩
        rw [if_pos hnew]

/-- The pass writes a line for each action whose state is not recorded yet. -/
theorem resolveExpectations_lines : (resolveExpectations journal now time).lines =
    (journal.actions.filter fun a => Unrecorded journal now a).map fun a =>
      resolutionLine now time a (stateOf journal now a) := by
  have hfold : ∀ (as : List JournalAction) (p : Resolving),
      (as.foldl (resolveAction journal now time) p).lines =
        p.lines++(as.filter fun a => Unrecorded journal now a).map fun a =>
          resolutionLine now time a (stateOf journal now a) := by
    intro as
    induction as with
    | nil => exact fun p => (List.append_nil _).symm
    | cons a rest ih =>
        intro p
        rw [List.foldl_cons,ih,resolveAction_lines,List.append_assoc]
        by_cases ha : Unrecorded journal now a
        · rw [if_pos ha,List.filter_cons_of_pos (by simpa using ha)]
          rfl
        · rw [if_neg ha,List.filter_cons_of_neg (by simpa using ha)]
          rfl
  exact hfold journal.actions ⟨.zero,[]⟩

end Pass

/-! ## States climb -/

/-- The order of the states. -/
def JournalExpectationState.rank : JournalExpectationState → ℕ
  | .none | .pending => 0
  | .expired => 1
  | .unmet => 2
  | .met => 3

/-- Only the states that are never recorded share a rank. -/
theorem JournalExpectationState.rank_inj : ∀ s s' : JournalExpectationState, s.rank = s'.rank →
    1 ≤ s.rank → s = s' := by
  intro s s' h hpos
  cases s <;> cases s' <;> first | rfl | exact absurd h (by decide) | exact absurd hpos (by decide)

/-- A state that is nothing stays nothing, and any other does not go down. -/
def Climbs (before after : JournalExpectationState) : Prop :=
  (before = .none ↔ after = .none) ∧ before.rank ≤ after.rank

section Derive
variable {action : JournalAction} {events events' : List JournalEvent}
  {intents intents' : List JournalIntent} {now now' : ℤ}

/-- The action has a prediction to judge. -/
def JournalAction.Judged (action : JournalAction) : Prop :=
  action.expectation.isSome = true ∧ action.outcome = .executed ∧ action.epoch ≠ 0

/-- An event within the window. -/
def OnTime (action : JournalAction) (event : JournalEvent) : Prop :=
  action.epoch < event.epoch ∧
    event.epoch-action.epoch ≤ UInt64.ofNat kExpectationWindowSeconds

instance (action : JournalAction) (event : JournalEvent) : Decidable (OnTime action event) :=
  inferInstanceAs (Decidable (_ ∧ _))

/-- A line of an intent with the action has expired. -/
def LineExpired (action : JournalAction) (now : ℤ) (intent : JournalIntent) : Prop :=
  deriveIntentState intent now = .expired ∧ action.id ∈ intent.actions

instance (action : JournalAction) (now : ℤ) (intent : JournalIntent) :
    Decidable (LineExpired action now intent) :=
  inferInstanceAs (Decidable (_ ∧ _))

/-- What a derived state says, in the order the source decides. -/
inductive Derived (action : JournalAction) (events : List JournalEvent) (now : ℤ)
    (intents : List JournalIntent) : JournalExpectationState → Prop
  | none (h : ¬action.Judged) : Derived action events now intents .none
  | met (h : action.Judged) (event : JournalEvent) (he : event ∈ linkedEvents action events)
      (hon : OnTime action event) : Derived action events now intents .met
  | late (h : action.Judged) (hno : ∀ e ∈ linkedEvents action events, ¬OnTime action e)
      (hcontact : linkedEvents action events ≠ []) : Derived action events now intents .unmet
  | invited (h : action.Judged) (hsilent : linkedEvents action events = [])
      (intent : JournalIntent) (hi : intent ∈ intents) (hexpired : LineExpired action now intent) :
      Derived action events now intents .unmet
  | expired (h : action.Judged) (hsilent : linkedEvents action events = [])
      (hopen : ∀ i ∈ intents, ¬LineExpired action now i)
      (hlate : action.epoch.toInt64.toInt+kExpectationWindowSeconds < now) :
      Derived action events now intents .expired
  | pending (h : action.Judged) (hsilent : linkedEvents action events = [])
      (hopen : ∀ i ∈ intents, ¬LineExpired action now i)
      (hearly : now ≤ action.epoch.toInt64.toInt+kExpectationWindowSeconds) :
      Derived action events now intents .pending

theorem derived (action : JournalAction) (events : List JournalEvent) (now : ℤ)
    (intents : List JournalIntent) :
    Derived action events now intents (deriveExpectationState action events now intents) := by
  unfold deriveExpectationState
  split
  · rename_i hnone
    refine .none fun h => ?_
    rcases hnone with hnone | hnone | hnone
    · exact absurd h.1 (by simpa using hnone)
    · exact hnone h.2.1
    · exact h.2.2 hnone
  · rename_i hsome
    simp only [not_or] at hsome
    have hj : action.Judged := ⟨by simpa [← Option.isSome_iff_ne_none] using hsome.1,
      not_not.mp hsome.2.1,hsome.2.2⟩
    simp only
    split
    · rename_i hmet
      obtain ⟨event,he,hon⟩ := List.any_eq_true.mp hmet
      exact .met hj event he (of_decide_eq_true hon)
    · rename_i hno
      have hno : ∀ e ∈ linkedEvents action events, ¬OnTime action e :=
        fun e he hon => hno (List.any_eq_true.mpr ⟨e,he,decide_eq_true hon⟩)
      split
      · rename_i hcontact
        exact .late hj hno hcontact
      · rename_i hsilent
        have hsilent := not_not.mp hsilent
        split
        · rename_i hany
          obtain ⟨intent,hi,hexpired⟩ := List.any_eq_true.mp hany
          obtain ⟨hstate,hin⟩ := Bool.and_eq_true_iff.mp hexpired
          exact .invited hj hsilent intent hi
            ⟨of_decide_eq_true hstate,List.contains_iff_mem.mp hin⟩
        · rename_i hany
          have hopen : ∀ i ∈ intents, ¬LineExpired action now i := fun i hi h =>
            hany (List.any_eq_true.mpr ⟨i,hi,Bool.and_eq_true_iff.mpr
              ⟨decide_eq_true h.1,List.contains_iff_mem.mpr h.2⟩⟩)
          split
          · rename_i hlate
            exact .expired hj hsilent hopen hlate
          · rename_i hearly
            exact .pending hj hsilent hopen (not_lt.mp hearly)

theorem linkedEvents_subset (h : events ⊆ events') :
    linkedEvents action events ⊆ linkedEvents action events' := by
  intro e he
  obtain ⟨hmem,hlinked⟩ := List.mem_filter.mp he
  exact List.mem_filter.mpr ⟨h hmem,hlinked⟩

/-- A line that has expired stays so. -/
theorem LineExpired.later {intent : JournalIntent} (h : LineExpired action now intent)
    (hle : now ≤ now') : LineExpired action now' intent := by
  obtain ⟨hstate,hin⟩ := h
  refine ⟨?_,hin⟩
  unfold deriveIntentState at hstate ⊢
  split at hstate
  · rename_i hterminal
    rw [if_pos hterminal]
    exact hstate
  · rename_i hopen
    rw [if_neg hopen]
    split at hstate
    · rename_i hpassed
      rw [if_pos (hpassed.trans_le hle)]
    · split at hstate <;> cases hstate

/-- With more events, more lines and a later clock, the state is no lower. -/
theorem derive_climbs (hevents : events ⊆ events') (hintents : intents ⊆ intents')
    (hle : now ≤ now') :
    Climbs (deriveExpectationState action events now intents)
      (deriveExpectationState action events' now' intents') := by
  have hbefore := derived action events now intents
  have hafter := derived action events' now' intents'
  generalize deriveExpectationState action events now intents = before at hbefore
  generalize deriveExpectationState action events' now' intents' = after at hafter
  have hlinked := @linkedEvents_subset action events events' hevents
  cases hafter with
  | none h =>
      cases hbefore with
      | none => exact ⟨Iff.rfl,le_rfl⟩
      | _ hj => exact absurd hj h
  | met h =>
      cases hbefore with
      | none hj => exact absurd h hj
      | _ => exact ⟨⟨nofun,nofun⟩,by decide⟩
  | late h hno =>
      cases hbefore with
      | none hj => exact absurd h hj
      | met _ event he hon => exact absurd hon (hno event (hlinked he))
      | _ => exact ⟨⟨nofun,nofun⟩,by decide⟩
  | invited h hsilent =>
      cases hbefore with
      | none hj => exact absurd h hj
      | met _ event he => exact absurd (hlinked he) (by rw [hsilent]; exact List.not_mem_nil)
      | _ => exact ⟨⟨nofun,nofun⟩,by decide⟩
  | expired h hsilent hopen =>
      have hnone : linkedEvents action events = [] := List.subset_nil.mp (hsilent ▸ hlinked)
      cases hbefore with
      | none hj => exact absurd h hj
      | met _ event he => exact absurd (hlinked he) (by rw [hsilent]; exact List.not_mem_nil)
      | late _ _ hcontact => exact absurd hnone hcontact
      | invited _ _ intent hi hexpired =>
          exact absurd (hexpired.later hle) (hopen intent (hintents hi))
      | _ => exact ⟨⟨nofun,nofun⟩,by decide⟩
  | pending h hsilent hopen hearly =>
      have hnone : linkedEvents action events = [] := List.subset_nil.mp (hsilent ▸ hlinked)
      cases hbefore with
      | none hj => exact absurd h hj
      | met _ event he => exact absurd (hlinked he) (by rw [hsilent]; exact List.not_mem_nil)
      | late _ _ hcontact => exact absurd hnone hcontact
      | invited _ _ intent hi hexpired =>
          exact absurd (hexpired.later hle) (hopen intent (hintents hi))
      | expired _ _ _ hlate => omega
      | pending => exact ⟨⟨nofun,nofun⟩,by decide⟩

end Derive

/-! ## Superseded lines -/

section Superseded
variable (action : JournalAction) (events : List JournalEvent) (now : ℤ)
  (intents : List JournalIntent)

/-- Where the action is judged by its intents and no last line with it has expired, no line
that was superseded has. -/
def Undisturbed : Prop :=
  action.Judged → linkedEvents action events = [] →
    (∀ i ∈ latestIntents intents, ¬LineExpired action now i) →
    ∀ i ∈ intents, latestIntent intents i.id ≠ some i → ¬LineExpired action now i

variable {action events now intents}

theorem derive_latest_iff : deriveExpectationState action events now intents =
    deriveExpectationState action events now (latestIntents intents) ↔
      Undisturbed action events now intents := by
  have hall := derived action events now intents
  have hlast := derived action events now (latestIntents intents)
  constructor
  · intro hsame hj hsilent hopen i hi hnot hexpired
    rw [hsame] at hall
    generalize deriveExpectationState action events now (latestIntents intents) = state
      at hall hlast
    cases hall with
    | none h => exact h hj
    | met _ event he => exact absurd he (by rw [hsilent]; exact List.not_mem_nil)
    | late _ _ hcontact => exact hcontact hsilent
    | expired _ _ hno => exact hno i hi hexpired
    | pending _ _ hno => exact hno i hi hexpired
    | invited =>
        cases hlast with
        | late _ _ hcontact => exact hcontact hsilent
        | invited _ _ j hjmem hjexpired => exact hopen j hjmem hjexpired
  · intro h
    generalize deriveExpectationState action events now intents = state at hall
    generalize deriveExpectationState action events now (latestIntents intents) = state' at hlast
    have hsubset := latestIntents_subset intents
    cases hall with
    | none hj =>
        cases hlast with
        | none => rfl
        | _ hj' => exact absurd hj' hj
    | met hj event he hon =>
        cases hlast with
        | none hj' => exact absurd hj hj'
        | met => rfl
        | late _ hno => exact absurd hon (hno event he)
        | _ _ hsilent => exact absurd he (by rw [hsilent]; exact List.not_mem_nil)
    | late hj hno hcontact =>
        cases hlast with
        | none hj' => exact absurd hj hj'
        | met _ event he hon => exact absurd hon (hno event he)
        | late => rfl
        | _ _ hsilent => exact absurd hsilent hcontact
    | invited hj hsilent i hi hexpired =>
        have hclash (hopen : ∀ j ∈ latestIntents intents, ¬LineExpired action now j) : False := by
          by_cases hlatest : latestIntent intents i.id = some i
          · exact hopen i (mem_latestIntents.mpr hlatest) hexpired
          · exact h hj hsilent hopen i hi hlatest hexpired
        cases hlast with
        | none hj' => exact absurd hj hj'
        | met _ event he => exact absurd he (by rw [hsilent]; exact List.not_mem_nil)
        | late _ _ hcontact => exact absurd hsilent hcontact
        | invited => rfl
        | expired _ _ hopen => exact (hclash hopen).elim
        | pending _ _ hopen => exact (hclash hopen).elim
    | expired hj hsilent hopen hlate =>
        cases hlast with
        | none hj' => exact absurd hj hj'
        | met _ event he => exact absurd he (by rw [hsilent]; exact List.not_mem_nil)
        | late _ _ hcontact => exact absurd hsilent hcontact
        | invited _ _ i hi hexpired => exact absurd hexpired (hopen i (hsubset hi))
        | expired => rfl
        | pending _ _ _ hearly => omega
    | pending hj hsilent hopen hearly =>
        cases hlast with
        | none hj' => exact absurd hj hj'
        | met _ event he => exact absurd he (by rw [hsilent]; exact List.not_mem_nil)
        | late _ _ hcontact => exact absurd hsilent hcontact
        | invited _ _ i hi hexpired => exact absurd hexpired (hopen i (hsubset hi))
        | expired _ _ _ hlate => omega
        | pending => rfl

/-- The journal with the last line of each intent. -/
def JournalContents.current (journal : JournalContents) : JournalContents :=
  {journal with intents := latestIntents journal.intents}

/-- A derived state is the same on the last lines exactly where no superseded line disturbs
it, and a pass over undisturbed actions does the same. -/
theorem superseded_lines_are_history (journal : JournalContents) (now : ℤ) :
    (∀ action, stateOf journal now action = stateOf journal.current now action ↔
      Undisturbed action journal.events now journal.intents) ∧
    ((∀ a ∈ journal.actions, Undisturbed a journal.events now journal.intents) →
      ∀ time, resolveExpectations journal now time =
        resolveExpectations journal.current now time) := by
  refine ⟨fun action => derive_latest_iff,fun h time => ?_⟩
  refine List.foldl_ext _ _ _ fun p a ha => ?_
  have hstate : stateOf journal now a = stateOf journal.current now a :=
    derive_latest_iff.mpr (h a ha)
  unfold resolveAction
  rw [hstate]
  rfl

namespace Sample

/-- 2024-01-01. -/
def newYear : ℕ := 1704067200

def said (id : UInt8) : JournalAction where
  id := [id]
  kind := []
  text := []
  digest := []
  outcome := .executed
  reason := []
  uri := []
  cid := []
  time := utf8 "2024-01-01T00:00:00Z"
  mac := none
  expectation := some ⟨utf8 "social",(Double.finite 0).toSingle,[]⟩

def line (actions : List Bytes) (state : IntentState) : JournalIntent where
  id := utf8 "root"
  actions
  responder := utf8 "anyone"
  expiresAtEpoch := UInt64.ofNat (newYear+100)
  expiresAt := []
  maxContinuations := 1
  state
  atEpoch := UInt64.ofNat newYear
  time := []

/-- An intent that was continued and then closed: its first lines expire behind its end. -/
def closedIntent : List JournalIntent :=
  [line [[1]] .opened,line [[1],[2]] .opened,line [[1],[2]] .closed]

theorem closed_intent_expires :
    deriveExpectationState (said 1) [] (newYear+200) closedIntent = .unmet ∧
    deriveExpectationState (said 1) [] (newYear+200) (latestIntents closedIntent) = .pending := by
  decide +kernel

end Sample

end Superseded

/-! ## A journal that grows -/

/-- The journal with the clock of the last writer. -/
structure Chronicle where
  journal : JournalContents
  clock : ℤ

/-- An append, or a pass, which may end behind some of its lines. -/
inductive ChronicleAct where
  | action (a : JournalAction)
  | event (e : JournalEvent)
  | valence (v : JournalValence)
  | intent (i : JournalIntent)
  | resolve (time : Bytes) (ending : Option ℕ)

structure ChronicleStep where
  wait : ℕ
  act : ChronicleAct

def JournalContents.resolve (journal : JournalContents) (now : ℤ) (time : Bytes)
    (ending : Option ℕ) : JournalContents :=
  let lines := (resolveExpectations journal now time).lines
  {journal with resolutions := journal.resolutions++lines.take (ending.getD lines.length)}

def JournalContents.after (journal : JournalContents) (now : ℤ) : ChronicleAct → JournalContents
  | .action a => {journal with actions := journal.actions++[a]}
  | .event e => {journal with events := journal.events++[e]}
  | .valence v => {journal with valence := journal.valence++[v]}
  | .intent i => {journal with intents := journal.intents++[i]}
  | .resolve time ending => journal.resolve now time ending

namespace Chronicle

def start (clock : ℤ) : Chronicle := ⟨{},clock⟩

def step (s : Chronicle) (x : ChronicleStep) : Chronicle :=
  ⟨s.journal.after (s.clock+x.wait) x.act,s.clock+x.wait⟩

/-- No executed action has the id of one before it. -/
def Distinct (s : Chronicle) (x : ChronicleStep) : Prop :=
  match x.act with
  | .action a => a.outcome = .executed →
      ∀ b ∈ s.journal.actions, b.outcome = .executed → b.id ≠ a.id
  | _ => True

end Chronicle

section Grow
variable {journal : JournalContents} {now : ℤ}

theorem after_grows (journal : JournalContents) (now : ℤ) (act : ChronicleAct) :
    journal.events ⊆ (journal.after now act).events ∧
      journal.intents ⊆ (journal.after now act).intents := by
  cases act with
  | event e => exact ⟨List.subset_append_left _ _,List.Subset.refl _⟩
  | intent i => exact ⟨List.Subset.refl _,List.subset_append_left _ _⟩
  | _ => exact ⟨List.Subset.refl _,List.Subset.refl _⟩

theorem Climbs.trans {s s' s'' : JournalExpectationState} (h : Climbs s s') (h' : Climbs s' s'') :
    Climbs s s'' :=
  ⟨h.1.trans h'.1,h.2.trans h'.2⟩

theorem step_climbs (s : Chronicle) (x : ChronicleStep) (a : JournalAction) :
    Climbs (stateOf s.journal s.clock a) (stateOf (s.step x).journal (s.step x).clock a) := by
  obtain ⟨hevents,hintents⟩ := after_grows s.journal (s.clock+x.wait) x.act
  exact derive_climbs hevents hintents (Int.le_add_of_nonneg_right (Int.natCast_nonneg _))

theorem run_climbs (s : Chronicle) (steps : List ChronicleStep) (a : JournalAction) :
    Climbs (stateOf s.journal s.clock a)
      (stateOf (runFrom Chronicle.step s steps).journal (runFrom Chronicle.step s steps).clock
        a) := by
  induction steps generalizing s with
  | nil => exact ⟨Iff.rfl,le_rfl⟩
  | cons x rest ih => exact (step_climbs s x a).trans (ih (s.step x))

/-- The executed actions of a journal. -/
def JournalContents.executed (journal : JournalContents) : List JournalAction :=
  journal.actions.filter fun a => a.outcome = .executed

/-- What the lines of a journal say of the states at a time. -/
structure Kept (journal : JournalContents) (now : ℤ) : Prop where
  distinct : (journal.executed.map JournalAction.id).Nodup
  known : ∀ r ∈ journal.resolutions, ∃ a ∈ journal.actions, a.id = r.actionId ∧ a.Judged
  terminal : ∀ r ∈ journal.resolutions, 1 ≤ r.state.rank
  rising : ∀ a ∈ journal.actions, a.Judged → (recorded journal a.id).Pairwise
    fun s s' => s.rank < s'.rank
  below : ∀ a ∈ journal.actions, a.Judged →
    ∀ s ∈ recorded journal a.id, s.rank ≤ (stateOf journal now a).rank

theorem judged_of_state {a : JournalAction} (hsome : stateOf journal now a ≠ .none) :
    a.Judged := by
  have hd := derived a journal.events now journal.intents
  unfold stateOf at hsome
  generalize deriveExpectationState a journal.events now journal.intents = state at hd hsome
  cases hd with
  | none => exact absurd rfl hsome
  | _ hj => exact hj

theorem judged_of_unrecorded {a : JournalAction} (h : Unrecorded journal now a) : a.Judged :=
  judged_of_state h.1

theorem Kept.same (h : Kept journal now) {a b : JournalAction} (ha : a ∈ journal.actions)
    (hb : b ∈ journal.actions) (hja : a.Judged) (hjb : b.Judged) (hid : a.id = b.id) : a = b :=
  List.inj_on_of_nodup_map h.distinct (List.mem_filter.mpr ⟨ha,decide_eq_true hja.2.1⟩)
    (List.mem_filter.mpr ⟨hb,decide_eq_true hjb.2.1⟩) hid

/-- The lines of a pass that are about an action. -/
theorem Kept.lines (h : Kept journal now) (time : Bytes) {a : JournalAction}
    (ha : a ∈ journal.actions) (hj : a.Judged) :
    ((resolveExpectations journal now time).lines.filter fun r => r.actionId = a.id) =
      if Unrecorded journal now a then [resolutionLine now time a (stateOf journal now a)]
      else [] := by
  have hexecuted : (journal.actions.filter fun b => Unrecorded journal now b).Sublist
      journal.executed := by
    have hsub : (journal.actions.filter fun b => Unrecorded journal now b) =
        journal.executed.filter fun b => Unrecorded journal now b := by
      rw [JournalContents.executed,List.filter_filter]
      refine List.filter_congr fun b _ => ?_
      by_cases hb : Unrecorded journal now b
      · simp [hb,(judged_of_unrecorded hb).2.1]
      · simp [hb]
    rw [hsub]
    exact List.filter_sublist
  have hnodup : ((journal.actions.filter fun b => Unrecorded journal now b).map
      JournalAction.id).Nodup := h.distinct.sublist (hexecuted.map _)
  rw [resolveExpectations_lines,List.filter_map]
  have honly : (journal.actions.filter fun b => Unrecorded journal now b).filter
      ((fun r : JournalResolution => decide (r.actionId = a.id)) ∘
        fun b => resolutionLine now time b (stateOf journal now b)) =
      if Unrecorded journal now a then [a] else [] := by
    have hmem : ∀ b ∈ journal.actions.filter (fun b => Unrecorded journal now b),
        b.id = a.id → b = a := by
      intro b hb hid
      obtain ⟨hb,hu⟩ := List.mem_filter.mp hb
      exact h.same hb ha (judged_of_unrecorded (of_decide_eq_true hu)) hj hid
    have hin : a ∈ journal.actions.filter (fun b => Unrecorded journal now b) ↔
        Unrecorded journal now a :=
      ⟨fun hm => of_decide_eq_true (List.mem_filter.mp hm).2,
        fun hu => List.mem_filter.mpr ⟨ha,decide_eq_true hu⟩⟩
    rw [← if_congr hin rfl rfl]
    generalize journal.actions.filter (fun b => Unrecorded journal now b) = bs at hnodup hmem
    clear hin hexecuted
    induction bs with
    | nil => rfl
    | cons b rest ih =>
        obtain ⟨hb,hrest⟩ := List.nodup_cons.mp hnodup
        obtain ⟨hone,hmore⟩ := List.forall_mem_cons.mp hmem
        have ih := ih hrest hmore
        by_cases hid : b.id = a.id
        · obtain rfl := hone hid
          have hout : b ∉ rest := fun hm => hb (List.mem_map_of_mem hm)
          rw [if_neg hout] at ih
          rw [List.filter_cons_of_pos (by simp [resolutionLine]),ih,if_pos List.mem_cons_self]
        · have hne : a ≠ b := fun he => hid (he ▸ rfl)
          rw [List.filter_cons_of_neg (by simpa [resolutionLine] using hid),ih]
          exact if_congr (by simp [hne]) rfl rfl
  rw [honly]
  split
  · rfl
  · rfl

theorem recorded_append (journal : JournalContents) (lines : List JournalResolution)
    (id : Bytes) :
    recorded {journal with resolutions := journal.resolutions++lines} id =
      recorded journal id++(lines.filter fun r => r.actionId = id).map JournalResolution.state := by
  unfold recorded
  rw [List.filter_append,List.map_append]

/-- A pass, cut short or not, records for an action its state or nothing. -/
theorem Kept.recorded_resolve (h : Kept journal now) (time : Bytes) (ending : Option ℕ)
    {a : JournalAction} (ha : a ∈ journal.actions) (hj : a.Judged) :
    recorded (journal.resolve now time ending) a.id = recorded journal a.id ∨
      (Unrecorded journal now a ∧ recorded (journal.resolve now time ending) a.id =
        recorded journal a.id++[stateOf journal now a]) := by
  have hlines := h.lines time ha hj
  unfold JournalContents.resolve
  simp only
  rw [recorded_append]
  generalize (resolveExpectations journal now time).lines = lines at hlines ⊢
  have hprefix := (List.take_prefix (ending.getD lines.length) lines).sublist.filter
    fun r => decide (r.actionId = a.id)
  rw [hlines] at hprefix
  split at hprefix
  · rename_i hu
    rcases List.sublist_singleton.mp hprefix with hnone | hone
    · rw [hnone,List.map_nil,List.append_nil]
      exact .inl rfl
    · rw [hone]
      exact .inr ⟨hu,rfl⟩
  · rw [List.sublist_nil.mp hprefix,List.map_nil,List.append_nil]
    exact .inl rfl

theorem rank_of_unrecorded {a : JournalAction} (h : Unrecorded journal now a) :
    1 ≤ (stateOf journal now a).rank := by
  obtain ⟨hsome,hterminal,-⟩ := h
  generalize stateOf journal now a = state at hsome hterminal
  cases state with
  | none => exact absurd rfl hsome
  | pending => exact absurd rfl hterminal
  | _ => decide

theorem Kept.recorded_terminal (h : Kept journal now) {id : Bytes} {s : JournalExpectationState}
    (hs : s ∈ recorded journal id) : 1 ≤ s.rank := by
  obtain ⟨r,hr,rfl⟩ := List.mem_map.mp hs
  exact h.terminal r (List.mem_of_mem_filter hr)

theorem Kept.resolve (h : Kept journal now) (time : Bytes) (ending : Option ℕ) :
    Kept (journal.resolve now time ending) now := by
  have hline : ∀ r ∈ (journal.resolve now time ending).resolutions, r ∈ journal.resolutions ∨
      ∃ a ∈ journal.actions, Unrecorded journal now a ∧
        r = resolutionLine now time a (stateOf journal now a) := by
    intro r hr
    refine (List.mem_append.mp hr).imp_right fun hr => ?_
    have hr := List.mem_of_mem_take hr
    rw [resolveExpectations_lines] at hr
    obtain ⟨a,ha,rfl⟩ := List.mem_map.mp hr
    obtain ⟨ha,hu⟩ := List.mem_filter.mp ha
    exact ⟨a,ha,of_decide_eq_true hu,rfl⟩
  refine ⟨h.distinct,fun r hr => ?_,fun r hr => ?_,fun a ha hj => ?_,fun a ha hj s hs => ?_⟩
  · rcases hline r hr with hr | ⟨a,ha,hu,rfl⟩
    · exact h.known r hr
    · exact ⟨a,ha,rfl,judged_of_unrecorded hu⟩
  · rcases hline r hr with hr | ⟨a,ha,hu,rfl⟩
    · exact h.terminal r hr
    · exact rank_of_unrecorded hu
  · rcases h.recorded_resolve time ending ha hj with hsame | ⟨hu,hmore⟩
    · rw [hsame]
      exact h.rising a ha hj
    · rw [hmore]
      refine List.pairwise_append.mpr ⟨h.rising a ha hj,List.pairwise_singleton _ _,?_⟩
      intro s hs s' hs'
      rw [List.mem_singleton.mp hs']
      refine lt_of_le_of_ne (h.below a ha hj s hs) fun hrank => hu.2.2 ?_
      rw [← JournalExpectationState.rank_inj _ _ hrank (h.recorded_terminal hs)]
      exact hs
  · rcases h.recorded_resolve time ending ha hj with hsame | ⟨-,hmore⟩
    · rw [hsame] at hs
      exact h.below a ha hj s hs
    · rw [hmore] at hs
      rcases List.mem_append.mp hs with hs | hs
      · exact h.below a ha hj s hs
      · rw [List.mem_singleton.mp hs]
        exact le_rfl

theorem kept_start (clock : ℤ) : Kept (Chronicle.start clock).journal clock :=
  ⟨.nil,List.forall_mem_nil _,List.forall_mem_nil _,List.forall_mem_nil _,List.forall_mem_nil _⟩

/-- What the journal gains otherwise, and time, leave the lines right. -/
theorem Kept.grows (h : Kept journal now) {journal' : JournalContents} {now' : ℤ}
    (hresolutions : journal'.resolutions = journal.resolutions)
    (hactions : journal.actions ⊆ journal'.actions)
    (hnew : ∀ a ∈ journal'.actions, a ∈ journal.actions ∨
      ∀ b ∈ journal.actions, b.Judged → a.Judged → b.id ≠ a.id)
    (hdistinct : (journal'.executed.map JournalAction.id).Nodup)
    (hclimbs : ∀ a, Climbs (stateOf journal now a) (stateOf journal' now' a)) :
    Kept journal' now' := by
  have hrecorded : ∀ id, recorded journal' id = recorded journal id := fun id => by
    rw [recorded,recorded,hresolutions]
  have hnone : ∀ a ∈ journal'.actions, a.Judged → a ∈ journal.actions ∨
      recorded journal a.id = [] := by
    intro a ha hj
    refine (hnew a ha).imp_right fun hfresh => ?_
    refine List.map_eq_nil_iff.mpr (List.filter_eq_nil_iff.mpr fun r hr hid => ?_)
    obtain ⟨b,hb,hbid,hjb⟩ := h.known r hr
    exact hfresh b hb hjb hj (hbid.trans (of_decide_eq_true hid))
  refine ⟨hdistinct,fun r hr => ?_,fun r hr => ?_,fun a ha hj => ?_,fun a ha hj s hs => ?_⟩
  · rw [hresolutions] at hr
    obtain ⟨a,ha,hid⟩ := h.known r hr
    exact ⟨a,hactions ha,hid⟩
  · rw [hresolutions] at hr
    exact h.terminal r hr
  · rw [hrecorded]
    rcases hnone a ha hj with hold | hnil
    · exact h.rising a hold hj
    · rw [hnil]
      exact .nil
  · rw [hrecorded] at hs
    rcases hnone a ha hj with hold | hnil
    · exact (h.below a hold hj s hs).trans (hclimbs a).2
    · rw [hnil] at hs
      cases hs

theorem Kept.step {s : Chronicle} (h : Kept s.journal s.clock) {x : ChronicleStep}
    (hx : s.Distinct x) : Kept (s.step x).journal (s.step x).clock := by
  have hclimbs := step_climbs s x
  obtain ⟨wait,act⟩ := x
  cases act with
  | resolve time ending =>
      have hlater : Kept s.journal (s.clock+wait) :=
        h.grows rfl (List.Subset.refl _) (fun a ha => .inl ha) h.distinct fun a =>
          derive_climbs (List.Subset.refl _) (List.Subset.refl _)
            (Int.le_add_of_nonneg_right (Int.natCast_nonneg _))
      exact hlater.resolve time ending
  | action a =>
      refine h.grows rfl (List.subset_append_left _ _) (fun b hb => ?_) ?_ hclimbs
      · refine (List.mem_append.mp hb).imp_right fun hb c hc hjc hjb => ?_
        obtain rfl := List.mem_singleton.mp hb
        exact hx hjb.2.1 c hc hjc.2.1
      · change ((List.filter _ (s.journal.actions++[a])).map JournalAction.id).Nodup
        rw [List.filter_append,List.map_append]
        by_cases ha : a.outcome = .executed
        · rw [List.filter_cons_of_pos (by simpa using ha),List.filter_nil]
          refine List.nodup_append.mpr ⟨h.distinct,List.nodup_singleton _,?_⟩
          intro id hid id' hid'
          obtain ⟨b,hb,rfl⟩ := List.mem_map.mp hid
          obtain ⟨hb,hexecuted⟩ := List.mem_filter.mp hb
          rw [List.mem_singleton.mp hid']
          exact hx ha b hb (of_decide_eq_true hexecuted)
        · rw [List.filter_cons_of_neg (by simpa using ha),List.filter_nil,List.map_nil,
            List.append_nil]
          exact h.distinct
  | _ => exact h.grows rfl (List.Subset.refl _) (fun a ha => .inl ha) h.distinct hclimbs

/-! ## What a pass leaves -/

/-- No state is recorded twice for one action. -/
def NeverTwice (journal : JournalContents) : Prop := ∀ id, (recorded journal id).Nodup

/-- The last line of an action with a terminal state records that state. -/
def SettledAt (journal : JournalContents) (now : ℤ) : Prop :=
  ∀ a ∈ journal.actions, stateOf journal now a ≠ .none → stateOf journal now a ≠ .pending →
    (recorded journal a.id).getLast? = some (stateOf journal now a)

theorem Kept.neverTwice (h : Kept journal now) : NeverTwice journal := by
  intro id
  by_cases hid : ∃ a ∈ journal.actions, a.id = id ∧ a.Judged
  · obtain ⟨a,ha,rfl,hj⟩ := hid
    exact (h.rising a ha hj).imp fun hlt heq => absurd (heq ▸ hlt) (lt_irrefl _)
  · have hnil : recorded journal id = [] := by
      refine List.map_eq_nil_iff.mpr (List.filter_eq_nil_iff.mpr fun r hr hrid => hid ?_)
      obtain ⟨a,ha,haid,hj⟩ := h.known r hr
      exact ⟨a,ha,haid.trans (of_decide_eq_true hrid),hj⟩
    rw [hnil]
    exact .nil

theorem last_of_rising {states : List JournalExpectationState} {s : JournalExpectationState}
    (hrising : states.Pairwise fun a b => a.rank < b.rank) (hs : s ∈ states)
    (hbelow : ∀ x ∈ states, x.rank ≤ s.rank) : states.getLast? = some s := by
  rcases List.eq_nil_or_concat states with rfl | ⟨front,last,rfl⟩
  · cases hs
  · rw [List.concat_eq_append] at *
    rw [List.getLast?_concat]
    rcases List.mem_append.mp hs with hs | hs
    · have hlt := (List.pairwise_append.mp hrising).2.2 s hs last (List.mem_singleton_self _)
      have hle := hbelow last (List.mem_append_right _ (List.mem_singleton_self _))
      exact absurd hlt (not_lt.mpr hle)
    · rw [List.mem_singleton.mp hs]

/-- A whole pass records every terminal state that was not. -/
theorem Kept.resolved (h : Kept journal now) (time : Bytes) {a : JournalAction}
    (ha : a ∈ journal.actions) (hsome : stateOf journal now a ≠ .none)
    (hterminal : stateOf journal now a ≠ .pending) :
    stateOf journal now a ∈ recorded (journal.resolve now time none) a.id := by
  unfold JournalContents.resolve
  simp only [Option.getD_none,List.take_length]
  rw [recorded_append]
  by_cases hold : stateOf journal now a ∈ recorded journal a.id
  · exact List.mem_append_left _ hold
  · have hu : Unrecorded journal now a := ⟨hsome,hterminal,hold⟩
    rw [h.lines time ha (judged_of_unrecorded hu),if_pos hu]
    exact List.mem_append_right _ (List.mem_singleton_self _)

theorem Kept.settled (h : Kept journal now) (time : Bytes) :
    SettledAt (journal.resolve now time none) now := by
  intro a ha hsome hterminal
  have hkept := h.resolve time none
  have hmem := h.resolved time ha hsome hterminal
  have hj := judged_of_state hsome
  exact last_of_rising (hkept.rising a ha hj) hmem (hkept.below a ha hj)

theorem Kept.resolve_again (h : Kept journal now) (time time' : Bytes) :
    (resolveExpectations (journal.resolve now time none) now time').lines = [] := by
  rw [resolveExpectations_lines,List.map_eq_nil_iff]
  refine List.filter_eq_nil_iff.mpr fun a ha hu => ?_
  obtain ⟨hsome,hterminal,hnew⟩ := of_decide_eq_true hu
  exact hnew (h.resolved time ha hsome hterminal)

end Grow

/-- In a journal that only grows, under a clock that does not go back: the state of an action
only climbs; no state is recorded twice; and a pass leaves every terminal state on the last
line of its action and nothing to do for a second pass. -/
theorem resolutions_settle (clock : ℤ) (steps : List ChronicleStep)
    (h : Guarded Chronicle.step Chronicle.Distinct (.start clock) steps) :
    (∀ (more : List ChronicleStep) (a : JournalAction),
      Climbs
        (stateOf (runFrom Chronicle.step (.start clock) steps).journal
          (runFrom Chronicle.step (.start clock) steps).clock a)
        (stateOf (runFrom Chronicle.step (.start clock) (steps++more)).journal
          (runFrom Chronicle.step (.start clock) (steps++more)).clock a)) ∧
    NeverTwice (runFrom Chronicle.step (.start clock) steps).journal ∧
    ∀ (wait : ℕ) (time : Bytes),
      SettledAt ((runFrom Chronicle.step (.start clock) steps).step
          ⟨wait,.resolve time none⟩).journal
        ((runFrom Chronicle.step (.start clock) steps).clock+wait) ∧
      NeverTwice ((runFrom Chronicle.step (.start clock) steps).step
        ⟨wait,.resolve time none⟩).journal ∧
      ∀ time' : Bytes, (resolveExpectations ((runFrom Chronicle.step (.start clock) steps).step
          ⟨wait,.resolve time none⟩).journal
        ((runFrom Chronicle.step (.start clock) steps).clock+wait) time').lines = [] := by
  have hkept := h.invariant (P := fun s => Kept s.journal s.clock)
    (fun s x hs hx => hs.step hx) (kept_start clock)
  refine ⟨fun more a => ?_,hkept.neverTwice,fun wait time => ?_⟩
  · rw [runFrom_append]
    exact run_climbs _ more a
  · generalize runFrom Chronicle.step (.start clock) steps = s at hkept
    have hlater : Kept s.journal (s.clock+wait) :=
      hkept.grows rfl (List.Subset.refl _) (fun a ha => .inl ha) hkept.distinct fun a =>
        derive_climbs (List.Subset.refl _) (List.Subset.refl _)
          (Int.le_add_of_nonneg_right (Int.natCast_nonneg _))
    exact ⟨hlater.settled time,(hlater.resolve time none).neverTwice,hlater.resolve_again time⟩

namespace Sample

def answered (id : UInt8) (time : String) : JournalEvent where
  actionId := [id]
  eventUri := []
  authorDid := []
  via := []
  time := utf8 time

/-- An action expires, a late answer makes it unmet, and one that was on time makes it met. -/
def climbing : List ChronicleStep :=
  [⟨0,.action (said 1)⟩,⟨700000,.resolve [] none⟩,⟨0,.event (answered 1 "2024-02-01T00:00:00Z")⟩,
    ⟨0,.resolve [] none⟩,⟨0,.event (answered 1 "2024-01-02T00:00:00Z")⟩,⟨0,.resolve [] none⟩]

theorem resolutions_settle_climbing :
    (resolveExpectations ((runFrom Chronicle.step (.start newYear) climbing).step
        ⟨0,.resolve [] none⟩).journal
      ((runFrom Chronicle.step (.start newYear) climbing).clock+(0 : ℕ)) []).lines = [] ∧
    recorded (runFrom Chronicle.step (.start newYear) climbing).journal [1] =
      [.expired,.unmet,.met] := by
  have h : Guarded Chronicle.step Chronicle.Distinct (.start newYear) climbing :=
    ⟨fun _ => List.forall_mem_nil _,trivial,trivial,trivial,trivial,trivial,trivial⟩
  obtain ⟨-,-,hpass⟩ := resolutions_settle newYear climbing h
  exact ⟨(hpass 0 []).2.2 [],by decide +kernel⟩

end Sample

end Atperson.Journal
