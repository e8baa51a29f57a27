import Atperson.Outbound.GateOrder
import Atperson.Scheduler.Execution
import Atperson.Scheduler.TextRules

/-!
# Steps of the execution pass

Until something is written, the guards and the gates read what they read at the beginning: a
proposal ends the pass, is passed over, or is refused. The first that passes every gate is written.
Later on, nothing is let through that would not have been at the beginning.
-/
namespace Atperson.Scheduler
open Wire Journal Outbound Control

/-- Every gate let it through and its write was asked for: it is executed unless the write fails. -/
def Carried (result : OutboundExecutionResult) : Prop :=
  result.outcome = .executed ∨ result.outcome = .failed

/-- With a spool the writer is had before the gates: it must be there, and not offline. -/
def Connected (view : ExecutionView) : Prop :=
  view.spoolRoot = true → view.control.offlineMode = false ∧
    ∀ calls, view.transport.session calls = .ok ()

def actionsOf (files : List ProposalFile) : List OutboundAction :=
  files.filterMap fun file => file.document.toOption

theorem mem_actionsOf {files : List ProposalFile} {action : OutboundAction} :
    action ∈ actionsOf files ↔ ∃ file ∈ files, file.document = .ok action := by
  refine List.mem_filterMap.trans (exists_congr fun file => and_congr_right fun _ => ?_)
  cases file.document with
  | error m => exact iff_of_false nofun nofun
  | ok a => exact ⟨fun h => congrArg _ (Option.some.inj h),fun h => congrArg _ (Except.ok.inj h)⟩

section Desk
variable (settings : ExecutionSettings) (view : ExecutionView) (desk : ExecutionDesk)

def authorized (action : OutboundAction) : Bool :=
  (authorizable view desk.budget action).toOption = some true

def guarded (action : OutboundAction) : Bool :=
  textAllowed settings view (executedTexts desk.journal) action && engagementAllowed settings view action

/-- What the guards let through and a digest or an envelope authorizes, as the files are. -/
def candidate (action : OutboundAction) : Bool :=
  guarded settings view desk action && authorized view desk action

def candidates (files : List ProposalFile) : List OutboundAction :=
  (actionsOf files).filter (candidate settings view desk)

/-- A file that ends the pass: it does not load, or the envelopes do not where they are asked. -/
def broken (file : ProposalFile) : Bool :=
  match file.document with
  | .error _ => true
  | .ok action => guarded settings view desk action &&
      (!(authorizable view desk.budget action).isOk ||
        authorized view desk action && !(coverageOf view desk.budget action).isOk)

/-- An action that would pass every gate on the files as they are. -/
structure Passes (action : OutboundAction) : Prop where
  candidate : candidate settings view desk action = true
  gates : ∃ coverage, coverageOf view desk.budget action = .ok coverage ∧
    Gates (attemptOf view desk.budget coverage action)
  connected : Connected view

/-- The first file that passes, by name: nothing breaks before it, and less than the bound is
attempted before it. -/
structure Foremost (files : List ProposalFile) (n : ℕ) (action : OutboundAction) : Prop where
  passes : Passes settings view desk action
  first : ∃ pre file post, files = pre++file::post ∧ file.document = .ok action ∧
    (∀ x ∈ pre, broken settings view desk x = false) ∧
    (∀ x ∈ actionsOf pre, ¬Passes settings view desk x) ∧
    (candidates settings view desk pre).length < n

end Desk

/-! ## Guards and recent texts -/

theorem Sayable.mono {text : Bytes} {config : TextGuardConfig} {recent recent' : List RecentText}
    {now : ℤ} (hsub : recent ⊆ recent') (h : Sayable text config recent' now) :
    Sayable text config recent now :=
  {h with fresh := fun hwindow earlier hmem => h.fresh hwindow earlier (hsub hmem)}

section Attempt
variable {a : Attempt} {before : Trail} {result : OutboundExecutionResult}

/-- What a run leaves in the journal, whatever it answers. -/
theorem run_journal (a : Attempt) (before : Trail) : (a.run before).2.journal = before.journal ∨
    ∃ result, (a.run before).1 = .ok result ∧
      (a.run before).2.journal = before.journal++[a.journalEntry result] := by
  unfold Attempt.run
  dsimp only
  cases (a.decide before.net).1 with
  | error e => exact .inl rfl
  | ok decided => exact .inr ⟨decided.1,rfl,rfl⟩

/-- A decision that does not write leaves the budget, and an entry that is not executed. -/
structure Shut (a : Attempt) (before : Trail) (result : OutboundExecutionResult) : Prop where
  answer : (a.run before).1 = .ok result
  refused : ¬Carried result
  budget : (a.run before).2.savedBudget = before.savedBudget
  journal : (a.run before).2.journal = before.journal++[a.journalEntry result]

end Attempt

/-! ## One proposal -/

def Executed.state : Executed → Executing
  | .next s => s
  | .done s => s
  | .thrown s _ => s

section Step
variable {settings : ExecutionSettings} {view : ExecutionView} {desk : ExecutionDesk}
  {s : Executing} {file : ProposalFile} {action : OutboundAction} {result : OutboundExecutionResult}

/-- The attempts stay, and no published text is lost. -/
structure Widened (s s' : Executing) : Prop where
  attempts : s'.attempts = s.attempts
  actions : s'.journal.actions = s.journal.actions
  texts : ∀ t' ∈ s'.texts, ∃ t ∈ s.texts, t ⊆ t'

theorem Widened.refl (s : Executing) : Widened s s := ⟨rfl,rfl,fun t h => ⟨t,h,List.Subset.refl t⟩⟩

theorem executedTexts_append (actions more : List JournalAction) (journal : JournalContents)
    (h : journal.actions = actions++more) :
    executedTexts journal = executedTexts {actions}++executedTexts {actions := more} := by
  unfold executedTexts
  rw [h,List.filter_append,List.map_append]

/-- Nothing published before the pass is forgotten. -/
structure Known (desk : ExecutionDesk) (s : Executing) : Prop where
  journal : executedTexts desk.journal ⊆ executedTexts s.journal
  texts : ∀ t ∈ s.texts, executedTexts desk.journal ⊆ t

theorem Known.load (h : Known desk s) (action : OutboundAction) :
    Known desk (loadTexts s action) := by
  unfold loadTexts
  split
  · refine ⟨h.journal,fun t ht => ?_⟩
    cases ht
    cases htexts : s.texts with
    | none => exact h.journal
    | some t => exact h.texts t htexts
  · exact h

theorem Known.settle (h : Known desk s) (a : Attempt) :
    Known desk (s.settle (a.run {net := s.net}).2) := by
  refine ⟨List.Subset.trans h.journal ?_,h.texts⟩
  rw [executedTexts_append s.journal.actions _ (s.settle (a.run {net := s.net}).2).journal rfl]
  exact List.subset_append_left _ _

theorem Known.attempted (h : Known desk s) (action : OutboundAction)
    (result : OutboundExecutionResult) : Known desk (s.attempted action result) :=
  ⟨h.journal,h.texts⟩

end Step

/-! ## The order of attempts -/

section Order
variable {settings : ExecutionSettings} {view : ExecutionView} {desk : ExecutionDesk}
  {s : Executing} {file : ProposalFile} {gate : BreakerGate}

theorem candidates_cons (file : ProposalFile) (files : List ProposalFile) :
    candidates settings view desk (file::files) =
      candidates settings view desk [file]++candidates settings view desk files := by
  unfold candidates actionsOf
  rw [← List.filter_append,← List.filterMap_append]
  rfl

end Order

/-! ## Up to the first write -/

/-- Nothing that the guards or the gates read has changed. -/
structure Untouched (desk : ExecutionDesk) (s : Executing) : Prop where
  budget : s.budget = desk.budget
  journal : executedTexts s.journal = executedTexts desk.journal
  texts : ∀ t ∈ s.texts, t = executedTexts desk.journal

section Before
variable {settings : ExecutionSettings} {view : ExecutionView} {desk : ExecutionDesk}
  {s : Executing} {file : ProposalFile} {action : OutboundAction}

theorem Untouched.known (h : Untouched desk s) : Known desk s := by
  refine ⟨?_,fun t ht => ?_⟩
  · rw [h.journal]
    exact List.Subset.refl _
  · rw [h.texts t ht]
    exact List.Subset.refl _

theorem Untouched.load (h : Untouched desk s) (action : OutboundAction) :
    Untouched desk (loadTexts s action) := by
  unfold loadTexts
  split
  · refine ⟨h.budget,h.journal,fun t ht => ?_⟩
    cases ht
    cases htexts : s.texts with
    | none => exact h.journal
    | some t => exact h.texts t htexts
  · exact h

theorem Untouched.guard (h : Untouched desk s) (settings : ExecutionSettings)
    (view : ExecutionView) (action : OutboundAction) :
    (textAllowed settings view ((loadTexts s action).texts.getD []) action &&
      engagementAllowed settings view action) = guarded settings view desk action := by
  unfold guarded
  cases htext : isTextKind action.kind with
  | false => simp [textAllowed,htext]
  | true =>
      have htexts : (loadTexts s action).texts = some (executedTexts desk.journal) := by
        unfold loadTexts
        rw [if_pos htext]
        cases hs : s.texts with
        | none => exact congrArg some h.journal
        | some t => exact congrArg some (h.texts t hs)
      rw [htexts]
      rfl

theorem executedTexts_refused {a : Attempt} {result : OutboundExecutionResult}
    (h : ¬Carried result) : executedTexts {actions := [a.journalEntry result]} = [] := by
  have hout : (a.journalEntry result).outcome ≠ .executed := by
    unfold Carried at h
    show journalActionOutcome result.outcome ≠ .executed
    cases hr : result.outcome with
    | executed => exact absurd (.inl hr) h
    | dryRun => decide
    | denied => decide
    | deferred => decide
    | failed => decide
  unfold executedTexts
  rw [List.filter_cons_of_neg (by simp [hout]),List.filter_nil,List.map_nil]

theorem Untouched.refused (h : Untouched desk s) {a : Attempt} {result : OutboundExecutionResult}
    (action : OutboundAction) (hshut : Shut a {net := s.net} result) :
    Untouched desk ((s.settle (a.run {net := s.net}).2).attempted action result) := by
  refine ⟨?_,?_,h.texts⟩
  · show (a.run {net := s.net}).2.savedBudget.getD s.budget = desk.budget
    rw [hshut.budget]
    exact h.budget
  · rw [executedTexts_append s.journal.actions [a.journalEntry result],
      executedTexts_refused hshut.refused,List.append_nil]
    · exact h.journal
    · show s.journal.actions++(a.run {net := s.net}).2.journal = _
      rw [hshut.journal]
      rfl

theorem Passes.guarded (h : Passes settings view desk action) :
    guarded settings view desk action = true ∧ authorized view desk action = true :=
  Bool.and_eq_true_iff.mp h.candidate

theorem Passes.authorizable (h : Passes settings view desk action) :
    authorizable view desk.budget action = .ok true := by
  have hauthorized := h.guarded.2
  unfold authorized at hauthorized
  rw [decide_eq_true_eq] at hauthorized
  cases hb : Scheduler.authorizable view desk.budget action with
  | error m =>
      rw [hb] at hauthorized
      cases hauthorized
  | ok b =>
      rw [hb] at hauthorized
      rw [Option.some.inj hauthorized]

theorem Passes.unbroken (h : Passes settings view desk action)
    (hdocument : file.document = .ok action) : broken settings view desk file = false := by
  obtain ⟨coverage,hcoverage,-⟩ := h.gates
  simp only [broken,hdocument,h.authorizable,hcoverage]
  simp [Except.isOk,Except.toBool]

/-- What can become of a proposal while nothing has been written. -/
inductive Turned (settings : ExecutionSettings) (view : ExecutionView) (desk : ExecutionDesk)
    (s : Executing) (file : ProposalFile) (r : Executed) : Prop
  | ended (broken : broken settings view desk file = true) {s' : Executing} {m : Bytes}
      (eq : r = .thrown s' m) (attempts : s'.attempts = s.attempts)
  | passed (unbroken : broken settings view desk file = false)
      (none : candidates settings view desk [file] = [])
      (shut : ∀ action, file.document = .ok action → ¬Passes settings view desk action)
      {s' : Executing} (eq : r = .next s') (untouched : Untouched desk s')
      (attempts : s'.attempts = s.attempts)
  | refused (unbroken : broken settings view desk file = false) {action : OutboundAction}
      (candidates : candidates settings view desk [file] = [action])
      (shut : ∀ action, file.document = .ok action → ¬Passes settings view desk action)
      {s' : Executing} {result : OutboundExecutionResult} (eq : r = .next s')
      (untouched : Untouched desk s') (attempts : s'.attempts = s.attempts++[(action,result)])
      (uncarried : ¬Carried result)
  | written {action : OutboundAction} (document : file.document = .ok action)
      (passes : Passes settings view desk action) {result : OutboundExecutionResult}
      (attempts : r.state.attempts = s.attempts++[(action,result)]) (carried : Carried result)

theorem Foremost.zero {files : List ProposalFile} : ¬Foremost settings view desk files 0 action := by
  rintro ⟨-,pre,file,post,-,-,-,-,hroom⟩
  exact Nat.not_lt_zero _ hroom

theorem Foremost.nil {n : ℕ} : ¬Foremost settings view desk [] n action := by
  rintro ⟨-,pre,file,post,hsplit,-⟩
  exact absurd hsplit.symm (by simp)

/-- Past a file that does not pass and breaks nothing, with less room if it is attempted. -/
theorem Foremost.tail {files : List ProposalFile} {n : ℕ}
    (hshut : ∀ action, file.document = .ok action → ¬Passes settings view desk action)
    (h : Foremost settings view desk (file::files) n action) :
    broken settings view desk file = false ∧
      Foremost settings view desk files (n-(candidates settings view desk [file]).length) action := by
  obtain ⟨hpasses,pre,file',post,hsplit,hfound,hunbroken,hfirst,hroom⟩ := h
  cases pre with
  | nil =>
      obtain ⟨rfl,-⟩ := List.cons.inj hsplit
      exact absurd hpasses (hshut action hfound)
  | cons x pre =>
      obtain ⟨rfl,rfl⟩ := List.cons.inj hsplit
      refine ⟨hunbroken _ List.mem_cons_self,hpasses,pre,file',post,rfl,hfound,
        fun x hx => hunbroken x (List.mem_cons_of_mem _ hx),fun x hx => hfirst x ?_,?_⟩
      · obtain ⟨y,hy,hx⟩ := mem_actionsOf.mp hx
        exact mem_actionsOf.mpr ⟨y,List.mem_cons_of_mem _ hy,hx⟩
      · rw [candidates_cons,List.length_append] at hroom
        omega

theorem Foremost.cons {files : List ProposalFile} {n : ℕ}
    (hunbroken : broken settings view desk file = false)
    (hshut : ∀ action, file.document = .ok action → ¬Passes settings view desk action)
    (h : Foremost settings view desk files (n-(candidates settings view desk [file]).length) action) :
    Foremost settings view desk (file::files) n action := by
  obtain ⟨hpasses,pre,file',post,rfl,hfound,hpre,hfirst,hroom⟩ := h
  refine ⟨hpasses,file::pre,file',post,rfl,hfound,List.forall_mem_cons.mpr ⟨hunbroken,hpre⟩,
    fun x hx => ?_,?_⟩
  · obtain ⟨y,hy,hdocument⟩ := mem_actionsOf.mp hx
    rcases List.mem_cons.mp hy with rfl | hy
    · exact hshut x hdocument
    · exact hfirst x (mem_actionsOf.mpr ⟨y,hy,hdocument⟩)
  · rw [candidates_cons,List.length_append]
    omega

end Before

end Atperson.Scheduler
