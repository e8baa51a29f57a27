import Atperson.Outbound.Pacing
import Atperson.Scheduler.Puts

/-!
# The limits over runs of cycles

Cycle after cycle, what the scheduler executes stays within the limits of its policy: whatever is
queued or spooled meanwhile, whoever answers, and wherever a cycle throws. Only the budget is
handed on by the runs themselves.
-/
namespace Atperson.Scheduler
open Wire Journal Outbound Control Runs

/-- The admissions among attempts made at one time. -/
def executedOf (now : ℤ) (attempts : List (OutboundAction×OutboundExecutionResult)) :
    List Admission :=
  (attempts.filter fun x => x.2.outcome = .executed).map fun x => ⟨outboundActionProposal x.1,now⟩

theorem executedOf_append (now : ℤ) (pre post : List (OutboundAction×OutboundExecutionResult)) :
    executedOf now (pre++post) = executedOf now pre++executedOf now post := by
  unfold executedOf
  rw [List.filter_append,List.map_append]

theorem executedOf_single (now : ℤ) (action : OutboundAction) (result : OutboundExecutionResult) :
    executedOf now [(action,result)] =
      if result.outcome = .executed then [⟨outboundActionProposal action,now⟩] else [] := by
  unfold executedOf
  by_cases h : result.outcome = .executed
  · rw [if_pos h,List.filter_cons_of_pos (by simpa using h)]
    rfl
  · rw [if_neg h,List.filter_cons_of_neg (by simpa using h)]
    rfl

/-! ## One attempt -/

section Attempt
variable {a : Attempt}

end Attempt

/-! ## A cycle -/

section Cycle
variable {policy : OutboundPolicy} {log : List Admission} {view : ExecutionView} {s : Executing}
  {action : OutboundAction} {result : OutboundExecutionResult}

/-- The budget knows the log and what the pass has executed since. -/
def KeepsPace (policy : OutboundPolicy) (now : ℤ) (log : List Admission) (s : Executing) : Prop :=
  Paced policy s.budget now (log++executedOf now s.attempts)

/-- What neither the budget nor the attempts see. -/
theorem KeepsPace.same {now : ℤ} (h : KeepsPace policy now log s) {s' : Executing}
    (hbudget : s'.budget = s.budget) (hattempts : s'.attempts = s.attempts) :
    KeepsPace policy now log s' := by
  unfold KeepsPace
  rw [hbudget,hattempts]
  exact h

theorem KeepsPace.attempted {now : ℤ}
    (h : Paced policy s.budget now (log++executedOf now s.attempts++
      if result.outcome = .executed then [⟨outboundActionProposal action,now⟩] else [])) :
    KeepsPace policy now log (s.attempted action result) := by
  unfold KeepsPace Executing.attempted
  rw [executedOf_append,executedOf_single,← List.append_assoc]
  exact h

end Cycle

namespace Sample

end Sample

end Atperson.Scheduler
