import Atperson.Scheduler.Puts

/-!
# What is on record

Whatever a cycle puts, it has attempted, and every attempt that came to an end stands in the audit
and in the journal, once and in order. A cycle that throws leaves the record as complete as one that
does not.
-/
namespace Atperson.Scheduler
open Wire Journal Outbound Control

/-- An attempt and what came of it. -/
abbrev Attempted := OutboundAction×OutboundExecutionResult

/-- What an attempt leaves in the audit and in the journal, whatever budget and coverage it had. -/
def auditLine (view : ExecutionView) (x : Attempted) : OutboundAuditEntry :=
  (attemptOf view {} none x.1).auditEntry x.2

def journalLine (view : ExecutionView) (x : Attempted) : JournalAction :=
  (attemptOf view {} none x.1).journalEntry x.2

/-- Whether the gates let an attempt through to its write. -/
def reachedWrite (x : Attempted) : Bool := x.2.outcome = .executed || x.2.outcome = .failed

/-- What happens from one state to another is on record: the attempts in the audit and the journal,
and the puts among the attempts that came to their write. -/
structure Recounted (view : ExecutionView) (s s' : Executing) (puts : List CyclePut)
    (done : List Attempted) : Prop where
  attempts : s'.attempts = s.attempts++done
  audit : s'.audit = s.audit++done.map (auditLine view)
  journal : s'.journal.actions = s.journal.actions++done.map (journalLine view)
  puts : (puts.map (·.action)).Sublist ((done.filter reachedWrite).map Prod.fst)

section Recounted
variable {view : ExecutionView} {s s' s'' : Executing} {puts more : List CyclePut}
  {done others : List Attempted}

theorem Recounted.refl (view : ExecutionView) (s : Executing) : Recounted view s s [] [] :=
  ⟨(List.append_nil _).symm,(List.append_nil _).symm,(List.append_nil _).symm,List.nil_sublist _⟩

theorem Recounted.trans (h : Recounted view s s' puts done)
    (h' : Recounted view s' s'' more others) :
    Recounted view s s'' (puts++more) (done++others) := by
  refine ⟨?_,?_,?_,?_⟩
  · rw [h'.attempts,h.attempts,List.append_assoc]
  · rw [h'.audit,h.audit,List.map_append,List.append_assoc]
  · rw [h'.journal,h.journal,List.map_append,List.append_assoc]
  · rw [List.map_append,List.filter_append,List.map_append]
    exact h.puts.append h'.puts

/-- What the records do not see. -/
theorem Recounted.same (h : Recounted view s s' puts done) (hattempts : s''.attempts = s'.attempts)
    (haudit : s''.audit = s'.audit) (hjournal : s''.journal.actions = s'.journal.actions) :
    Recounted view s s'' puts done :=
  ⟨hattempts.trans h.attempts,haudit.trans h.audit,hjournal.trans h.journal,h.puts⟩

end Recounted

/-! ## One attempt -/

section Write
variable {writer : OutboundWriter} {w : NetWorld}

end Write

section Attempt
variable {a : Attempt} {w : NetWorld}

/-- At most one put, and none unless the write was come to. -/
def PutsOnce (w w' : NetWorld) (reached : Prop) : Prop :=
  ∃ n ≤ 1, Puts n w w' ∧ (n = 0 ∨ reached)

theorem PutsOnce.none {w' : NetWorld} {reached : Prop} (h : Puts 0 w w') : PutsOnce w w' reached :=
  ⟨0,Nat.zero_le _,h,.inl rfl⟩

end Attempt

section Step
variable {view : ExecutionView} {s : Executing} {action : OutboundAction}

end Step

/-! ## The cycle -/

/-- The attempts of a cycle stand in both records, in order, and its puts are of attempts that came
to their write, each of at most one. -/
structure OnRecord (view : ExecutionView) (desk : ExecutionDesk) (c : Cycling) : Prop where
  audit : c.desk.audit = desk.audit++c.attempts.map (auditLine view)
  journal : c.desk.journal.actions = desk.journal.actions++c.attempts.map (journalLine view)
  puts : (c.puts.map (·.action)).Sublist ((c.attempts.filter reachedWrite).map Prod.fst)

theorem OnRecord.handed {view : ExecutionView} {desk : ExecutionDesk} {c c' : Cycling}
    (h : OnRecord view desk c) (hhanded : Handed c c') : OnRecord view desk c' := by
  refine ⟨?_,?_,?_⟩
  · rw [hhanded.audit,hhanded.attempts]
    exact h.audit
  · rw [hhanded.actions,hhanded.attempts]
    exact h.journal
  · rw [hhanded.puts,hhanded.attempts]
    exact h.puts

end Atperson.Scheduler
