import Atperson.Ledger.Consistency

/-!
# Runs of one handle under failing commits

One open handle takes appends and outcome changes, any of which may fail inside its
commit. What the callers were told makes a history of its own, `acknowledged`, read off
the calls and their replies alone. The question is what a reopened ledger has of it.

A commit that failed can leave the log out of step with the handle. The next commit
then publishes a marker into the middle of a record, or over an entry the handle does
not count, and the ledger no longer opens. As long as no call commits onto such a log,
a reopened ledger has the whole acknowledged history, in order, and beside it at most
outcome changes whose calls returned an error.
-/
namespace Atperson.Ledger
open Wire

inductive Call where
  | append (a : AppendArgs)
  | setOutcome (id : UInt64) (byte : UInt8)
  deriving DecidableEq

inductive Reply where
  | appended (r : AppendReply)
  | outcome (status : Status)
  deriving DecidableEq

def Call.run (fault : Option CommitFault) (s : Session) : Call → Session×Reply
  | .append a =>
      let r := Ledger.append fault s a
      (r.1,.appended r.2)
  | .setOutcome id byte =>
      let r := Ledger.setOutcome fault s id byte
      (r.1,.outcome r.2)

/-- A run of one handle: each call with the failure it meets, and the replies. -/
def runCalls : Session → List (Option CommitFault×Call) → Session×List (Call×Reply)
  | s, [] => (s,[])
  | s, (fault,call)::rest =>
      let r := call.run fault s
      let out := runCalls r.1 rest
      (out.1,(call,r.2)::out.2)

/-- What a reply acknowledges: a new entry, or an outcome. -/
def acknowledged (items : List Item) : Call×Reply → List Item
  | (.append a,.appended r) =>
      if r.result = .new then
        match a.validate items.length with
        | some v => items++[v.item]
        | none => items
      else items
  | (.setOutcome id byte,.outcome .ok) =>
      match Outcome.ofByte? byte with
      | some o => setOutcomeAt (id.toNat-1) o items
      | none => items
  | _ => items

/-- The outcome changes of a run that returned an error, each with the outcome the entry
had then. -/
def erroredChanges : List Item → List (Call×Reply) → List Ghost
  | _, [] => []
  | items, (call,reply)::rest =>
      (match call,reply with
        | .setOutcome id byte,.outcome status => failedChange items id byte status
        | _,_ => [])++erroredChanges (acknowledged items (call,reply)) rest

/-- A call does not commit, or it commits onto a log in step with the handle. -/
def Call.InStep (s : Session) : Call → Prop
  | .append a => AppendInStep s a
  | .setOutcome id byte => ChangeInStep s id byte

instance (s : Session) : (call : Call) → Decidable (call.InStep s)
  | .append a => inferInstanceAs (Decidable (AppendInStep s a))
  | .setOutcome id byte => inferInstanceAs (Decidable (ChangeInStep s id byte))

/-- Every call of a run is in step where it is made. -/
def RunInStep : Session → List (Option CommitFault×Call) → Prop
  | _, [] => True
  | s, (fault,call)::rest => call.InStep s ∧ RunInStep (call.run fault s).1 rest

instance : (s : Session) → (calls : List (Option CommitFault×Call)) →
    Decidable (RunInStep s calls)
  | _, [] => .isTrue trivial
  | s, (fault,call)::rest =>
      have := instDecidableRunInStep (call.run fault s).1 rest
      inferInstanceAs (Decidable (_∧_))

/-- Reopening has the acknowledged history in order, with nothing else but errored outcome
changes behind it, and no id twice. -/
def HistoryKept (migrate : ℕ → Disk → Disk×Status) (start : List Item)
    (out : Session×List (Call×Reply)) : Prop :=
  ∃ d' h' gs, openLedger migrate out.1.disk = (d',.ok h') ∧
    gs.Sublist (erroredChanges start out.2) ∧
    h'.items = haunt gs (out.2.foldl acknowledged start) ∧
    (h'.items.map fun it : Item => it.entry.id).Nodup

/-! ## The memory is the acknowledged history -/

theorem Call.run_items (fault : Option CommitFault) (s : Session) (call : Call) :
    (call.run fault s).1.handle.items =
      acknowledged s.handle.items (call,(call.run fault s).2) := by
  cases call with
  | append a =>
      simp only [Call.run,acknowledged]
      rcases append_cases fault s a with ⟨reply,hd,he⟩ | ⟨v,ok,hd,-,hc,hr⟩
      · rw [he,if_neg (appendDecision_error hd)]
      · rw [hr,hc.items,appendDecision_validate hd]
        cases ok <;> rfl
  | setOutcome id byte =>
      rcases setOutcome_cases fault s id byte with ⟨status,hd,he⟩ | ⟨o,it,ok,-,hch,hc,hr⟩
      · cases status <;> simp only [Call.run,acknowledged,he]
        obtain ⟨o,it,hb,hit,rfl⟩ := setOutcomeDecision_same hd
        simp only [hb,setOutcomeAt_eq_self hit]
      · cases ok <;> simp only [Call.run,acknowledged,hr,hc.items,hch.valid,if_true,
          Bool.false_eq_true,if_false]

theorem runCalls_items (s : Session) (calls : List (Option CommitFault×Call)) :
    (runCalls s calls).1.handle.items =
      (runCalls s calls).2.foldl acknowledged s.handle.items := by
  induction calls generalizing s with
  | nil => rfl
  | cons c rest ih =>
      obtain ⟨fault,call⟩ := c
      simp only [runCalls,List.foldl_cons]
      rw [ih,Call.run_items]

/-! ## The run keeps the invariant -/

theorem Call.run_consistent {errs : List Ghost} {s : Session} {log : Bytes}
    (h : Consistent View.whole errs s log) (fault : Option CommitFault) (call : Call)
    (hin : call.InStep s) :
    (∃ log', Consistent View.whole
      (errs++erroredChanges s.handle.items [(call,(call.run fault s).2)])
      (call.run fault s).1 log') ∧ KeepsMarker s (call.run fault s).1 := by
  cases call with
  | append a => simpa [erroredChanges,Call.run] using h.append fault a hin
  | setOutcome id byte => simpa [erroredChanges,Call.run] using h.setOutcome fault id byte hin

theorem erroredChanges_cons (items : List Item) (e : Call×Reply) (rest : List (Call×Reply)) :
    erroredChanges items (e::rest) =
      erroredChanges items [e]++erroredChanges (acknowledged items e) rest := by
  simp [erroredChanges]

theorem runCalls_consistent {errs : List Ghost} {s : Session} {log : Bytes}
    (h : Consistent View.whole errs s log) {calls : List (Option CommitFault×Call)}
    (hin : RunInStep s calls) :
    (∃ log', Consistent View.whole (errs++erroredChanges s.handle.items (runCalls s calls).2)
      (runCalls s calls).1 log') ∧ KeepsMarker s (runCalls s calls).1 := by
  induction calls generalizing errs s log with
  | nil => exact ⟨⟨log,by simpa [runCalls,erroredChanges] using h⟩,id⟩
  | cons c rest ih =>
      obtain ⟨fault,call⟩ := c
      obtain ⟨hcall,hrest⟩ := hin
      obtain ⟨⟨log',h'⟩,hkeep⟩ := Call.run_consistent h fault call hcall
      obtain ⟨hcons,hkeep'⟩ := ih h' hrest
      refine ⟨?_,fun hm => hkeep' (hkeep hm)⟩
      rw [Call.run_items,List.append_assoc] at hcons
      show ∃ log', Consistent View.whole (errs++erroredChanges s.handle.items
        ((call,(call.run fault s).2)::(runCalls (call.run fault s).1 rest).2)) _ log'
      rw [erroredChanges_cons]
      exact hcons

/-- Runs in step keep the acknowledged history through a reopen. -/
theorem runInStep_historyKept (migrate : ℕ → Disk → Disk×Status) {d d0 : Disk} {h0 : Handle}
    (hopen : openLedger migrate d = (d0,.ok h0)) (calls : List (Option CommitFault×Call))
    (hin : RunInStep ⟨d0,h0⟩ calls) :
    HistoryKept migrate h0.items (runCalls ⟨d0,h0⟩ calls) := by
  obtain ⟨log,hclean⟩ := openLedger_clean hopen
  obtain ⟨⟨log',hcons⟩,hkeep⟩ := runCalls_consistent (hclean.consistent View.whole) hin
  have hmark : (readOff (runCalls ⟨d0,h0⟩ calls).1.disk).isSome :=
    hkeep (Option.isSome_iff_exists.mpr ⟨_,hclean.marker⟩)
  obtain ⟨d',h',ho,⟨gs,hsub,-,heq⟩,hids⟩ := hcons.reopen hmark migrate
  refine ⟨d',h',gs,ho,by simpa using hsub,?_,hids.nodup⟩
  rw [← runCalls_items ⟨d0,h0⟩ calls]
  simpa [View.whole] using heq

/-! ## Concrete runs -/

def sampleAppend (source : UInt8) : Call := .append (sampleArgs source 0)

/-- A short write of one byte, then an append that goes through. -/
def shortWriteRun : Session×List (Call×Reply) :=
  runCalls createdSession [(some (.write 1),sampleAppend 97),(none,sampleAppend 98)]

/-- The second append is acknowledged with id 1, and the ledger no longer opens. -/
theorem short_write_loses_history :
    openLedger noMigration Disk.fresh = (createdSession.disk,.ok createdSession.handle) ∧
    shortWriteRun.2 = [(sampleAppend 97,.appended ⟨.notFound,0,.io⟩),
      (sampleAppend 98,.appended ⟨.new,1,.ok⟩)] ∧
    (openLedger noMigration shortWriteRun.1.disk).2 = .error .format ∧
    ¬HistoryKept noMigration createdSession.handle.items shortWriteRun := by
  have hfail : (openLedger noMigration shortWriteRun.1.disk).2 = .error .format := by
    decide +kernel
  refine ⟨openLedger_fresh _,by decide +kernel,hfail,?_⟩
  rintro ⟨d',h',gs,ho,-⟩
  rw [ho] at hfail
  cases hfail

/-- A run in step whose second commit fails on its marker. -/
theorem runInStep_historyKept_sample :
    HistoryKept noMigration createdSession.handle.items (runCalls createdSession
      [(none,sampleAppend 97),(some (.marker .renaming),.setOutcome 1 1),(none,sampleAppend 98)]) :=
  runInStep_historyKept noMigration (openLedger_fresh _) _ (by decide +kernel)

end Atperson.Ledger
