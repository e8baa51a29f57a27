import Atperson.Replicate.Records
import Atperson.Runs.Fallible

/-!
# The publication cursor

How far publication has come, in a file of JSON numbers. A number is a double there, so a
count that is read back is the one saved up to `2^53`.
-/
namespace Atperson.Replicate
open Wire Runs

structure ReplicateCursor where
  nextObservationId : UInt64 := 1
  actionsPublished : UInt64 := 0
  valencePublished : UInt64 := 0
  thoughtsPublished : UInt64 := 0
  intentsPublished : UInt64 := 0
  deriving DecidableEq

def kCursorFormat : String := "atperson-replicate-cursor"

def cursorInvalid {α : Type} (message : String) : Except String α :=
  .error ("replicate cursor: "++message)

/-- The cast of a double that is not negative; one beyond 64 bits has no value in C. -/
def castU64 : Double → UInt64
  | .finite q => .ofNat ⌊q⌋.toNat
  | _ => 0

def requireCount (root : Json Double) (key : String) (least : ℚ) (path : String) :
    Except String UInt64 :=
  match root.get? key with
  | some (.number d) =>
      if d.lt (.finite least) then cursorInvalid ("missing "++key++" at "++path)
      else .ok (castU64 d)
  | _ => cursorInvalid ("missing "++key++" at "++path)

/-- A count that earlier cursors do not have starts at zero. -/
def countOrZero (root : Json Double) (key : String) : UInt64 :=
  match root.get? key with
  | some (.number d) => if d.lt (.finite 0) then 0 else castU64 d
  | _ => 0

def loadReplicateCursor (file : Option (Json Double)) (path : String) :
    Except String ReplicateCursor :=
  match file with
  | none => .ok {}
  | some (.object members) =>
      let root : Json Double := .object members
      match root.get? "format" with
      | some (.string raw) =>
          if (CString.ofRaw raw).bytes ≠ utf8 kCursorFormat then
            cursorInvalid ("unknown format at "++path)
          else match root.get? "version" with
            | some (.number d) =>
                if d ≠ .finite 1 then cursorInvalid ("unsupported version at "++path)
                else do
                  let nextObservationId ← requireCount root "next_observation_id" 1 path
                  let actionsPublished ← requireCount root "actions_published" 0 path
                  let valencePublished ← requireCount root "valence_published" 0 path
                  .ok {
                    nextObservationId := nextObservationId
                    actionsPublished := actionsPublished
                    valencePublished := valencePublished
                    thoughtsPublished := countOrZero root "thoughts_published"
                    intentsPublished := countOrZero root "intents_published" }
            | _ => cursorInvalid ("unsupported version at "++path)
      | _ => cursorInvalid ("unknown format at "++path)
  | some _ => cursorInvalid ("not a JSON object at "++path)

def countNumber (n : UInt64) : Json Double := .number (.finite (nearestDouble n.toNat))

def saveReplicateCursor (cursor : ReplicateCursor) : Json Double :=
  .object [
    ("format",.string (utf8 kCursorFormat)),
    ("version",.number (.finite 1)),
    ("next_observation_id",countNumber cursor.nextObservationId),
    ("actions_published",countNumber cursor.actionsPublished),
    ("valence_published",countNumber cursor.valencePublished),
    ("thoughts_published",countNumber cursor.thoughtsPublished),
    ("intents_published",countNumber cursor.intentsPublished)]

section Reload

/-- What a count is read back as. -/
def storedCount (n : UInt64) : UInt64 := castU64 (.finite (nearestDouble n.toNat))

/-- The cursor that a saved one is read back as. -/
def ReplicateCursor.stored (c : ReplicateCursor) : ReplicateCursor where
  nextObservationId := c.nextObservationId
  actionsPublished := storedCount c.actionsPublished
  valencePublished := storedCount c.valencePublished
  thoughtsPublished := storedCount c.thoughtsPublished
  intentsPublished := storedCount c.intentsPublished

theorem storedCount_of_small {n : UInt64} (h : n.toNat ≤ 2^53) : storedCount n = n := by
  have hexact : nearestDouble (n.toNat : ℤ) = n.toNat := nearestDouble_of_small (by simpa using h)
  rw [storedCount,hexact,castU64]
  simp

theorem nearestDouble_nonneg {n : ℤ} (h : 0 ≤ n) : 0 ≤ nearestDouble n :=
  mul_nonneg (Int.sign_nonneg_iff.mpr h) (Int.natCast_nonneg _)

theorem not_lt_zero (n : UInt64) :
    (Double.finite (nearestDouble n.toNat)).lt (.finite 0) = false := by
  have h := nearestDouble_nonneg (Int.natCast_nonneg n.toNat)
  simp only [Double.lt,decide_eq_false_iff_not,not_lt]
  exact_mod_cast h

/-- A saved cursor loads, with its ledger id exact. -/
theorem load_saveReplicateCursor {cursor : ReplicateCursor} (path : String)
    (h1 : 1 ≤ cursor.nextObservationId.toNat) (hmax : cursor.nextObservationId.toNat ≤ 2^53) :
    loadReplicateCursor (some (saveReplicateCursor cursor)) path = .ok cursor.stored := by
  have hraw : (CString.ofRaw (utf8 kCursorFormat)).bytes = utf8 kCursorFormat := by decide +kernel
  have hexact : nearestDouble (cursor.nextObservationId.toNat : ℤ) =
      cursor.nextObservationId.toNat := nearestDouble_of_small (by simpa using hmax)
  have hnext : requireCount (saveReplicateCursor cursor) "next_observation_id" 1 path =
      .ok cursor.nextObservationId := by
    have hget : (saveReplicateCursor cursor).get? "next_observation_id" =
        some (countNumber cursor.nextObservationId) := rfl
    have hlt : (Double.finite (nearestDouble cursor.nextObservationId.toNat)).lt (.finite 1) =
        false := by
      simp only [Double.lt,hexact,decide_eq_false_iff_not,not_lt]
      exact_mod_cast h1
    rw [requireCount,hget]
    simp only [countNumber,hlt,Bool.false_eq_true,if_false]
    exact congrArg _ (storedCount_of_small hmax)
  have hcount (key : String) (n : UInt64)
      (hget : (saveReplicateCursor cursor).get? key = some (countNumber n)) :
      requireCount (saveReplicateCursor cursor) key 0 path = .ok (storedCount n) := by
    rw [requireCount,hget]
    simp only [countNumber,not_lt_zero,Bool.false_eq_true,if_false]
    rfl
  have hzero (key : String) (n : UInt64)
      (hget : (saveReplicateCursor cursor).get? key = some (countNumber n)) :
      countOrZero (saveReplicateCursor cursor) key = storedCount n := by
    rw [countOrZero,hget]
    simp only [countNumber,not_lt_zero,Bool.false_eq_true,if_false]
    rfl
  have hformat : (saveReplicateCursor cursor).get? "format" =
      some (.string (utf8 kCursorFormat)) := rfl
  have hversion : (saveReplicateCursor cursor).get? "version" = some (.number (.finite 1)) := rfl
  have hload : loadReplicateCursor (some (saveReplicateCursor cursor)) path = (do
      let nextObservationId ←
        requireCount (saveReplicateCursor cursor) "next_observation_id" 1 path
      let actionsPublished ← requireCount (saveReplicateCursor cursor) "actions_published" 0 path
      let valencePublished ← requireCount (saveReplicateCursor cursor) "valence_published" 0 path
      .ok {
        nextObservationId := nextObservationId
        actionsPublished := actionsPublished
        valencePublished := valencePublished
        thoughtsPublished := countOrZero (saveReplicateCursor cursor) "thoughts_published"
        intentsPublished := countOrZero (saveReplicateCursor cursor) "intents_published" }) := by
    rw [saveReplicateCursor] at hformat hversion ⊢
    simp only [loadReplicateCursor,hformat,hversion,hraw,ne_eq,not_true,if_false]
  rw [hload,hnext,hcount "actions_published" _ rfl,hcount "valence_published" _ rfl,
    hzero "thoughts_published" _ rfl,hzero "intents_published" _ rfl]
  rfl

end Reload

end Atperson.Replicate
