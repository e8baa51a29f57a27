import Atperson.Scheduler.RecordKeys

/-!
# Keys of command records

A command lies under its sequence number, written with thirteen signs of five bits. Keys of
commands compare as the numbers do, so the newest command has the greatest key.
-/
namespace Atperson.Control
open Wire Scheduler

def requestAlphabet : Bytes := utf8 "234567abcdefghijklmnopqrstuvwxyz"

/-- The loop of `control_request_rkey`, from the last sign back. -/
def requestSigns : ℕ → UInt64 → Bytes → Bytes
  | 0, _, rkey => rkey
  | i+1, seq, rkey =>
      requestSigns i (seq >>> 5) (rkey.set i (requestAlphabet.getD (seq &&& 0x1F).toNat 0))

def controlRequestRkey (seq : UInt64) : Bytes := requestSigns 13 seq (List.replicate 13 50)

/-- The signs behind the counter are written, those before it are the digits to come. -/
theorem requestSigns_eq (n : ℕ) (seq : UInt64) {rkey : Bytes} (h : n ≤ rkey.length) :
    requestSigns n seq rkey = tidSigns n seq++rkey.drop n := by
  induction n generalizing seq rkey with
  | zero => rfl
  | succ n ih =>
      have hn : n < (rkey.set n (tidSign (seq &&& 0x1F).toNat)).length := by
        rw [List.length_set]
        exact h
      have hstep : requestSigns (n+1) seq rkey =
          requestSigns n (seq >>> 5) (rkey.set n (tidSign (seq &&& 0x1F).toNat)) := rfl
      rw [hstep,ih _ hn.le,List.drop_eq_getElem_cons hn,List.getElem_set_self,
        List.drop_set_of_lt (Nat.lt_succ_self n),tidSigns,List.append_assoc]
      rfl

theorem controlRequestRkey_eq (seq : UInt64) :
    controlRequestRkey seq = sortableDigits tidSign 32 13 seq.toNat := by
  rw [controlRequestRkey,requestSigns_eq 13 seq (by decide),tidSigns_eq]
  exact List.append_nil _

theorem controlRequestRkey_lt {a b : UInt64} (h : a < b) :
    controlRequestRkey a < controlRequestRkey b := by
  rw [controlRequestRkey_eq,controlRequestRkey_eq]
  exact sortableDigits_lt (by decide) tidSign_lt (UInt64.lt_iff_toNat_lt.mp h) (value_lt b)

theorem controlRequestRkey_inj {a b : UInt64} (h : controlRequestRkey a = controlRequestRkey b) :
    a = b := by
  rw [controlRequestRkey_eq,controlRequestRkey_eq,
    sortableDigits_inj (by decide) tidSign_inj (value_lt a) (value_lt b)] at h
  exact UInt64.toNat_inj.mp h

/-- Keys compare as the numbers do, and tell them apart. -/
theorem control_request_rkey_sorts (a b : UInt64) :
    (controlRequestRkey a < controlRequestRkey b ↔ a < b) ∧
      (controlRequestRkey a = controlRequestRkey b → a = b) := by
  refine ⟨⟨fun h => ?_,controlRequestRkey_lt⟩,controlRequestRkey_inj⟩
  -- the other two cases would order the keys the other way
  rw [UInt64.lt_iff_toNat_lt]
  rcases Nat.lt_trichotomy a.toNat b.toNat with hlt | heq | hgt
  · exact hlt
  · rw [UInt64.toNat_inj.mp heq] at h
    exact absurd h (List.lt_irrefl _)
  · exact absurd (controlRequestRkey_lt (UInt64.lt_iff_toNat_lt.mpr hgt)) (List.lt_asymm h)

example : controlRequestRkey 33 = utf8 "2222222222233" := by decide +kernel

end Atperson.Control
