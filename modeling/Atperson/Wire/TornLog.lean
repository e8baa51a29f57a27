import Atperson.Wire.LittleEndian

/-!
# Logs with a torn tail

A reader that tells an end inside a record from bytes that are wrong. Records that were
written one behind the other, the last one cut short, are read up to the cut: the scan gives
the complete records, the offset behind them and whether bytes follow.
-/
namespace Atperson.Wire

inductive ReadFailure where
  | torn
  | bad (message : String)
  deriving DecidableEq

abbrev StreamReader (α : Type) := StateT Bytes (Except ReadFailure) α

namespace StreamReader

def bytes (n : ℕ) : StreamReader Bytes := fun bs =>
  if bs.length < n then .error .torn else .ok (bs.take n,bs.drop n)

def fail {α : Type} (message : String) : StreamReader α := fun _ => .error (.bad message)

def u8 : StreamReader UInt8 := do return ((← bytes 1).headD 0)

def u32 : StreamReader UInt32 := do return loadU32 (← bytes 4)

def u64 : StreamReader UInt64 := do return loadU64 (← bytes 8)

variable {α β : Type}

/-- The reader takes exactly the encoding, and no proper prefix of it is anything but torn. -/
structure Tells (r : StreamReader α) (enc : Bytes) (a : α) : Prop where
  whole : ∀ rest, r (enc++rest) = .ok (a,rest)
  torn : ∀ k < enc.length, r (enc.take k) = .error .torn

section Laws
variable {r : StreamReader α} {enc : Bytes} {a : α}

theorem tells_bytes (bs : Bytes) : Tells (bytes bs.length) bs bs where
  whole rest := by
    rw [bytes,if_neg (by simp),List.take_left,List.drop_left]
  torn k hk := by
    rw [bytes,if_pos (by rw [List.length_take]; omega)]

theorem Tells.pure (a : α) : Tells (Pure.pure a : StreamReader α) [] a :=
  ⟨fun _ => rfl,fun k hk => absurd hk (Nat.not_lt_zero k)⟩

theorem Tells.bind {k : α → StreamReader β} {enc' : Bytes} {b : β} (h : Tells r enc a)
    (h' : Tells (k a) enc' b) : Tells (r >>= k) (enc++enc') b where
  whole rest := by
    show (r (enc++enc'++rest)).bind (fun p => k p.1 p.2) = _
    rw [List.append_assoc,h.whole]
    exact h'.whole rest
  torn n hn := by
    show (r ((enc++enc').take n)).bind (fun p => k p.1 p.2) = _
    rw [List.length_append] at hn
    by_cases hlt : n < enc.length
    · rw [List.take_append_of_le_length hlt.le,h.torn n hlt]
      rfl
    · rw [List.take_append,List.take_of_length_le (not_lt.mp hlt),h.whole]
      exact h'.torn _ (by omega)

theorem bind_failed {k : α → StreamReader β} {bs : Bytes} {failure : ReadFailure}
    (h : r bs = .error failure) : (r >>= k) bs = .error failure := by
  show (r bs).bind (fun p => k p.1 p.2) = _
  rw [h]
  rfl

/-- A failure behind a field that is told. -/
theorem Tells.bind_error {k : α → StreamReader β} {rest : Bytes} {failure : ReadFailure}
    (h : Tells r enc a) (hk : k a rest = .error failure) :
    (r >>= k) (enc++rest) = .error failure := by
  show (r (enc++rest)).bind (fun p => k p.1 p.2) = _
  rw [h.whole]
  exact hk

/-- What follows only packs the value. -/
theorem Tells.last {k : α → StreamReader β} {b : β} (h : Tells r enc a)
    (h' : k a = Pure.pure b) : Tells (r >>= k) enc b := by
  have hpure : Tells (k a) [] b := by rw [h']; exact Tells.pure b
  have := h.bind hpure
  rwa [List.append_nil] at this

theorem tells_u8 (b : UInt8) : Tells u8 [b] b := (tells_bytes [b]).last rfl

theorem tells_u32 (x : UInt32) : Tells u32 (storeU32 x) x := by
  have h := tells_bytes (storeU32 x)
  rw [storeU32_length] at h
  exact h.last (by rw [loadU32_store_nil])

theorem tells_u64 (x : UInt64) : Tells u64 (storeU64 x) x := by
  have h := tells_bytes (storeU64 x)
  rw [storeU64_length] at h
  exact h.last (by rw [loadU64_store_nil])

end Laws

end StreamReader

/-- What a scan has visited when it ends: the records, the offset behind the last one, whether
the log ends inside a record, and the error that ended it. -/
structure Scanned (α : Type) where
  entries : List α := []
  goodEnd : ℕ := 0
  torn : Bool := false
  failure : Option String := none

section Scan
variable {α : Type} (r : StreamReader α)

def Scanned.behind (a : α) (size : ℕ) (s : Scanned α) : Scanned α :=
  { s with entries := a::s.entries, goodEnd := size+s.goodEnd }

/-- Record after record until nothing is left; a record is not empty, so the length is fuel. -/
def scanRecordsFuel : ℕ → Bytes → Scanned α
  | _, [] => {}
  | 0, _ => {}
  | fuel+1, bs =>
      match r bs with
      | .error .torn => { torn := true }
      | .error (.bad message) => { failure := some message }
      | .ok (a,rest) => (scanRecordsFuel fuel rest).behind a (bs.length-rest.length)

def scanRecords (bs : Bytes) : Scanned α := scanRecordsFuel r bs.length bs

variable {r} {enc : α → Bytes}

@[simp] theorem scanRecordsFuel_nil (fuel : ℕ) : scanRecordsFuel r fuel [] = {} := by
  cases fuel <;> rfl

theorem scanRecordsFuel_cons {fuel : ℕ} {bs rest : Bytes} {a : α} (hne : bs ≠ [])
    (h : r bs = .ok (a,rest)) : scanRecordsFuel r (fuel+1) bs =
      (scanRecordsFuel r fuel rest).behind a (bs.length-rest.length) := by
  cases bs with
  | nil => exact absurd rfl hne
  | cons b bs => simp only [scanRecordsFuel,h]

theorem scanRecordsFuel_torn {fuel : ℕ} {bs : Bytes} (hne : bs ≠ []) (h : r bs = .error .torn) :
    scanRecordsFuel r (fuel+1) bs = { torn := true } := by
  cases bs with
  | nil => exact absurd rfl hne
  | cons b bs => simp only [scanRecordsFuel,h]

theorem scanRecords_bad {bs : Bytes} {message : String} (hne : bs ≠ [])
    (h : r bs = .error (.bad message)) : scanRecords r bs = { failure := some message } := by
  cases bs with
  | nil => exact absurd rfl hne
  | cons b bs => simp only [scanRecords,List.length_cons,scanRecordsFuel,h]

/-- Records behind each other, and then the proper prefix of a record. -/
theorem scanRecordsFuel_encoded {es : List α} (htells : ∀ e ∈ es, r.Tells (enc e) e)
    (hne : ∀ e ∈ es, enc e ≠ []) {tail : Bytes}
    (htail : tail ≠ [] → r tail = .error .torn) {fuel : ℕ}
    (hfuel : (es.flatMap enc++tail).length ≤ fuel) :
    scanRecordsFuel r fuel (es.flatMap enc++tail) =
      ⟨es,(es.flatMap enc).length,decide (tail ≠ []),none⟩ := by
  induction es generalizing fuel with
  | nil =>
      rw [List.flatMap_nil,List.nil_append] at hfuel ⊢
      by_cases hnil : tail = []
      · subst hnil
        rw [scanRecordsFuel_nil]
        rfl
      · obtain ⟨m,rfl⟩ : ∃ m, fuel = m+1 :=
          ⟨fuel-1,by have := List.length_pos_iff.mpr hnil; omega⟩
        rw [scanRecordsFuel_torn hnil (htail hnil),decide_eq_true hnil]
        rfl
  | cons e rest ih =>
      have hpos := List.length_pos_iff.mpr (hne e List.mem_cons_self)
      rw [List.flatMap_cons,List.append_assoc] at hfuel ⊢
      rw [List.length_append] at hfuel
      obtain ⟨m,rfl⟩ : ∃ m, fuel = m+1 := ⟨fuel-1,by omega⟩
      rw [scanRecordsFuel_cons (List.append_ne_nil_of_left_ne_nil (hne e List.mem_cons_self) _)
        ((htells e List.mem_cons_self).whole _),
        ih (fun x hx => htells x (List.mem_cons_of_mem _ hx))
          (fun x hx => hne x (List.mem_cons_of_mem _ hx)) (by omega),
        Scanned.behind,List.length_append,Nat.add_sub_cancel,List.length_append]

theorem scanRecords_encoded {es : List α} (htells : ∀ e ∈ es, r.Tells (enc e) e)
    (hne : ∀ e ∈ es, enc e ≠ []) {tail : Bytes} (htail : tail ≠ [] → r tail = .error .torn) :
    scanRecords r (es.flatMap enc++tail) =
      ⟨es,(es.flatMap enc).length,decide (tail ≠ []),none⟩ :=
  scanRecordsFuel_encoded htells hne htail le_rfl

end Scan

end Atperson.Wire
