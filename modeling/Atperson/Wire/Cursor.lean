import Atperson.Wire.CText

/-!
# Bounded readers

A `Reader` consumes bytes from the front of a list and may refuse. `Decodes r enc v`
says that `r` takes exactly the bytes `enc` off the front of any list and returns
`v`. The relation is closed under sequencing, so the round trip of a format
follows its shape field by field.
-/
namespace Atperson.Wire

abbrev Reader := StateT Bytes Option

namespace Reader

def bytes (n : ℕ) : Reader Bytes := fun bs =>
  if bs.length < n then none else some (bs.take n,bs.drop n)

def u8 : Reader UInt8 := fun bs =>
  match bs with
  | [] => none
  | b::rest => some (b,rest)

def u32 : Reader UInt32 := do return loadU32 (← bytes 4)

def u64 : Reader UInt64 := do return loadU64 (← bytes 8)

/-- Refuse unless a condition on what was read holds. -/
def check (c : Bool) : Reader Unit := fun bs => if c then some ((),bs) else none

def remaining : Reader ℕ := fun bs => some (bs.length,bs)

/-- The same reader `n` times. -/
def many {α : Type} (r : Reader α) : ℕ → Reader (List α)
  | 0 => return []
  | n+1 => do
      let x ← r
      let xs ← many r n
      return x::xs

/-- Run a reader over a whole list: it must leave nothing. -/
def whole {α : Type} (r : Reader α) (bs : Bytes) : Option α :=
  match r bs with
  | some (v,[]) => some v
  | _ => none

def Decodes {α : Type} (r : Reader α) (enc : Bytes) (v : α) : Prop :=
  ∀ rest, r (enc++rest) = some (v,rest)

variable {α β : Type} {r : Reader α} {v : α}

theorem Decodes.pure (v : α) : Decodes (Pure.pure v : Reader α) [] v := fun _ => rfl

theorem Decodes.bind {k : α → Reader β} {e e' : Bytes} {w : β} (h : Decodes r e v)
    (h' : Decodes (k v) e' w) : Decodes (r >>= k) (e++e') w := by
  intro rest
  show (r (e++e'++rest)).bind (fun p => k p.1 p.2) = _
  rw [List.append_assoc,h (e'++rest),Option.bind_some,h' rest]

/-- The last field of a record: what follows only packs the value. -/
theorem Decodes.last {k : α → Reader β} {e : Bytes} {w : β} (h : Decodes r e v)
    (h' : k v = Pure.pure w) : Decodes (r >>= k) e w := by
  have hpure : Decodes (k v) [] w := by rw [h']; exact Decodes.pure w
  have := h.bind hpure
  simpa using this

theorem Decodes.checked {k : Unit → Reader β} {c : Bool} {e : Bytes} {w : β} (hc : c = true)
    (h : Decodes (k ()) e w) : Decodes (check c >>= k) e w := by
  have hcheck : Decodes (check c) [] () := fun rest => by simp [check,hc]
  exact hcheck.bind h

theorem Decodes.whole {e : Bytes} (h : Decodes r e v) : whole r e = some v := by
  have := h []
  rw [List.append_nil] at this
  simp [Reader.whole,this]

theorem decodes_bytes (bs : Bytes) : Decodes (bytes bs.length) bs bs := fun rest => by
  simp [bytes]

theorem decodes_u8 (b : UInt8) : Decodes u8 [b] b := fun _ => rfl

theorem decodes_u32 (x : UInt32) : Decodes u32 (storeU32 x) x := by
  have h : Decodes (bytes 4) (storeU32 x) (storeU32 x) := by
    simpa using decodes_bytes (storeU32 x)
  exact h.last (by rw [loadU32_store_nil])

theorem decodes_u64 (x : UInt64) : Decodes u64 (storeU64 x) x := by
  have h : Decodes (bytes 8) (storeU64 x) (storeU64 x) := by
    simpa using decodes_bytes (storeU64 x)
  exact h.last (by rw [loadU64_store_nil])

theorem decodes_many {enc : α → Bytes} {xs : List α} (h : ∀ x ∈ xs, Decodes r (enc x) x) :
    Decodes (many r xs.length) (xs.flatMap enc) xs := by
  induction xs with
  | nil => exact Decodes.pure []
  | cons x xs ih =>
      rw [List.flatMap_cons]
      have htail := ih fun y hy => h y (List.mem_cons_of_mem x hy)
      exact (h x List.mem_cons_self).bind (htail.last rfl)

end Reader
end Atperson.Wire
