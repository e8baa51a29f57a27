import Atperson.Ledger.Recover

/-!
# Reading entries

Payloads and contexts by entry id. A payload is checked against its digest whenever it is
read. A ledger numbers its entries from one, so an id finds the entry that has it.
-/
namespace Atperson.Ledger
open Wire

/-- `atp_ledger_digest`. -/
def digest (data : Bytes) : UInt64 :=
  data.foldl (fun h b => (h^^^b.toUInt64)*1099511628211) 1469598103934665603

section Query
variable (items : List Item)

def entryById (id : UInt64) : Option Item :=
  if id = 0 ∨ items.length < id.toNat then none else items[id.toNat-1]?

/-- `atp_ledger_entry_payload`, into a buffer of the given capacity or for the length
alone. -/
def entryPayload (id : UInt64) (capacity : Option ℕ) : Status×Bytes :=
  match entryById items id with
  | none => (.notFound,[])
  | some it =>
      let payload := it.payload.retained
      if payload = [] then (.ok,[])
      else if digest payload ≠ it.entry.contentDigest then (.format,[])
      else match capacity with
        | none => (.ok,payload)
        | some room => if room < payload.length then (.invalidArgument,[]) else (.ok,payload)

/-- `atp_ledger_entry_payload_released`. -/
def entryPayloadReleased (id : UInt64) : Bool :=
  match entryById items id with
  | none => false
  | some it => it.payload = .released

/-- `atp_ledger_entry_context`. -/
def entryContext (id : UInt64) : Status×ConversationContext :=
  match entryById items id with
  | none => (.notFound,.empty)
  | some it => (.ok,it.context)

end Query

theorem entryById_self {items : List Item} (hm : IdsMatch items) {i : ℕ} {it : Item}
    (hi : items[i]? = some it) : entryById items it.entry.id = some it := by
  have hid : it.entry.id.toNat = i+1 := hm i it hi
  obtain ⟨hlt,-⟩ := List.getElem?_eq_some_iff.mp hi
  have hne : it.entry.id ≠ 0 := fun h => by
    rw [h] at hid
    simp at hid
  rw [entryById,if_neg (by rintro (h | h); exact hne h; omega),hid,Nat.add_sub_cancel,hi]

end Atperson.Ledger
