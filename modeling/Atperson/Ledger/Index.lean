import Atperson.Ledger.Commitment
import Atperson.Runs.Probing
import Atperson.Runs.Words

/-!
# The index of a ledger

The open-addressing index over source and digest: a ledger that carries it, opened from a log and
appended to. The entries lie in memory, so no size that counts them wraps.
-/
namespace Atperson.Ledger
open Wire Runs

/-- What an entry is looked up by. -/
abbrev Key := Bytes×UInt64

structure LedgerSlot where
  key : UInt64
  entry : UInt64
  deriving DecidableEq

/-- `ATP_LEDGER_SLOT_EMPTY`. -/
def slotEmpty : UInt64 := 0xFFFFFFFFFFFFFFFF

def LedgerSlot.view (slot : LedgerSlot) : Option ℕ :=
  if slot.entry = slotEmpty then none else some slot.entry.toNat

/-- `atp_ledger_derive_key`. -/
def deriveKey (key : Key) : UInt64 := fnvFrom (fnv1a64 key.1) (storeU64 key.2)

def keySlot (i : ℕ) (key : Key) : LedgerSlot := ⟨deriveKey key,UInt64.ofNat i⟩

def keyHash (key : Key) : ℕ := (deriveKey key).toNat

def vacantSlots (size : ℕ) : List LedgerSlot := List.replicate size ⟨0,slotEmpty⟩

/-- `atp_ledger_index_ensure_capacity`: the index behind it, `none` where it fails. The outer `none`
is a loop that never ends. -/
def ensureCapacity (allocated : Bool) (keys : List Key) (index : Option (List LedgerSlot)) :
    Option (Option (List LedgerSlot)) :=
  if index.any fun slots => keys.length+1 ≤ slots.length*7/10 then some index
  else match doubled ((keys.length+1)*10/7+1) 65 (index.elim 8 fun slots => slots.length*2) with
    | none => some none
    | some size =>
        if ¬(allocated ∧ size*16 ≤ wordMax) then some none
        else (fill LedgerSlot.view keyHash keySlot 0 keys (vacantSlots size)).map some

/-- Whether a slot is that of an entry with the key. -/
def hits (keys : List Key) (key : Key) (slot : LedgerSlot) (i : ℕ) : Bool :=
  slot.key = deriveKey key && keys[i]? = some key

/-- `(int64_t)entry`. -/
def asInt64 (entry : ℕ) : ℤ := if entry < 2^63 then entry else entry-2^64

/-- `atp_ledger_index_find`, `none` where the loop never ends. -/
def indexSearch (keys : List Key) (slots : List LedgerSlot) (key : Key) : Option ℤ :=
  if keys.length = 0 then some (-1)
  else (search LedgerSlot.view (hits keys key) slots (keyHash key)).map fun r => r.elim (-1) asInt64

structure IndexedLedger where
  session : Session
  slots : List LedgerSlot

namespace IndexedLedger

def items (l : IndexedLedger) : List Item := l.session.handle.items

def keys (l : IndexedLedger) : List Key := l.items.map Item.key

/-- `atp_ledger_index_find` of a ledger. -/
def find (l : IndexedLedger) (key : Key) : Option ℤ := indexSearch l.keys l.slots key

/-- `atp_ledger_open`: the recovery of the log ends with an index over it. -/
def opened (migrate : ℕ → Disk → Disk×Status) (allocated : Bool) (d : Disk) :
    Option (Except Status IndexedLedger) :=
  match openLedger migrate d with
  | (_,.error status) => some (.error status)
  | (d,.ok h) => (ensureCapacity allocated (h.items.map Item.key) none).map fun index =>
      match index with
      | none => .error .outOfMemory
      | some slots => .ok ⟨⟨d,h⟩,slots⟩

/-- Which allocations of an append succeed: the arrays, the index, the record. -/
structure Memory where
  arrays : Bool
  table : Bool
  record : Bool

/-- An append from where the index has room for it, unless memory ran out. -/
def appendBehind (m : Memory) (fault : Option CommitFault) (l : IndexedLedger) (v : Observation) :
    Option (List LedgerSlot) → Option (IndexedLedger×AppendReply)
  | none => some (l,⟨.notFound,0,.outOfMemory⟩)
  | some slots =>
      if ¬m.record then some (⟨l.session,slots⟩,⟨.notFound,0,.outOfMemory⟩)
      else
        let record := buildRecord (entryFrame v.item)
        match commitRecord fault l.session (l.items.length+1) record with
        | (s,.ok) =>
            (putFree LedgerSlot.view slots (keyHash v.item.key) (keySlot l.items.length v.item.key)).map
              fun slots => (⟨s.withItems (l.items++[v.item]),slots⟩,⟨.new,v.entry.id,.ok⟩)
        | (s,status) => some (⟨s,slots⟩,⟨.notFound,0,status⟩)

/-- `atp_ledger_append_with_context` with the index it keeps, `none` where a loop never ends or an
entry outside the array is read. -/
def append (m : Memory) (fault : Option CommitFault) (l : IndexedLedger) (a : AppendArgs) :
    Option (IndexedLedger×AppendReply) :=
  match a.validate l.items.length with
  | none => some (l,⟨.notFound,0,.invalidArgument⟩)
  | some v => do
      let found ← l.find (v.entry.sourceId.bytes,v.entry.contentDigest)
      if 0 ≤ found then
        let it ← l.items[found.toNat]?
        return (l,⟨if it.outcome.isCommitted then .existsCommitted else .existsPending,it.entry.id,.ok⟩)
      else if ¬(reserveEntries (l.items.length+1) ∧ m.arrays) then
        return (l,⟨.notFound,0,.outOfMemory⟩)
      else
        let index ← ensureCapacity m.table l.keys (some l.slots)
        l.appendBehind m fault v index

end IndexedLedger

/-- The ledgers that are reached from any log that opens. -/
inductive LedgerReaches (migrate : ℕ → Disk → Disk×Status) : IndexedLedger → Prop
  | opened {allocated : Bool} {d : Disk} {l : IndexedLedger} :
      IndexedLedger.opened migrate allocated d = some (.ok l) → LedgerReaches migrate l
  | appended {l l' : IndexedLedger} {m : IndexedLedger.Memory} {fault : Option CommitFault}
      {a : AppendArgs} {reply : AppendReply} : LedgerReaches migrate l →
      l.append m fault a = some (l',reply) → LedgerReaches migrate l'

/-! ## Tables -/

theorem view_keySlot {i : ℕ} (h : i < 2^64-1) (key : Key) : (keySlot i key).view = some i := by
  have hword : (UInt64.ofNat i).toNat = i := UInt64.toNat_ofNat_of_lt' (by simp [UInt64.size]; omega)
  have hne : UInt64.ofNat i ≠ slotEmpty := by
    intro heq
    have := congrArg UInt64.toNat heq
    rw [hword,show slotEmpty.toNat = 2^64-1 from rfl] at this
    omega
  rw [LedgerSlot.view,keySlot,if_neg hne,hword]

/-- A table over the keys with a slot to spare. -/
structure KeyTable (keys : List Key) (slots : List LedgerSlot) : Prop where
  spare : keys.length < slots.length
  stands : Stands LedgerSlot.view keyHash keySlot (2^64-1) keys slots

/-- A call for capacity ends. It leaves a table with two slots to spare, or fails. -/
theorem ensureCapacity_spec {keys : List Key} {index : Option (List LedgerSlot)}
    (h : ∀ slots, index = some slots → KeyTable keys slots) (allocated : Bool) :
    ensureCapacity allocated keys index = some none ∨ ∃ slots,
      ensureCapacity allocated keys index = some (some slots) ∧ keys.length+1 < slots.length ∧
        Stands LedgerSlot.view keyHash keySlot (2^64-1) keys slots := by
  have hpower : ∃ m, (index.elim 8 fun slots => slots.length*2) = 2^m := by
    cases index with
    | none => exact ⟨3,rfl⟩
    | some slots =>
        obtain ⟨n,hn⟩ := (h slots rfl).stands.power
        exact ⟨n+1,by rw [Option.elim_some,hn,Nat.pow_succ]⟩
  obtain ⟨m,hm⟩ := hpower
  unfold ensureCapacity
  split
  · rename_i hany
    cases index with
    | none => cases hany
    | some slots =>
        rw [Option.any_some,decide_eq_true_eq] at hany
        exact .inr ⟨slots,rfl,by omega,(h slots rfl).stands⟩
  · rw [hm]
    split
    · exact .inl rfl
    · rename_i size hd
      obtain ⟨hroom,n,hn⟩ := doubled_spec hd
      split
      · exact .inl rfl
      · have hblank : ∀ x ∈ vacantSlots size, LedgerSlot.view x = none := fun x hx => by
          rw [List.eq_of_mem_replicate hx]
          rfl
        have hlen : (vacantSlots size).length = size := List.length_replicate
        have hfits : keys.length < (vacantSlots size).length := by omega
        obtain ⟨slots,hfill,hlen',hstands⟩ :=
          stands_filled (fun _ => view_keySlot) hblank (hlen.trans hn) hfits
        refine .inr ⟨slots,by rw [hfill]; rfl,by omega,hstands⟩

namespace IndexedLedger
variable {l : IndexedLedger}

/-- A ledger of no more entries than there are positive numbers, with a table over their keys. -/
structure Sound (l : IndexedLedger) : Prop where
  count : l.keys.length ≤ 2^63
  table : KeyTable l.keys l.slots

/-- A search ends. It finds an entry with the key, and nothing only where there is none. -/
theorem Sound.find (h : l.Sound) (key : Key) : ∃ r : Option ℕ,
    l.find key = some (r.elim (-1) fun i => (i : ℤ)) ∧
      (∀ i, r = some i → l.keys[i]? = some key) ∧ (r = none → key ∉ l.keys) := by
  have hhit : ∀ i key', l.keys[i]? = some key' →
      (hits l.keys key (keySlot i key') i = true ↔ key' = key) := fun i key' hkey => by
    rw [hits,hkey,Bool.and_eq_true,decide_eq_true_eq,decide_eq_true_eq,Option.some_inj]
    exact ⟨fun hboth => hboth.2,fun heq => ⟨by rw [heq]; rfl,heq⟩⟩
  have hcount := h.count
  obtain ⟨r,hr,hsome,hnone⟩ := h.table.stands.search (fun _ => view_keySlot) h.table.spare (by omega)
    key hhit
  unfold IndexedLedger.find indexSearch
  split
  · rename_i hempty
    exact ⟨none,rfl,by simp,fun _ => by rw [List.length_eq_zero_iff.mp hempty]; exact List.not_mem_nil⟩
  · refine ⟨r,?_,hsome,hnone⟩
    rw [hr,Option.map_some]
    cases r with
    | none => rfl
    | some i =>
        have hlt := (List.getElem?_eq_some_iff.mp (hsome i rfl)).1
        rw [Option.elim_some,Option.elim_some,asInt64,if_pos (by omega)]

/-- A search returns the number of an entry exactly where the entry has the key, and -1 exactly where
none has. -/
def Exact (l : IndexedLedger) : Prop :=
  ∀ key, (∀ i : ℕ, l.find key = some (i : ℤ) ↔ l.keys[i]? = some key) ∧
    (l.find key = some (-1) ↔ key ∉ l.keys)

theorem Sound.exact_iff (h : l.Sound) : l.Exact ↔ l.keys.Nodup := by
  refine ⟨fun hexact => ?_,fun hdistinct key => ?_⟩
  · refine List.nodup_iff_getElem?_ne_getElem?.mpr fun i j hij hj heq => ?_
    have hkey : l.keys[j]? = some l.keys[j] := List.getElem?_eq_getElem hj
    have hfind := ((hexact l.keys[j]).1 j).mpr hkey
    rw [((hexact l.keys[j]).1 i).mpr (heq.trans hkey)] at hfind
    have := Option.some.inj hfind
    omega
  · obtain ⟨r,hr,hsome,hnone⟩ := h.find key
    simp only [hr,Option.some_inj]
    exact search_numbers hdistinct (fun _ _ => rfl) hsome hnone

/-! ## Opening and appending -/

/-- A log that opens ends with an index, or out of memory. -/
theorem opened_sound {migrate : ℕ → Disk → Disk×Status} (allocated : Bool) (d : Disk) :
    ∃ r, opened migrate allocated d = some r ∧ ∀ l, r = .ok l → l.Sound := by
  unfold opened
  split
  · exact ⟨_,rfl,fun l hl => by cases hl⟩
  · rename_i d' handle ho
    obtain ⟨log,hclean⟩ := openLedger_clean ho
    have hcount : (handle.items.map Item.key).length ≤ 2^63 := by
      rw [List.length_map]
      exact hclean.count
    have htable : ∀ slots, none = some slots → KeyTable (handle.items.map Item.key) slots :=
      fun slots hs => by cases hs
    rcases ensureCapacity_spec htable allocated with hr | ⟨slots,hr,hspare,hstands⟩
    · rw [hr]
      exact ⟨_,rfl,fun l hl => by cases hl⟩
    · rw [hr]
      refine ⟨_,rfl,fun l hl => ?_⟩
      cases hl
      exact ⟨hcount,Nat.lt_of_succ_lt hspare,hstands⟩

theorem commitRecord_items (fault : Option CommitFault) (s : Session) (count : ℕ) (record : Bytes) :
    (commitRecord fault s count record).1.handle.items = s.handle.items := by
  rcases commitRecord_cases fault s count record with ⟨s',k,he,hc⟩ | ⟨s',he,hc⟩ | ⟨s',he,hc⟩
  · rw [he,hc.handle]
  · rw [he,hc.items]
  · rw [he,hc.items]

theorem Sound.appendBehind (h : l.Sound) (hcount : l.items.length+1 ≤ 2^63) (m : Memory)
    (fault : Option CommitFault) (v : Observation) {index : Option (List LedgerSlot)}
    (hindex : ∀ slots, index = some slots → l.keys.length+1 < slots.length ∧
      Stands LedgerSlot.view keyHash keySlot (2^64-1) l.keys slots) :
    ∃ r, l.appendBehind m fault v index = some r ∧ r.1.Sound ∧
      (r.1.keys = l.keys ∨ r.1.keys = l.keys++[v.item.key]) := by
  cases index with
  | none => exact ⟨_,rfl,h,.inl rfl⟩
  | some slots =>
      obtain ⟨hspare,hstands⟩ := hindex slots rfl
      simp only [IndexedLedger.appendBehind]
      split
      · exact ⟨_,rfl,⟨h.count,Nat.lt_of_succ_lt hspare,hstands⟩,.inl rfl⟩
      · have hitems := commitRecord_items fault l.session (l.items.length+1)
          (buildRecord (entryFrame v.item))
        split
        · rename_i s hc
          have hkeys : (l.items++[v.item]).map Item.key = l.keys++[v.item.key] := List.map_append
          have hlen : (l.keys++[v.item.key]).length = l.keys.length+1 := by simp
          have hn : l.items.length = l.keys.length := (List.length_map _).symm
          obtain ⟨slots',hput,hsize,hstands'⟩ := hstands.insert (fun _ => view_keySlot)
            (Nat.lt_of_succ_lt hspare) hlen fun _ => ⟨rfl,hn⟩
          rw [hput]
          refine ⟨_,rfl,⟨?_,?_,?_⟩,.inr hkeys⟩
          · show ((l.items++[v.item]).map Item.key).length ≤ 2^63
            rw [hkeys,hlen,← hn]
            exact hcount
          · show ((l.items++[v.item]).map Item.key).length < slots'.length
            rw [hkeys,hlen,hsize]
            exact hspare
          · show Stands _ _ _ _ ((l.items++[v.item]).map Item.key) slots'
            rw [hkeys]
            exact hstands'
        · rename_i s status _ hc
          rw [hc] at hitems
          have hkeys : s.handle.items.map Item.key = l.keys := congrArg (List.map Item.key) hitems
          refine ⟨_,rfl,⟨?_,?_,?_⟩,.inl hkeys⟩
          · exact (congrArg List.length hkeys).trans_le h.count
          · exact (congrArg List.length hkeys).trans_lt (Nat.lt_of_succ_lt hspare)
          · show Stands _ _ _ _ (s.handle.items.map Item.key) slots
            rw [hkeys]
            exact hstands

/-- An append ends. It adds no key the ledger has. -/
theorem Sound.append (h : l.Sound) (m : Memory) (fault : Option CommitFault) (a : AppendArgs) :
    ∃ r, l.append m fault a = some r ∧ r.1.Sound ∧ (l.keys.Nodup → r.1.keys.Nodup) := by
  unfold IndexedLedger.append
  split
  · exact ⟨_,rfl,h,id⟩
  · rename_i v hv
    obtain ⟨r,hfind,hsome,hnone⟩ := h.find v.item.key
    have hfind' : l.find (v.entry.sourceId.bytes,v.entry.contentDigest) = _ := hfind
    rw [hfind']
    cases r with
    | some i =>
        have hkey := hsome i rfl
        rw [keys,List.getElem?_map] at hkey
        obtain ⟨it,hit,-⟩ := Option.map_eq_some_iff.mp hkey
        refine ⟨(l,⟨if it.outcome.isCommitted then .existsCommitted else .existsPending,it.entry.id,
          .ok⟩),?_,h,id⟩
        simp only [Option.elim_some,Option.bind_eq_bind,Option.bind_some,Int.natCast_nonneg,if_true,
          Int.toNat_natCast,hit]
        rfl
    | none =>
        simp only [Option.elim_none,Option.bind_eq_bind,Option.bind_some]
        rw [if_neg (by decide)]
        split
        · exact ⟨_,rfl,h,id⟩
        · rename_i hroom
          rw [not_not] at hroom
          have hcount : l.items.length+1 ≤ 2^63 := by simpa [reserveEntries] using hroom.1
          have htable : ∀ slots, some l.slots = some slots → KeyTable l.keys slots := fun slots hs =>
            Option.some.inj hs ▸ h.table
          obtain ⟨index,hindex,hstands⟩ : ∃ index, ensureCapacity m.table l.keys (some l.slots) =
              some index ∧ ∀ slots, index = some slots → l.keys.length+1 < slots.length ∧
                Stands LedgerSlot.view keyHash keySlot (2^64-1) l.keys slots := by
            rcases ensureCapacity_spec htable m.table with hr | ⟨slots,hr,hspare,hstands⟩
            · exact ⟨none,hr,fun slots hs => by cases hs⟩
            · exact ⟨some slots,hr,fun slots' hs => by cases hs; exact ⟨hspare,hstands⟩⟩
          obtain ⟨r,hr,hsound,hkeys⟩ := h.appendBehind hcount m fault v hstands
          rw [hindex,Option.bind_some]
          refine ⟨r,hr,hsound,fun hdistinct => ?_⟩
          rcases hkeys with hkeys | hkeys
          · rwa [hkeys]
          · rw [hkeys]
            exact List.nodup_append.mpr ⟨hdistinct,by simp,fun x hx y hy heq =>
              hnone rfl (by rw [List.mem_singleton.mp hy] at heq; exact heq ▸ hx)⟩

theorem lookup_at {items : List Item} (hdistinct : (items.map Item.key).Nodup) {i : ℕ} {it : Item}
    (hi : items[i]? = some it) : lookup items it.key.1 it.key.2 =
      (if it.outcome.isCommitted then .existsCommitted else .existsPending,some it.entry) := by
  have hmem := List.mem_of_getElem? hi
  have hfound : (indexFind items it.key.1 it.key.2).isSome :=
    List.find?_isSome.mpr ⟨it,hmem,by simp⟩
  obtain ⟨x,hx⟩ := Option.isSome_iff_exists.mp hfound
  have hkey : x.key = it.key := by simpa using List.find?_some hx
  obtain rfl := List.inj_on_of_nodup_map hdistinct (List.mem_of_find?_eq_some hx) hmem hkey
  rw [lookup,hx]

theorem lookup_absent {items : List Item} {key : Key} (h : key ∉ items.map Item.key) :
    lookup items key.1 key.2 = (.notFound,none) := by
  have hnone : indexFind items key.1 key.2 = none := List.find?_eq_none.mpr fun it hit heq =>
    h (List.mem_map.mpr ⟨it,hit,of_decide_eq_true heq⟩)
  rw [lookup,hnone]

/-- While the keys are distinct, an append that memory lasts for does through the index what it does by
going through the entries. -/
theorem append_agrees (h : l.Sound) (hdistinct : l.keys.Nodup) {m : Memory}
    {fault : Option CommitFault} {a : AppendArgs} {l' : IndexedLedger} {reply : AppendReply}
    (hr : l.append m fault a = some (l',reply)) :
    reply.status = .outOfMemory ∨ Ledger.append fault l.session a = (l'.session,reply) := by
  have hitems : l.items = l.session.handle.items := rfl
  unfold IndexedLedger.append at hr
  split at hr
  · rename_i hv
    cases hr
    right
    simp only [Ledger.append,appendDecision,← hitems,hv]
  · rename_i v hv
    obtain ⟨r,hfind,hsome,hnone⟩ := h.find v.item.key
    have hfind' : l.find (v.entry.sourceId.bytes,v.entry.contentDigest) = _ := hfind
    rw [hfind'] at hr
    cases r with
    | some i =>
        have hkey := hsome i rfl
        rw [keys,List.getElem?_map] at hkey
        obtain ⟨it,hit,heq⟩ := Option.map_eq_some_iff.mp hkey
        simp only [Option.elim_some,Option.bind_eq_bind,Option.bind_some,Int.natCast_nonneg,if_true,
          Int.toNat_natCast,hit] at hr
        cases hr
        have hlookup := lookup_at hdistinct hit
        rw [heq] at hlookup
        right
        simp only [Ledger.append,appendDecision,← hitems,hv]
        rw [show lookup l.items v.entry.sourceId.bytes v.entry.contentDigest = _ from hlookup]
    | none =>
        simp only [Option.elim_none,Option.bind_eq_bind,Option.bind_some] at hr
        rw [if_neg (by decide)] at hr
        have hlookup : lookup l.items v.entry.sourceId.bytes v.entry.contentDigest = _ :=
          lookup_absent (hnone rfl)
        split at hr
        · cases hr
          exact .inl rfl
        · rename_i hroom
          rw [not_not] at hroom
          obtain ⟨index,-,hr⟩ := Option.bind_eq_some_iff.mp hr
          have hdecision : appendDecision l.session.handle.items a = .ok v := by
            simp only [appendDecision,← hitems,hv,hlookup,hroom.1,not_true_eq_false,if_false]
          cases index with
          | none =>
              cases hr
              exact .inl rfl
          | some slots =>
              simp only [IndexedLedger.appendBehind] at hr
              split at hr
              · cases hr
                exact .inl rfl
              · right
                rcases hcommit : commitRecord fault l.session (l.items.length+1)
                  (buildRecord (entryFrame v.item)) with ⟨s,status⟩
                rw [hcommit] at hr
                simp only [Ledger.append,hdecision]
                rw [← hitems,hcommit]
                cases status with
                | ok =>
                    obtain ⟨slots',-,he⟩ := Option.map_eq_some_iff.mp hr
                    cases he
                    rfl
                | _ =>
                    cases hr
                    rfl

end IndexedLedger

/-- Every ledger reached has a table over its keys. -/
theorem LedgerReaches.sound {migrate : ℕ → Disk → Disk×Status} {l : IndexedLedger}
    (h : LedgerReaches migrate l) : l.Sound := by
  induction h with
  | @opened allocated d l ho =>
      obtain ⟨r,hr,hsound⟩ := @IndexedLedger.opened_sound migrate allocated d
      cases ho.symm.trans hr
      exact hsound l rfl
  | appended _ hstep ih =>
      obtain ⟨r,hr,hsound,-⟩ := ih.append _ _ _
      cases hstep.symm.trans hr
      exact hsound

/-- A log that commits in step left opens to distinct keys. -/
theorem opened_distinct (migrate : ℕ → Disk → Disk×Status) (ops : List (Faults×Op)) {s : Session}
    {statuses : List Status} (hrun : runOps migrate createdSession ops = some (s,statuses))
    (hin : RunCommitting migrate createdSession ops) {allocated : Bool} {l : IndexedLedger}
    (ho : IndexedLedger.opened migrate allocated s.disk = some (.ok l)) : l.keys.Nodup := by
  obtain ⟨log,h0⟩ := settled_created
  obtain ⟨⟨errs,log',h1⟩,-⟩ := h0.runOps hin hrun
  unfold IndexedLedger.opened at ho
  split at ho
  · cases ho
  · rename_i d handle hopen
    obtain ⟨index,-,hl⟩ := Option.map_eq_some_iff.mp ho
    cases index with
    | none => cases hl
    | some slots =>
        cases hl
        have hreopen : reopen migrate s.disk = some ⟨d,handle⟩ := by rw [reopen,hopen]
        obtain ⟨⟨log'',h2⟩,-⟩ := h1.reopen hreopen
        exact h2.keys

end Atperson.Ledger
