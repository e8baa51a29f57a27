import Atperson.Ledger.Consistency

/-!
# Runs of the whole ledger

Every operation of the ledger on one session, with the failures it meets, and runs of
them. A rewrite that loses its log leaves a handle that can only be reopened, so the
reopen is taken as part of it. A run stops where a reopen fails: there is no handle left.
-/
namespace Atperson.Ledger
open Wire

/-- The failures one operation meets: one commit fault for each record it writes, and the
fault of a rewrite. -/
structure Faults where
  commits : ℕ → Option CommitFault
  rewriting : Option CompactFault

def Faults.none : Faults := ⟨fun _ => .none,.none⟩

inductive Op where
  | append (a : AppendArgs)
  | setOutcome (id : UInt64) (byte : UInt8)
  | withdraw (id : UInt64)
  | withdrawSource (source : CString)
  | withdrawAuthor (author : CString)
  | compact (wantReport : Bool)
  | releasePayloads (wantReport : Bool) (maxBytes : ℕ)
  | reopen

section Run
variable (migrate : ℕ → Disk → Disk×Status)

def reopen (d : Disk) : Option Session :=
  match openLedger migrate d with
  | (d,.ok h) => some ⟨d,h⟩
  | (_,.error _) => none

def afterRewrite (r : CompactReply) : Option (Session×List Status) :=
  if r.logOpen then some (r.session,[r.status])
  else (reopen migrate r.session.disk).map (·,[r.status])

/-- One operation: the session it leaves, if there still is one, and the status of every
durable step it took. -/
def Op.run (faults : Faults) (s : Session) : Op → Option (Session×List Status)
  | .append a =>
      let r := Ledger.append (faults.commits 0) s a
      some (r.1,[r.2.status])
  | .setOutcome id byte =>
      let r := Ledger.setOutcome (faults.commits 0) s id byte
      some (r.1,[r.2])
  | .withdraw id =>
      let r := Ledger.withdraw (faults.commits 0) s id
      some (r.1,[r.2])
  | .withdrawSource source =>
      some (withdrawWhere (fromSource source) faults.commits s.handle.items.length s)
  | .withdrawAuthor author =>
      some (withdrawWhere (fromAuthor author) faults.commits s.handle.items.length s)
  | .compact wantReport => afterRewrite migrate (Ledger.compact faults.rewriting wantReport s)
  | .releasePayloads wantReport maxBytes =>
      afterRewrite migrate (Ledger.releasePayloads faults.rewriting wantReport s maxBytes)
  | .reopen => (Ledger.reopen migrate s.disk).map (·,[])

def runOps : Session → List (Faults×Op) → Option (Session×List Status)
  | s, [] => some (s,[])
  | s, (faults,op)::rest =>
      match op.run migrate faults s with
      | none => none
      | some (s',statuses) => (runOps s' rest).map fun r => (r.1,statuses++r.2)

end Run

/-! ## Entries that only gained or lost payloads -/

theorem rewritten_entries {items items' : List Item} (h : List.Forall₂ Rewritten items items') :
    items'.map Item.entry = items.map Item.entry := by
  induction h with
  | nil => rfl
  | cons hr _ ih => rw [List.map_cons,List.map_cons,hr.entry,ih]

theorem getElem?_of_entries {items items' : List Item}
    (h : items'.map Item.entry = items.map Item.entry) {i : ℕ} {it : Item}
    (hi : items[i]? = some it) : ∃ it', items'[i]? = some it' ∧ it'.entry = it.entry := by
  have hmap : items'[i]?.map Item.entry = some it.entry := by
    rw [← List.getElem?_map,h,List.getElem?_map,hi]
    rfl
  exact Option.map_eq_some_iff.mp hmap

theorem IdsMatch.of_entries {items items' : List Item} (hm : IdsMatch items)
    (h : items'.map Item.entry = items.map Item.entry) : IdsMatch items' := by
  intro i it hi
  obtain ⟨x,hx,he⟩ := getElem?_of_entries h.symm hi
  rw [← he]
  exact hm i x hx

theorem Sourced.of_entries {items items' : List Item} (hs : Sourced items)
    (h : items'.map Item.entry = items.map Item.entry) : Sourced items' := by
  intro it hit
  obtain ⟨i,hi⟩ := List.mem_iff_getElem?.mp hit
  obtain ⟨x,hx,he⟩ := getElem?_of_entries h.symm hi
  rw [← he]
  exact hs x (List.mem_of_getElem? hx)

theorem keys_of_entries {items items' : List Item}
    (h : items'.map Item.entry = items.map Item.entry) :
    items'.map Item.key = items.map Item.key := by
  have hk : ∀ l : List Item, l.map Item.key =
      (l.map Item.entry).map fun e => (e.sourceId.bytes,e.contentDigest) := fun l => by
    rw [List.map_map]
    rfl
  rw [hk,hk,h]

theorem outcomes_of_entries {items items' : List Item}
    (h : items'.map Item.entry = items.map Item.entry) :
    items'.map Item.outcome = items.map Item.outcome := by
  have hk : ∀ l : List Item, l.map Item.outcome = (l.map Item.entry).map LedgerEntry.outcome :=
    fun l => by
      rw [List.map_map]
      rfl
  rw [hk,hk,h]

theorem length_of_entries {items items' : List Item}
    (h : items'.map Item.entry = items.map Item.entry) : items'.length = items.length := by
  simpa using congrArg List.length h

theorem Sourced.append {items : List Item} (h : Sourced items) {it : Item}
    (hit : it.entry.sourceId.bytes ≠ []) : Sourced (items++[it]) := by
  intro x hx
  rcases List.mem_append.mp hx with hx | hx
  · exact h x hx
  · obtain rfl := List.mem_singleton.mp hx
    exact hit

theorem Sourced.setOutcomeAt {items : List Item} (h : Sourced items) (i : ℕ) (o : Outcome) :
    Sourced (setOutcomeAt i o items) := by
  intro x hx
  obtain ⟨j,hj⟩ := List.mem_iff_getElem?.mp hx
  rw [getElem?_setOutcomeAt] at hj
  split at hj
  · obtain ⟨y,hy,rfl⟩ := Option.map_eq_some_iff.mp hj
    exact h y (List.mem_of_getElem? hy)
  · exact h x (List.mem_of_getElem? hj)

theorem setOutcomeAt_keys (i : ℕ) (o : Outcome) (items : List Item) :
    (setOutcomeAt i o items).map Item.key = items.map Item.key := by
  refine List.ext_getElem? fun j => ?_
  rw [List.getElem?_map,getElem?_setOutcomeAt,List.getElem?_map]
  split <;> simp [Option.map_map,Function.comp_def]

/-! ## The invariant through a rewrite -/

section Rewrite
variable {errs : List Ghost} {s s' : Session} {log : Bytes}

theorem Knows.rewrite {mem mem' items : List Item} (h : Knows View.entry errs mem items)
    (he : mem'.map Item.entry = mem.map Item.entry) : Knows View.entry errs mem' items := by
  obtain ⟨kept,extra,hsplit,hfol,hone,hnew⟩ := h
  refine ⟨kept,extra,hsplit,hfol.rewrite he (outcomes_of_entries he),hone,
    fun it hit => ⟨(hnew it hit).1,fun m hm => ?_⟩⟩
  obtain ⟨i,hi⟩ := List.mem_iff_getElem?.mp hm
  obtain ⟨x,hx,hxe⟩ := getElem?_of_entries he.symm hi
  have hk : m.key = x.key := by rw [Item.key,Item.key,hxe]
  rw [hk]
  exact (hnew it hit).2 x (List.mem_of_getElem? hx)

/-- A log that was rewritten from the memory says exactly what the memory does. -/
theorem consistent_image {items : List Item} (hids : IdsMatch items) (hs : Sourced items)
    (hcount : items.length ≤ 2^63) (hsize : (logImage items).length ≤ fileMax)
    (hitems : s'.handle.items = items) (hfile : s'.disk.log = some (logImage items))
    (hmark : ∀ count offset, readOff s'.disk = some (count,offset) →
      count = items.length ∧ offset = (logImage items).length) :
    Consistent View.entry errs s' (logImage items) where
  file := hfile
  size := hsize
  header := logImage_header items
  count := by rw [hitems]; exact hcount
  reading := by
    rw [hitems,scanLog_eq.mpr (decodes_logImage hids hs hcount)]
    exact (Follows.refl _ _).knows
  complete := by
    rw [scanLog_eq.mpr (decodes_logImage hids hs hcount)]
    exact fun _ => rfl
  marker := by
    intro count offset hm
    obtain ⟨rfl,rfl⟩ := hmark count offset hm
    refine ⟨(logImage_header items).1,le_rfl,items,?_,rfl,?_⟩
    · rw [List.take_length]
      exact decodes_logImage hids hs hcount
    · rw [hitems]
      exact Follows.refl _ _

/-- A rewrite keeps the invariant, wherever it fails. -/
theorem Consistent.compacted (h : Consistent View.entry errs s log)
    (hids : IdsMatch s.handle.items) (hs : Sourced s.handle.items) {logOpen : Bool}
    {status : Status} (hc : Compacted s s' logOpen status) :
    ∃ log', Consistent View.entry errs s' log' := by
  cases hc with
  | unchanged => exact ⟨log,h⟩
  | kept hrw hoff hlog hmark =>
      have he := rewritten_entries hrw
      refine ⟨log,hlog.trans h.file,h.size,h.header,?_,h.reading.rewrite he,?_,?_⟩
      · rw [length_of_entries he]
        exact h.count
      · rw [hoff]
        exact h.complete
      · intro count offset hm
        rw [readOff,hmark] at hm
        obtain ⟨hlow,hhigh,items,hdec,hn,hfol⟩ := h.marker count offset hm
        exact ⟨hlow,hhigh,items,hdec,hn,hfol.rewrite he (outcomes_of_entries he)⟩
  | unmarked hrw hoff hlog hmark =>
      have he := rewritten_entries hrw
      refine ⟨log,hlog.trans h.file,h.size,h.header,?_,h.reading.rewrite he,?_,?_⟩
      · rw [length_of_entries he]
        exact h.count
      · rw [hoff]
        exact h.complete
      · intro count offset hm
        rw [readOff,hmark] at hm
        cases hm
  | swapped hrw hlog hmark hsize =>
      have he := rewritten_entries hrw
      refine ⟨_,consistent_image (hids.of_entries he) (hs.of_entries he)
        (by rw [length_of_entries he]; exact h.count) hsize rfl hlog fun count offset hm => ?_⟩
      rw [readOff,hmark] at hm
      cases hm
  | published hrw hlog hmark hoff hsize =>
      have he := rewritten_entries hrw
      have hcount : s'.handle.items.length ≤ 2^63 := by
        rw [length_of_entries he]
        exact h.count
      refine ⟨_,consistent_image (hids.of_entries he) (hs.of_entries he) hcount hsize rfl hlog
        fun count offset hm => ?_⟩
      have hread : readOff s'.disk =
          some (s'.handle.items.length,(logImage s'.handle.items).length) := by
        rw [readOff,hmark]
        simp only [fileMax] at hsize
        exact parseOff_offHeader (by omega) (by omega)
      obtain ⟨rfl,rfl⟩ := Prod.mk.inj (Option.some.inj (hm.symm.trans hread))
      exact ⟨rfl,rfl⟩

theorem Compacted.entries {logOpen : Bool} {status : Status} (hc : Compacted s s' logOpen status) :
    s'.handle.items.map Item.entry = s.handle.items.map Item.entry := by
  cases hc with
  | unchanged => rfl
  | kept hrw => exact rewritten_entries hrw
  | unmarked hrw => exact rewritten_entries hrw
  | swapped hrw => exact rewritten_entries hrw
  | published hrw => exact rewritten_entries hrw

/-- What a consistent session reopens to is known to its memory, with a marker or without. -/
theorem Consistent.reopened (h : Consistent View.entry errs s log)
    {migrate : ℕ → Disk → Disk×Status} {d' : Disk} {h' : Handle}
    (ho : openLedger migrate s.disk = (d',.ok h')) :
    Knows View.entry errs s.handle.items h'.items := by
  rw [openLedger_current migrate h.file h.header.1 h.header.2] at ho
  cases hm : readOff s.disk with
  | none =>
      rw [recover_healed (d := discardStaging s.disk) h.size hm Prod.mk.eta.symm] at ho
      obtain ⟨-,he⟩ := Prod.mk.inj ho
      obtain rfl := Except.ok.inj he
      exact h.reading
  | some marker =>
      obtain ⟨count,offset⟩ := marker
      obtain ⟨hlow,hhigh,items,hdec,hcount,hfol⟩ := h.marker count offset hm
      rw [recover_fenced (d := discardStaging s.disk) h.size hm hlow hhigh hdec hcount] at ho
      obtain ⟨-,he⟩ := Prod.mk.inj ho
      obtain rfl := Except.ok.inj he
      exact hfol.knows

end Rewrite

end Atperson.Ledger
