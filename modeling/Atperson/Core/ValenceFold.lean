import Atperson.Core.Valence

/-!
# Valence as a fold

An event moves the record of its own node and no other, so the record of a node is the fold
of the events on it, in their order. Where the records stand in the array does not matter to
that.
-/
namespace Atperson.Core
open Wire
open Ledger (Status)

/-- The record of a node, if it has one. -/
def recordOf (node : ℕ) (records : List ValenceRecord) : Option ValenceRecord :=
  records.find? fun r => r.nodeIndex = node

/-- The record of a node after one more event. -/
def markRecord (rate : Float32) (node : ℕ) (signal : ℚ) (atEpoch : UInt64) :
    Option ValenceRecord → ValenceRecord
  | some r => r.bump rate signal atEpoch
  | none => .first node rate signal atEpoch

section Records
variable {node : ℕ} {records : List ValenceRecord}

theorem recordOf_modify {f : ValenceRecord → ValenceRecord}
    (hf : ∀ r, (f r).nodeIndex = r.nodeIndex) {k : ℕ}
    (hk : records.findIdx? (fun r => r.nodeIndex = node) = some k) (i : ℕ) :
    recordOf i (records.modify k f) =
      if i = node then (recordOf node records).map f else recordOf i records := by
  induction records generalizing k with
  | nil => cases hk
  | cons r rest ih =>
      rw [List.findIdx?_cons] at hk
      by_cases hr : r.nodeIndex = node
      · rw [if_pos (decide_eq_true hr)] at hk
        obtain rfl := Option.some.inj hk
        subst hr
        by_cases hi : i = r.nodeIndex
        · simp [recordOf,hi,hf]
        · simp [recordOf,hi,hf,Ne.symm hi]
      · rw [if_neg (by simpa using hr)] at hk
        obtain ⟨j,hj,rfl⟩ := Option.map_eq_some_iff.mp hk
        have hrest := ih hj
        unfold recordOf at hrest ⊢
        rw [List.modify_succ_cons,List.find?_cons,List.find?_cons,List.find?_cons,hrest]
        by_cases hi : r.nodeIndex = i
        · have hne : i ≠ node := fun he => hr (hi.trans he)
          simp [hi,hne]
        · simp [hi,hr]

theorem recordOf_append (before after : List ValenceRecord) (i : ℕ) :
    recordOf i (before++after) = (recordOf i before).or (recordOf i after) := List.find?_append

theorem recordOf_none (h : records.findIdx? (fun r => r.nodeIndex = node) = none) :
    recordOf node records = none := by
  rw [recordOf,List.find?_eq_none]
  exact fun r hr => by simpa using List.findIdx?_eq_none_iff.mp h r hr

/-- An event moves the record of its node and leaves the others as they are. -/
theorem recordOf_recordValence (rate : Float32) (node : ℕ) (signal : ℚ) (atEpoch : UInt64)
    (records : List ValenceRecord) (i : ℕ) :
    recordOf i (recordValence rate node signal atEpoch records) =
      if i = node then some (markRecord rate node signal atEpoch (recordOf node records))
      else recordOf i records := by
  unfold recordValence
  cases hk : records.findIdx? fun r => r.nodeIndex = node with
  | some k =>
      have hbump : ∀ r : ValenceRecord, (r.bump rate signal atEpoch).nodeIndex = r.nodeIndex :=
        fun _ => rfl
      simp only [recordOf_modify hbump hk]
      split
      · have hsome : (recordOf node records).isSome = true := by
          rw [recordOf,List.find?_isSome,← List.any_eq_true,← List.findIdx?_isSome,hk]
          rfl
        obtain ⟨r,hr⟩ := Option.isSome_iff_exists.mp hsome
        rw [hr]
        rfl
      · rfl
  | none =>
      simp only
      have hsplit : (records.takeWhile fun r => r.nodeIndex < node)++
          records.drop (records.takeWhile fun r => r.nodeIndex < node).length = records := by
        nth_rewrite 1 [List.prefix_iff_eq_take.mp (List.takeWhile_prefix _)]
        exact List.take_append_drop _ _
      generalize (records.takeWhile fun r => r.nodeIndex < node) = before at hsplit ⊢
      generalize records.drop before.length = after at hsplit ⊢
      have hfirst : recordOf i (.first node rate signal atEpoch::after) =
          if i = node then some (.first node rate signal atEpoch) else recordOf i after := by
        by_cases hi : i = node
        · simp [recordOf,ValenceRecord.first,hi]
        · simp [recordOf,ValenceRecord.first,hi,Ne.symm hi]
      have hnode := recordOf_none hk
      rw [recordOf_append,hfirst,hnode]
      split
      · rename_i hi
        rw [← hsplit,recordOf_append,Option.or_eq_none_iff] at hnode
        rw [hi,hnode.1]
        rfl
      · rw [← recordOf_append,hsplit]

end Records

/-! ## Events -/

namespace Graph

/-- What an event that is accepted does. -/
structure Marked (g g' : Graph) (token : CString) (signal : Single) (atEpoch : UInt64) : Prop where
  config : g'.config = g.config
  nodes : g'.nodes = g.nodes
  topology : g'.neuralArchitecture = g.neuralArchitecture
  migrations : g'.neuralMigrations = g.neuralMigrations
  record : ∃ q node, signal.value = .finite q ∧ g.findToken token = some node ∧
    ∀ i, recordOf i g'.valenceRecords =
      if i = node then some (markRecord (effectiveValenceRate g.config) node (clampSignal q) atEpoch
        (recordOf node g.valenceRecords))
      else recordOf i g.valenceRecords

theorem logValence_records (g : Graph) (event : ValenceEvent) :
    (g.logValence event).valenceRecords = g.valenceRecords := by
  unfold logValence
  split <;> rfl

theorem logValence_kind (g : Graph) (event : ValenceEvent) :
    (g.logValence event).config = g.config ∧ (g.logValence event).nodes = g.nodes ∧
      (g.logValence event).neuralArchitecture = g.neuralArchitecture := by
  unfold logValence
  split <;> exact ⟨rfl,rfl,rfl⟩

/-- An event is accepted where its signal is finite and its token known. -/
theorem valenceEvent_accepted {g : Graph} {token : CString} {q : ℚ} {signal : Single} {node : ℕ}
    (hq : signal.value = .finite q) (hnode : g.findToken token = some node) (kind : ValenceKind)
    (atEpoch : UInt64) (sourceId : CString) :
    ∃ g', g.valenceEvent token kind signal atEpoch sourceId = (g',.ok) := by
  unfold valenceEvent
  rw [hq]
  simp only [hnode]
  exact ⟨_,rfl⟩

theorem valenceEvent_marks {g g' : Graph} {token sourceId : CString} {kind : ValenceKind}
    {signal : Single} {atEpoch : UInt64}
    (h : g.valenceEvent token kind signal atEpoch sourceId = (g',.ok)) :
    Marked g g' token signal atEpoch := by
  have hmigrations := (valenceEvent_ok h).2
  unfold valenceEvent at h
  split at h
  · rename_i q hq
    split at h
    · cases h
    · rename_i node hnode
      cases h
      refine ⟨(logValence_kind _ _).1,(logValence_kind _ _).2.1,(logValence_kind _ _).2.2,
        hmigrations,q,node,hq,hnode,fun i => ?_⟩
      rw [logValence_records]
      exact recordOf_recordValence _ _ _ _ _ i
  · cases h

end Graph

end Atperson.Core
