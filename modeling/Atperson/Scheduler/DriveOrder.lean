import Atperson.Core.Expansion
import Atperson.Floats.Order
import Atperson.Runs.StableSort
import Atperson.Scheduler.Drives

/-!
# What a cycle decides on, and in what order

The selection takes the newest entries that were learned or skipped and still have their text.
Every signal is a number of the unit interval, so the comparator is a strict weak order and the
stable sort has one result.
-/
namespace Atperson.Scheduler
open Wire Journal Floats Runs
open Atperson.Core (Utf8proc Graph)
open Ledger (Item IdsMatch entryPayload entryById digest)

/-! ## Selection -/

/-- The newest entries that pass a test, as contexts. -/
def newest (keep : Item → Bool) (n : ℕ) (items : List Item) : List ContextCandidate :=
  ((items.filter keep).take n).map fun it => candidateOf it it.payload.retained

section Selection
variable {items rest : List Item} {it : Item} {room : ℕ} {payload : Bytes}
  {out : List ContextCandidate}

end Selection

/-! ## Signals -/

/-- A number of the unit interval. -/
def InUnit (x : Float32) : Prop := 0 ≤ x ∧ x ≤ 1

section Signals
variable {x y : Float32}

theorem InUnit.number (h : InUnit x) : IsNumber x := number_of_le h.2

example : ¬InUnit 2 := by
  unfold InUnit
  decide +kernel

/-- Every signal is a number of the unit interval. -/
structure UnitSignals (s : Signals) : Prop where
  intent : InUnit s.intent
  reciprocity : InUnit s.reciprocity
  curiosity : InUnit s.curiosity

end Signals

/-! ## Order -/

/-- Equal signals. -/
def Level (a b : Signals) : Prop := (a.intent == b.intent) = true ∧
  (a.reciprocity == b.reciprocity) = true ∧ (a.curiosity == b.curiosity) = true

section Order
variable {a b : Signals} {signals : List Signals}

abbrev SignalPlace := Place ×ₗ Place ×ₗ Place

def signalPlace (s : Signals) : SignalPlace :=
  toLex (placeOf s.intent,toLex (placeOf s.reciprocity,placeOf s.curiosity))

theorem signalPlace_lt_iff : signalPlace b < signalPlace a ↔
    placeOf b.intent < placeOf a.intent ∨ placeOf b.intent = placeOf a.intent ∧
      (placeOf b.reciprocity < placeOf a.reciprocity ∨ placeOf b.reciprocity = placeOf a.reciprocity ∧
        placeOf b.curiosity < placeOf a.curiosity) := by
  unfold signalPlace
  rw [Prod.Lex.toLex_lt_toLex,Prod.Lex.toLex_lt_toLex]

theorem before_iff (ha : UnitSignals a) (hb : UnitSignals b) :
    before a b = true ↔ signalPlace b < signalPlace a := by
  have key {x y : Float32} (hx : InUnit x) (hy : InUnit y) :
      ((x != y) = true ↔ placeOf x ≠ placeOf y) ∧ (y < x ↔ placeOf y < placeOf x) := by
    rw [bne,Bool.not_eq_true',← Bool.not_eq_true,beq_iff_place hx.number hy.number]
    exact ⟨Iff.rfl,lt_iff_place hy.number hx.number⟩
  obtain ⟨hintent,hmore⟩ := key ha.intent hb.intent
  obtain ⟨hreciprocity,hmore'⟩ := key ha.reciprocity hb.reciprocity
  obtain ⟨hcuriosity,hmore''⟩ := key ha.curiosity hb.curiosity
  rw [signalPlace_lt_iff]
  unfold before
  split
  · next h =>
      rw [decide_eq_true_eq,hmore]
      exact (or_iff_left fun hsame => hintent.mp h hsame.1.symm).symm
  · next h =>
      rw [not_not.mp (mt hintent.mpr h)]
      refine Iff.trans ?_ (or_iff_right fun h => h.false).symm
      rw [and_iff_right rfl]
      split
      · next h =>
          rw [decide_eq_true_eq,hmore']
          exact (or_iff_left fun hsame => hreciprocity.mp h hsame.1.symm).symm
      · next h =>
          rw [not_not.mp (mt hreciprocity.mpr h)]
          refine Iff.trans ?_ (or_iff_right fun h => h.false).symm
          rw [and_iff_right rfl]
          split
          · rw [decide_eq_true_eq,hmore'']
          · next h =>
              rw [not_not.mp (mt hcuriosity.mpr h)]
              exact iff_of_false Bool.false_ne_true fun h => h.false

end Order

namespace Sample

theorem heard_kept : ([104,105] : Bytes).length ≤ Ledger.payloadLimit := by decide

def heard (id : UInt64) (outcome : Ledger.Outcome) : Item where
  entry := ⟨id,0,digest [104,105],2,outcome,CText.truncate (CString.ofRaw [115]),Ledger.emptyText⟩
  payload := .text ⟨[104,105],heard_kept⟩
  context := .empty

def context : ContextCandidate := candidateOf (heard 1 .learned) [104,105]

end Sample

end Atperson.Scheduler
