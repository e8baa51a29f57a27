import Atperson.Wire.LittleEndian
import Mathlib.Data.List.Basic

/-!
# Digits that sort

A number written with a fixed count of digits, the highest first, in an alphabet whose bytes
ascend. Texts of one length compare as the numbers do.
-/
namespace Atperson.Wire

/-- The last `n` digits of a number. -/
def sortableDigits (alphabet : ℕ → UInt8) (base : ℕ) : ℕ → ℕ → Bytes
  | 0, _ => []
  | n+1, v => sortableDigits alphabet base n (v/base)++[alphabet (v%base)]

theorem append_singleton_lt {a b : Bytes} {x y : UInt8} (h : a.length = b.length) :
    a++[x] < b++[y] ↔ a < b ∨ a = b ∧ x < y := by
  induction a generalizing b with
  | nil =>
      obtain rfl := List.eq_nil_of_length_eq_zero h.symm
      simp [List.cons_lt_cons_iff]
  | cons c a ih =>
      cases b with
      | nil => cases h
      | cons d b =>
          rw [List.length_cons,List.length_cons] at h
          rw [List.cons_append,List.cons_append,List.cons_lt_cons_iff,List.cons_lt_cons_iff,
            ih (by omega),List.cons.injEq]
          tauto

section Digits
variable {alphabet : ℕ → UInt8} {base n v w : ℕ}

@[simp] theorem length_sortableDigits : (sortableDigits alphabet base n v).length = n := by
  induction n generalizing v with
  | zero => rfl
  | succ n ih => rw [sortableDigits,List.length_append,ih,List.length_singleton]

theorem mem_sortableDigits {c : UInt8} (hbase : 0 < base)
    (h : c ∈ sortableDigits alphabet base n v) : ∃ d < base, c = alphabet d := by
  induction n generalizing v with
  | zero => cases h
  | succ n ih =>
      rw [sortableDigits] at h
      rcases List.mem_append.mp h with h | h
      · exact ih h
      · exact ⟨v%base,Nat.mod_lt v hbase,List.mem_singleton.mp h⟩

theorem sortableDigits_inj (hbase : 0 < base)
    (halphabet : ∀ i < base, ∀ j < base, alphabet i = alphabet j → i = j)
    (hv : v < base^n) (hw : w < base^n) :
    sortableDigits alphabet base n v = sortableDigits alphabet base n w ↔ v = w := by
  refine ⟨fun h => ?_,fun h => congrArg _ h⟩
  induction n generalizing v w with
  | zero =>
      rw [pow_zero] at hv hw
      omega
  | succ n ih =>
      rw [pow_succ] at hv hw
      obtain ⟨hhigh,hlow⟩ := List.append_inj' h rfl
      have hdigit := halphabet _ (Nat.mod_lt v hbase) _ (Nat.mod_lt w hbase)
        (List.singleton_inj.mp hlow)
      have hrest := ih (Nat.div_lt_of_lt_mul (by rwa [mul_comm])) (Nat.div_lt_of_lt_mul (by rwa [mul_comm]))
        hhigh
      rw [← Nat.div_add_mod v base,← Nat.div_add_mod w base,hrest,hdigit]

/-- The digits of a smaller number come first. -/
theorem sortableDigits_lt (hbase : 0 < base)
    (halphabet : ∀ i j, i < j → j < base → alphabet i < alphabet j) (h : v < w)
    (hw : w < base^n) : sortableDigits alphabet base n v < sortableDigits alphabet base n w := by
  induction n generalizing v w with
  | zero =>
      rw [pow_zero] at hw
      omega
  | succ n ih =>
      rw [pow_succ] at hw
      have hrest : w/base < base^n := Nat.div_lt_of_lt_mul (by rwa [mul_comm])
      rw [sortableDigits,sortableDigits,append_singleton_lt (by simp)]
      rcases (Nat.div_le_div_right (c := base) h.le).lt_or_eq with hless | hsame
      · exact .inl (ih hless hrest)
      · refine .inr ⟨congrArg _ hsame,halphabet _ _ ?_ (Nat.mod_lt w hbase)⟩
        have hv := Nat.div_add_mod v base
        have hw := Nat.div_add_mod w base
        rw [hsame] at hv
        omega

end Digits

end Atperson.Wire
