import Mathlib.Data.List.Basic
import Mathlib.Logic.Function.Basic

/-!
# Counting through keyed lines

The lines of a list are stored one after another under their keys, and a count says how far
this has come. A put may be repeated, a later line with the key of an earlier one replaces
what is stored, and the list may change behind the count. What is covered up to the count
stays covered, and a count of the whole list leaves the last line of every key in the store.
-/
namespace Atperson.Runs

section Covered
variable {κ ν : Type*} {lines lines' : List (κ × ν)} {n i : ℕ} {store store' : κ → Option ν}
  {k : κ} {v : ν}

/-- Each of the first `n` lines is stored, or a later line with its key is. -/
def Covered (lines : List (κ × ν)) (n : ℕ) (store : κ → Option ν) : Prop :=
  ∀ i k v, i < n → lines[i]? = some (k,v) →
    ∃ j w, i ≤ j ∧ lines[j]? = some (k,w) ∧ store k = some w

theorem covered_zero (lines : List (κ × ν)) (store : κ → Option ν) : Covered lines 0 store :=
  fun _ _ _ hi => absurd hi (Nat.not_lt_zero _)

/-- A put of a line behind the covered ones. -/
theorem Covered.put [DecidableEq κ] (h : Covered lines n store) (hi : n ≤ i)
    (hline : lines[i]? = some (k,v)) : Covered lines n (Function.update store k (some v)) := by
  intro j k' v' hj hline'
  by_cases hk : k' = k
  · subst hk
    exact ⟨i,v,by omega,hline,Function.update_self _ _ _⟩
  · obtain ⟨m,w,hm,hw,hstore⟩ := h j k' v' hj hline'
    exact ⟨m,w,hm,hw,by rwa [Function.update_of_ne hk]⟩

/-- The count moves over a line that is stored. -/
theorem Covered.succ (h : Covered lines n store) (hline : lines[n]? = some (k,v))
    (hstore : store k = some v) : Covered lines (n+1) store := by
  intro i k' v' hi hline'
  rcases Nat.eq_or_lt_of_le (Nat.lt_succ_iff.mp hi) with rfl | hlt
  · obtain ⟨rfl,rfl⟩ := Prod.mk.inj (Option.some.inj (hline'.symm.trans hline))
    exact ⟨i,v',Nat.le_refl i,hline',hstore⟩
  · exact h i k' v' hlt hline'

/-- Writes under other keys. -/
theorem Covered.frame (h : Covered lines n store)
    (hother : ∀ (i : ℕ) k v, lines[i]? = some (k,v) → store' k = store k) :
    Covered lines n store' := by
  intro i k v hi hline
  obtain ⟨j,w,hj,hw,hstore⟩ := h i k v hi hline
  exact ⟨j,w,hj,hw,by rwa [hother i k v hline]⟩

/-- The list changes behind the count, where it loses no line. -/
theorem Covered.change (h : Covered lines n store) (hfront : ∀ i < n, lines'[i]? = lines[i]?)
    (hback : ∀ i x, n ≤ i → lines[i]? = some x → ∃ j, n ≤ j ∧ lines'[j]? = some x) :
    Covered lines' n store := by
  intro i k v hi hline
  rw [hfront i hi] at hline
  obtain ⟨j,w,hj,hw,hstore⟩ := h i k v hi hline
  by_cases hjn : j < n
  · exact ⟨j,w,hj,by rw [hfront j hjn]; exact hw,hstore⟩
  · obtain ⟨m,hm,hw'⟩ := hback j _ (Nat.not_lt.mp hjn) hw
    exact ⟨m,w,by omega,hw',hstore⟩

theorem Covered.append (h : Covered lines n store) (hn : n ≤ lines.length)
    (more : List (κ × ν)) : Covered (lines++more) n store :=
  h.change (fun i hi => List.getElem?_append_left (by omega)) fun i x hi hx =>
    ⟨i,hi,by
      rw [List.getElem?_append_left (List.getElem?_eq_some_iff.mp hx).choose]
      exact hx⟩

/-- Under a count of the whole list the last line of a key is stored. -/
theorem Covered.last (h : Covered lines n store) (hn : lines.length ≤ n)
    (hline : lines[i]? = some (k,v)) (hlast : ∀ j w, i < j → lines[j]? ≠ some (k,w)) :
    store k = some v := by
  have hi : i < lines.length := (List.getElem?_eq_some_iff.mp hline).choose
  obtain ⟨j,w,hj,hw,hstore⟩ := h i k v (by omega) hline
  rcases Nat.eq_or_lt_of_le hj with rfl | hlt
  · obtain ⟨-,rfl⟩ := Prod.mk.inj (Option.some.inj (hline.symm.trans hw))
    exact hstore
  · exact absurd hw (hlast j w hlt)

end Covered

end Atperson.Runs
