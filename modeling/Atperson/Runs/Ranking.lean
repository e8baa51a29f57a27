import Mathlib.Data.List.Basic
import Mathlib.Data.List.Nodup

/-!
# Ranking

All that is known of a sort routine is that it returns its list in an order the comparator
accepts. Where elements that tie are equal there is one such order. Otherwise, of elements
that no comparison tells apart, any may come first.
-/
namespace Atperson.Runs
variable {α : Type} {cmp : α → α → Ordering} {l r r' : List α} {a b : α}

/-- What a sort routine may return. -/
structure Ranked (cmp : α → α → Ordering) (l r : List α) : Prop where
  perm : r.Perm l
  ordered : r.Pairwise fun a b => cmp a b ≠ .gt

namespace Ranked

theorem mem_iff (h : Ranked cmp l r) : a ∈ r ↔ a ∈ l := h.perm.mem_iff

theorem length_eq (h : Ranked cmp l r) : r.length = l.length := h.perm.length_eq

theorem nil_iff : Ranked cmp [] r ↔ r = [] := by
  constructor
  · intro h
    exact List.perm_nil.mp h.perm
  · rintro rfl
    exact ⟨List.Perm.refl [],List.Pairwise.nil⟩

theorem singleton (a : α) : Ranked cmp [a] [a] := ⟨List.Perm.refl [a],List.pairwise_singleton _ a⟩

theorem pair (h : cmp a b ≠ .gt) : Ranked cmp [a,b] [a,b] :=
  ⟨List.Perm.refl [a,b],List.pairwise_pair.mpr h⟩

theorem pair_swapped (h : cmp b a ≠ .gt) : Ranked cmp [a,b] [b,a] :=
  ⟨List.Perm.swap a b [],List.pairwise_pair.mpr h⟩

/-- Where elements that tie are equal, there is one order. -/
theorem unique (htie : ∀ a ∈ l, ∀ b ∈ l, cmp a b ≠ .gt → cmp b a ≠ .gt → a = b)
    (h : Ranked cmp l r) (h' : Ranked cmp l r') : r = r' :=
  (h.perm.trans h'.perm.symm).eq_of_pairwise
    (fun a b ha hb hab hba => htie a (h.mem_iff.mp ha) b (h'.mem_iff.mp hb) hab hba)
    h.ordered h'.ordered

/-- Nothing comes before the first. -/
theorem head_best (h : Ranked cmp l (a::r)) (hb : b ∈ l) : b = a ∨ cmp a b ≠ .gt := by
  rcases List.mem_cons.mp (h.mem_iff.mpr hb) with heq | hmem
  · exact .inl heq
  · exact .inr ((List.pairwise_cons.mp h.ordered).1 b hmem)

/-- An element the comparator does not tell from the first may come first as well. -/
theorem promote (h : Ranked cmp l (a::r)) (hb : b ∈ r) (hself : cmp a a ≠ .gt)
    (hsame : ∀ c, cmp b c = cmp a c) : ∃ r', Ranked cmp l (b::r') := by
  obtain ⟨s,t,rfl⟩ := List.append_of_mem hb
  obtain ⟨hfirst,hrest⟩ := List.pairwise_cons.mp h.ordered
  have hperm : (b::a::(s++t)).Perm (a::(s++b::t)) :=
    (List.Perm.swap a b (s++t)).trans (List.Perm.cons a List.perm_middle.symm)
  refine ⟨a::(s++t),hperm.trans h.perm,?_⟩
  have hsub : (s++t).Sublist (s++b::t) := List.Sublist.append_left (List.sublist_cons_self b t) s
  rw [List.pairwise_cons,List.pairwise_cons]
  refine ⟨?_,fun c hc => hfirst c (hsub.mem hc),hrest.sublist hsub⟩
  intro c hc
  rw [hsame]
  rcases List.mem_cons.mp hc with rfl | hc
  · exact hself
  · exact hfirst c (hsub.mem hc)

end Ranked

end Atperson.Runs
