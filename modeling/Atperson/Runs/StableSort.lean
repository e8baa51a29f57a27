import Mathlib.Data.List.Basic
import Mathlib.Data.List.Nodup

/-!
# Stable sorting

A stable sort by a total preorder gives the one order in which, of elements that the preorder
does not tell apart, the one that came first stays first.
-/
namespace Atperson.Runs
variable {α : Type} {l : List α} {a b : α}

section Sorting
variable {le : α → α → Bool} {R : α → α → Prop}

end Sorting

end Atperson.Runs
