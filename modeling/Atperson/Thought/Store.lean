import Mathlib.Data.List.Sort
import Atperson.Wire.Json

/-!
# The thought store

A directory with one record a file. A record is written once under its id, and the store is
read in the order of the ids.
-/
namespace Atperson.Thought
open Wire

structure Thought where
  id : Bytes
  kind : Bytes
  text : Bytes
  aboutUri : Bytes
  time : Bytes
  spanStart : Bytes
  spanEnd : Bytes
  topic : Bytes
  deriving DecidableEq

def thoughtKindIsValid (kind : Bytes) : Bool :=
  kind = utf8 "reflection" || kind = utf8 "consolidation" || kind = utf8 "movement"

/-- Text compared as strings are, byte by byte. -/
def idLe : Bytes → Bytes → Bool
  | [], _ => true
  | _::_, [] => false
  | a::as, b::bs => a < b || (a = b && idLe as bs)

/-- An id that names a file. -/
def isPlainRecordId (id : Bytes) : Bool :=
  id ≠ [] && id.length ≤ 200 && id ≠ utf8 "." && id ≠ utf8 ".." &&
    id.all fun c => (97 ≤ c && c ≤ 122) || (65 ≤ c && c ≤ 90) || (48 ≤ c && c ≤ 57) ||
      c = 46 || c = 95 || c = 45

/-- What the store refuses leaves it as it is. -/
def writeThought (store : List Thought) (entry : Thought) : List Thought :=
  if isPlainRecordId entry.id = false ∨ thoughtKindIsValid entry.kind = false ∨
      store.any (fun t => t.id = entry.id) = true then store
  else entry::store

def loadThoughts (store : List Thought) : List Thought :=
  store.insertionSort fun a b => idLe a.id b.id

theorem writeThought_length_le (store : List Thought) (entry : Thought) :
    (writeThought store entry).length ≤ store.length+1 := by
  rw [writeThought]
  split
  · exact Nat.le_succ _
  · exact le_rfl

theorem writeThought_kinds {store : List Thought}
    (h : ∀ t ∈ store, thoughtKindIsValid t.kind = true) (entry : Thought) :
    ∀ t ∈ writeThought store entry, thoughtKindIsValid t.kind = true := by
  rw [writeThought]
  split
  · exact h
  · rename_i hopen
    intro t ht
    rcases List.mem_cons.mp ht with rfl | ht
    · by_contra hkind
      exact hopen (.inr (.inl (Bool.eq_false_iff.mpr hkind)))
    · exact h t ht

section Order

theorem idLe_refl (a : Bytes) : idLe a a = true := by
  induction a with
  | nil => rfl
  | cons c cs ih => simp [idLe,ih]

theorem idLe_total (a b : Bytes) : idLe a b = true ∨ idLe b a = true := by
  induction a generalizing b with
  | nil => exact .inl rfl
  | cons c cs ih =>
      cases b with
      | nil => exact .inr rfl
      | cons d ds =>
          simp only [idLe,Bool.or_eq_true,decide_eq_true_eq,Bool.and_eq_true]
          rcases eq_or_ne c d with rfl | hne
          · rcases ih ds with h | h
            · exact .inl (.inr ⟨rfl,h⟩)
            · exact .inr (.inr ⟨rfl,h⟩)
          · rcases UInt8.lt_or_lt_of_ne hne with h | h
            · exact .inl (.inl h)
            · exact .inr (.inl h)

theorem idLe_trans {a b c : Bytes} (hab : idLe a b = true) (hbc : idLe b c = true) :
    idLe a c = true := by
  induction a generalizing b c with
  | nil => rfl
  | cons x xs ih =>
      cases b with
      | nil => cases hab
      | cons y ys =>
          cases c with
          | nil => cases hbc
          | cons z zs =>
              simp only [idLe,Bool.or_eq_true,decide_eq_true_eq,Bool.and_eq_true] at *
              rcases hab with hxy | ⟨rfl,hxs⟩
              · rcases hbc with hyz | ⟨rfl,-⟩
                · exact .inl (UInt8.lt_trans hxy hyz)
                · exact .inl hxy
              · rcases hbc with hyz | ⟨rfl,hys⟩
                · exact .inl hyz
                · exact .inr ⟨rfl,ih hxs hys⟩

theorem idLe_antisymm {a b : Bytes} (hab : idLe a b = true) (hba : idLe b a = true) : a = b := by
  induction a generalizing b with
  | nil =>
      cases b with
      | nil => rfl
      | cons y ys => cases hba
  | cons x xs ih =>
      cases b with
      | nil => cases hab
      | cons y ys =>
          simp only [idLe,Bool.or_eq_true,decide_eq_true_eq,Bool.and_eq_true] at *
          rcases hab with hxy | ⟨rfl,hxs⟩
          · rcases hba with hyx | ⟨heq,-⟩
            · exact absurd hxy (UInt8.lt_asymm hyx)
            · exact absurd hxy (heq ▸ UInt8.lt_irrefl _)
          · rcases hba with hxx | ⟨-,hys⟩
            · exact absurd hxx (UInt8.lt_irrefl _)
            · rw [ih hxs hys]

end Order

section Load

/-- The stored thoughts with an id below another. -/
def smallerIds (store : List Thought) (id : Bytes) : ℕ :=
  store.countP fun t => !idLe id t.id

theorem loadThoughts_sorted (store : List Thought) :
    (loadThoughts store).Pairwise fun a b => idLe a.id b.id = true := by
  have : Std.Total fun a b : Thought => idLe a.id b.id = true := ⟨fun a b => idLe_total _ _⟩
  have : IsTrans Thought fun a b => idLe a.id b.id = true := ⟨fun _ _ _ => idLe_trans⟩
  exact List.pairwise_insertionSort (fun a b : Thought => idLe a.id b.id) store

/-- A new thought comes right behind those with smaller ids. -/
theorem loadThoughts_cons (entry : Thought) (store : List Thought) :
    ∃ front back, loadThoughts store = front++back ∧
      loadThoughts (entry::store) = front++entry::back ∧
      front.length = smallerIds store entry.id := by
  refine ⟨_,_,(List.takeWhile_append_dropWhile (p := fun b : Thought => ¬idLe entry.id b.id = true)
    (l := loadThoughts store)).symm,
    List.insertionSort_cons_eq_take_drop (fun a b : Thought => idLe a.id b.id) entry store,?_⟩
  have hperm : smallerIds store entry.id =
      (loadThoughts store).countP fun t => !idLe entry.id t.id :=
    ((List.perm_insertionSort _ store).countP_eq _).symm
  rw [hperm]
  have hsorted := loadThoughts_sorted store
  generalize loadThoughts store = sorted at hsorted ⊢
  induction sorted with
  | nil => rfl
  | cons t rest ih =>
      obtain ⟨hfirst,hrest⟩ := List.pairwise_cons.mp hsorted
      by_cases hle : idLe entry.id t.id = true
      · have hnone : (t::rest).countP (fun t => !idLe entry.id t.id) = 0 := by
          refine List.countP_eq_zero.mpr fun x hx => ?_
          rcases List.mem_cons.mp hx with rfl | hx
          · simp [hle]
          · simp [idLe_trans hle (hfirst x hx)]
        rw [hnone,List.takeWhile_cons_of_neg (by simp [hle])]
        rfl
      · rw [List.takeWhile_cons_of_pos (by simpa using hle),List.length_cons,ih hrest,
          List.countP_cons_of_pos (by simpa using hle)]

theorem mem_loadThoughts {store : List Thought} {t : Thought} :
    t ∈ loadThoughts store ↔ t ∈ store := List.mem_insertionSort _

theorem length_loadThoughts (store : List Thought) :
    (loadThoughts store).length = store.length := List.length_insertionSort _ _

end Load

end Atperson.Thought
