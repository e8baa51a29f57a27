import Mathlib.Data.List.Basic
import Mathlib.Data.List.TakeWhile

/-!
# Words with a delimiter between them

A text falls in one way into words without the delimiter.
-/
namespace Atperson.Wire
variable {α : Type*}

/-- The words, each with a delimiter behind it, and the last word. -/
def joined (d : α) (words : List (List α)) (last : List α) : List α :=
  words.foldr (fun w rest => w++d::rest) last

@[simp] theorem joined_nil (d : α) (last : List α) : joined d [] last = last := rfl

@[simp] theorem joined_cons (d : α) (w : List α) (words : List (List α)) (last : List α) :
    joined d (w::words) last = w++d::joined d words last := rfl

theorem mem_joined {words : List (List α)} {last : List α} {a d : α} (h : a ∈ joined d words last) :
    (∃ w ∈ words, a ∈ w) ∨ a = d ∨ a ∈ last := by
  induction words with
  | nil => exact .inr (.inr h)
  | cons w words ih =>
    rcases List.mem_append.mp h with hw | hrest
    · exact .inl ⟨w,List.mem_cons_self,hw⟩
    · rcases List.mem_cons.mp hrest with hd | hrest
      · exact .inr (.inl hd)
      · rcases ih hrest with ⟨v,hv,ha⟩ | hother
        · exact .inl ⟨v,List.mem_cons_of_mem _ hv,ha⟩
        · exact .inr hother

theorem delimiter_mem_joined (d : α) {words : List (List α)} (h : words ≠ []) (last : List α) :
    d ∈ joined d words last := by
  cases words with
  | nil => exact absurd rfl h
  | cons w words => exact List.mem_append_right _ List.mem_cons_self

theorem exists_joined [DecidableEq α] (d : α) (text : List α) :
    ∃ words last, text = joined d words last ∧ (∀ w ∈ words, d ∉ w) ∧ d ∉ last := by
  induction text with
  | nil => exact ⟨[],[],rfl,List.forall_mem_nil _,List.not_mem_nil⟩
  | cons c text ih =>
    obtain ⟨words,last,rfl,hwords,hlast⟩ := ih
    by_cases hc : c = d
    · exact ⟨[]::words,last,by rw [hc]; rfl,
        List.forall_mem_cons.mpr ⟨List.not_mem_nil,hwords⟩,hlast⟩
    · cases words with
      | nil => exact ⟨[],c::last,rfl,hwords,List.not_mem_cons_of_ne_of_not_mem (Ne.symm hc) hlast⟩
      | cons w words =>
        obtain ⟨hw,hwords⟩ := List.forall_mem_cons.mp hwords
        exact ⟨(c::w)::words,last,rfl,
          List.forall_mem_cons.mpr ⟨List.not_mem_cons_of_ne_of_not_mem (Ne.symm hc) hw,hwords⟩,hlast⟩

section Scan
variable [DecidableEq α] {d : α}

theorem takeWhile_whole {w : List α} (hw : d ∉ w) : w.takeWhile (· ≠ d) = w :=
  List.takeWhile_eq_self_iff.mpr fun _ ha => decide_eq_true fun h => hw (h ▸ ha)

theorem takeWhile_delimited {w : List α} (hw : d ∉ w) (rest : List α) :
    (w++d::rest).takeWhile (· ≠ d) = w := by
  have hpass : ∀ a ∈ w, decide (a ≠ d) = true := fun a ha => decide_eq_true fun h => hw (h ▸ ha)
  rw [List.takeWhile_append_of_pos hpass,List.takeWhile_cons_of_neg (by simp),List.append_nil]

theorem not_mem_takeWhile (text : List α) : d ∉ text.takeWhile (· ≠ d) := by
  intro h
  have hne := List.mem_takeWhile_imp h
  exact of_decide_eq_true hne rfl

theorem delimited_of_mem {text : List α} (h : d ∈ text) :
    ∃ rest, text = text.takeWhile (· ≠ d)++d::rest := by
  obtain ⟨words,last,htext,hwords,hlast⟩ := exists_joined d text
  cases words with
  | nil =>
    rw [htext,joined_nil] at h
    exact absurd h hlast
  | cons w words =>
    refine ⟨joined d words last,?_⟩
    rw [htext,joined_cons,takeWhile_delimited (List.forall_mem_cons.mp hwords).1]

theorem length_takeWhile_lt {text : List α} :
    (text.takeWhile (· ≠ d)).length < text.length ↔ d ∈ text := by
  constructor
  · intro h
    by_contra hd
    rw [takeWhile_whole hd] at h
    exact h.false
  · intro h
    obtain ⟨rest,htext⟩ := delimited_of_mem h
    have hlen := congrArg List.length htext
    rw [List.length_append,List.length_cons] at hlen
    omega

/-- What lies before the first delimiter, and after it. -/
theorem delimited_inj {w w' rest rest' : List α} (hw : d ∉ w) (hw' : d ∉ w')
    (h : w++d::rest = w'++d::rest') : w = w' ∧ rest = rest' := by
  have hsame : w = w' := by
    rw [← takeWhile_delimited hw rest,h,takeWhile_delimited hw']
  subst hsame
  exact ⟨rfl,List.tail_eq_of_cons_eq (List.append_cancel_left h)⟩

theorem joined_inj {words words' : List (List α)} {last last' : List α}
    (hwords : ∀ w ∈ words, d ∉ w) (hlast : d ∉ last) (hwords' : ∀ w ∈ words', d ∉ w)
    (hlast' : d ∉ last') (h : joined d words last = joined d words' last') :
    words = words' ∧ last = last' := by
  induction words generalizing words' with
  | nil =>
    cases words' with
    | nil => exact ⟨rfl,h⟩
    | cons w' words' =>
      have hmem := delimiter_mem_joined d (List.cons_ne_nil w' words') last'
      rw [← h] at hmem
      exact absurd hmem hlast
  | cons w words ih =>
    cases words' with
    | nil =>
      have hmem := delimiter_mem_joined d (List.cons_ne_nil w words) last
      rw [h] at hmem
      exact absurd hmem hlast'
    | cons w' words' =>
      rw [joined_cons,joined_cons] at h
      rw [List.forall_mem_cons] at hwords hwords'
      obtain ⟨rfl,hrest⟩ := delimited_inj hwords.1 hwords'.1 h
      obtain ⟨rfl,rfl⟩ := ih hwords.2 hwords'.2 hrest
      exact ⟨rfl,rfl⟩

end Scan
end Atperson.Wire
