import Mathlib.Data.List.Infix
import Atperson.Wire.Search

/-!
# All occurrences

A search that goes on behind the start of each match visits every occurrence of the pattern,
the overlapping ones too.
-/
namespace Atperson.Wire

/-- `find` from a position on. -/
def findFrom (text pattern : Bytes) (pos : ℕ) : Option ℕ :=
  if pos ≤ text.length then (find (text.drop pos) pattern).map (pos+·) else none

/-- Whether the test holds at some occurrence from a position on, as the loop
`for (pos = find(pattern, pos); pos != npos; pos = find(pattern, pos + 1))` asks. -/
def anyMatch (text pattern : Bytes) (test : ℕ → Bool) : ℕ → ℕ → Bool
  | 0, _ => false
  | fuel+1, pos => match findFrom text pattern pos with
      | none => false
      | some at_ => test at_ || anyMatch text pattern test fuel (at_+1)

/-- Some occurrence passes the test. -/
def matchesAny (text pattern : Bytes) (test : ℕ → Bool) : Bool :=
  anyMatch text pattern test (text.length+1) 0

theorem find_some {text pattern : Bytes} {at_ : ℕ} (h : find text pattern = some at_) :
    pattern <+: text.drop at_ ∧ at_ ≤ text.length ∧
      ∀ i < at_, ¬pattern <+: text.drop i := by
  induction text generalizing at_ with
  | nil =>
      unfold find at h
      split at h
      · next hnil =>
          cases h
          exact ⟨by rw [hnil]; exact List.nil_prefix,Nat.zero_le _,fun i hi => absurd hi (by omega)⟩
      · cases h
  | cons c text ih =>
      unfold find at h
      split at h
      · next hhere =>
          cases h
          exact ⟨List.isPrefixOf_iff_prefix.mp hhere,Nat.zero_le _,fun i hi => absurd hi (by omega)⟩
      · next hhere =>
          obtain ⟨k,hk,rfl⟩ := Option.map_eq_some_iff.mp h
          obtain ⟨hpre,hle,hless⟩ := ih hk
          refine ⟨hpre,by rw [List.length_cons]; omega,fun i hi => ?_⟩
          cases i with
          | zero => exact fun hp => hhere (List.isPrefixOf_iff_prefix.mpr hp)
          | succ i => exact hless i (by omega)

theorem find_none {text pattern : Bytes} (h : find text pattern = none) (i : ℕ) :
    ¬pattern <+: text.drop i := by
  induction text generalizing i with
  | nil =>
      unfold find at h
      split at h
      · cases h
      · next hne => rw [List.drop_nil,List.prefix_nil]; exact hne
  | cons c text ih =>
      unfold find at h
      split at h
      · cases h
      · next hhere =>
          cases i with
          | zero => exact fun hp => hhere (List.isPrefixOf_iff_prefix.mpr hp)
          | succ i => exact ih (Option.map_eq_none_iff.mp h) i

theorem findFrom_some {text pattern : Bytes} {pos at_ : ℕ}
    (h : findFrom text pattern pos = some at_) :
    pattern <+: text.drop at_ ∧ pos ≤ at_ ∧ at_ ≤ text.length ∧
      ∀ i, pos ≤ i → i < at_ → ¬pattern <+: text.drop i := by
  unfold findFrom at h
  split at h
  · next hpos =>
      obtain ⟨k,hk,rfl⟩ := Option.map_eq_some_iff.mp h
      obtain ⟨hpre,hle,hless⟩ := find_some hk
      rw [List.drop_drop] at hpre
      rw [List.length_drop] at hle
      refine ⟨hpre,by omega,by omega,fun i hi hless' => ?_⟩
      have hnot := hless (i-pos) (by omega)
      rwa [List.drop_drop,Nat.add_sub_cancel' hi] at hnot
  · cases h

theorem findFrom_none {text pattern : Bytes} {pos : ℕ} (h : findFrom text pattern pos = none)
    {i : ℕ} (hi : pos ≤ i) (hle : i ≤ text.length) : ¬pattern <+: text.drop i := by
  unfold findFrom at h
  rw [if_pos (by omega)] at h
  have hnot := find_none (Option.map_eq_none_iff.mp h) (i-pos)
  rwa [List.drop_drop,Nat.add_sub_cancel' hi] at hnot

theorem anyMatch_iff {text pattern : Bytes} {test : ℕ → Bool} {fuel pos : ℕ}
    (hfuel : text.length < fuel+pos) : anyMatch text pattern test fuel pos = true ↔
      ∃ i, pos ≤ i ∧ i ≤ text.length ∧ pattern <+: text.drop i ∧ test i = true := by
  induction fuel generalizing pos with
  | zero =>
      refine iff_of_false Bool.false_ne_true fun ⟨i,hi,hle,_⟩ => ?_
      omega
  | succ fuel ih =>
      unfold anyMatch
      cases hfind : findFrom text pattern pos with
      | none =>
          refine iff_of_false Bool.false_ne_true fun ⟨i,hi,hle,hpre,_⟩ => ?_
          exact findFrom_none hfind hi hle hpre
      | some at_ =>
          obtain ⟨hpre,hpos,hle,hbefore⟩ := findFrom_some hfind
          dsimp only
          rw [Bool.or_eq_true,ih (by omega)]
          constructor
          · rintro (htest | ⟨i,hi,hrest⟩)
            · exact ⟨at_,hpos,hle,hpre,htest⟩
            · exact ⟨i,by omega,hrest⟩
          · rintro ⟨i,hi,hile,hipre,htest⟩
            rcases Nat.lt_trichotomy i at_ with hless | rfl | hmore
            · exact absurd hipre (hbefore i hi hless)
            · exact Or.inl htest
            · exact Or.inr ⟨i,hmore,hile,hipre,htest⟩

/-- The loop asks at every occurrence. -/
theorem matchesAny_iff {text pattern : Bytes} {test : ℕ → Bool} :
    matchesAny text pattern test = true ↔ ∃ before after,
      before++pattern++after = text ∧ test before.length = true := by
  rw [matchesAny,anyMatch_iff (Nat.lt_succ_self _)]
  constructor
  · rintro ⟨i,-,hle,⟨after,hafter⟩,htest⟩
    refine ⟨text.take i,after,?_,?_⟩
    · rw [List.append_assoc,hafter,List.take_append_drop]
    · rwa [List.length_take,Nat.min_eq_left hle]
  · rintro ⟨before,after,rfl,htest⟩
    refine ⟨before.length,Nat.zero_le _,?_,?_,htest⟩
    · simp only [List.length_append]
      omega
    · rw [List.append_assoc,List.drop_left]
      exact List.prefix_append pattern after

/-- Whether the pattern occurs. -/
theorem find_ne_none_iff {text pattern : Bytes} :
    find text pattern ≠ none ↔ pattern <:+: text := by
  constructor
  · intro h
    obtain ⟨at_,hat⟩ := Option.ne_none_iff_exists'.mp h
    exact (find_some hat).1.isInfix.trans (List.drop_suffix at_ text).isInfix
  · rintro ⟨before,after,rfl⟩ h
    refine find_none h before.length ?_
    rw [List.append_assoc,List.drop_left]
    exact List.prefix_append pattern after

end Atperson.Wire
