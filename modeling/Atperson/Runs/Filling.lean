import Mathlib.Algebra.GroupWithZero.Nat
import Mathlib.Data.List.Basic

/-!
# Filling a bounded space

Items that have a size are put into a space that has room for so much. The items that fit
before the first that does not are the longest prefix within the room. A filler that passes
over an item too large and goes on takes more, unless what is left is too small for every
item behind. A scan that fills a space for each maximal run fills each run by itself.
-/
namespace Atperson.Runs
variable {α : Type*} (size : α → ℕ)

def total (as : List α) : ℕ := (as.map size).sum

/-- The items before the first that does not fit. -/
def within : ℕ → List α → List α
  | _, [] => []
  | room, a::rest => if size a ≤ room then a::within (room-size a) rest else []

/-- Every item that fits when it comes. -/
def filled : ℕ → List α → List α
  | _, [] => []
  | room, a::rest => if size a ≤ room then a::filled (room-size a) rest else filled room rest

variable {size}

@[simp] theorem total_cons (a : α) (as : List α) : total size (a::as) = size a+total size as := rfl

theorem filled_fit {room : ℕ} {a : α} (h : size a ≤ room) (as : List α) :
    filled size room (a::as) = a::filled size (room-size a) as := if_pos h

theorem filled_unfit {room : ℕ} {a : α} (h : ¬ size a ≤ room) (as : List α) :
    filled size room (a::as) = filled size room as := if_neg h

theorem total_append (as bs : List α) : total size (as++bs) = total size as+total size bs := by
  simp [total]

theorem within_prefix (room : ℕ) (as : List α) : within size room as <+: as := by
  induction as generalizing room with
  | nil => exact List.nil_prefix
  | cons a rest ih =>
      unfold within
      split
      · exact List.cons_prefix_cons.mpr ⟨rfl,ih _⟩
      · exact List.nil_prefix

theorem total_within (room : ℕ) (as : List α) : total size (within size room as) ≤ room := by
  induction as generalizing room with
  | nil => exact Nat.zero_le _
  | cons a rest ih =>
      unfold within
      split
      · have h := ih (room-size a)
        rw [total_cons]
        omega
      · exact Nat.zero_le _

/-- No prefix that has room is longer. -/
theorem within_longest {room : ℕ} {as p : List α} (hp : p <+: as) (hroom : total size p ≤ room) :
    p <+: within size room as := by
  induction as generalizing room p with
  | nil => rw [List.prefix_nil.mp hp]; exact List.nil_prefix
  | cons a rest ih =>
      cases p with
      | nil => exact List.nil_prefix
      | cons b p =>
          obtain ⟨rfl,hrest⟩ := List.cons_prefix_cons.mp hp
          rw [total_cons] at hroom
          unfold within
          rw [if_pos (by omega)]
          exact List.cons_prefix_cons.mpr ⟨rfl,ih hrest (by omega)⟩

/-- The filler takes the longest prefix and goes on with the room that is left. -/
theorem filled_split (room : ℕ) (as : List α) : filled size room as =
    within size room as++filled size (room-total size (within size room as))
      (as.drop (within size room as).length) := by
  induction as generalizing room with
  | nil => rfl
  | cons a rest ih =>
      by_cases hfit : size a ≤ room
      · rw [filled,within,if_pos hfit,if_pos hfit,ih]
        simp only [total_cons,List.length_cons,List.drop_succ_cons,List.cons_append,Nat.sub_sub]
      · rw [within,if_neg hfit]
        rfl

theorem filled_eq_nil {room : ℕ} {as : List α} :
    filled size room as = [] ↔ ∀ a ∈ as, room < size a := by
  induction as with
  | nil => simp [filled]
  | cons a rest ih =>
      unfold filled
      split
      · rename_i hfit
        simp [Nat.not_lt.mpr hfit]
      · rename_i hfit
        simp [ih,Nat.not_le.mp hfit]

/-- The filler stops where the longest prefix does, exactly if no item behind fits. -/
theorem filled_eq_within {room : ℕ} {as : List α} :
    filled size room as = within size room as ↔
      ∀ a ∈ as.drop (within size room as).length, room-total size (within size room as) < size a := by
  rw [filled_split,List.append_right_eq_self,filled_eq_nil]

/-- Items of one size are taken in order while there is room. -/
theorem filled_unit {room : ℕ} {as : List α} (h : ∀ a, size a = 1) :
    filled size room as = as.take room := by
  induction as generalizing room with
  | nil => simp [filled]
  | cons a rest ih =>
      cases room with
      | zero =>
          rw [filled,if_neg (by simp [h])]
          exact (ih).trans List.take_zero
      | succ room =>
          rw [filled,if_pos (by simp [h]),ih,h,Nat.add_sub_cancel,List.take_succ_cons]

theorem filled_append (room : ℕ) (as bs : List α) : filled size room (as++bs) =
    filled size room as++filled size (room-total size (filled size room as)) bs := by
  induction as generalizing room with
  | nil => rfl
  | cons a rest ih =>
      rw [List.cons_append]
      by_cases h : size a ≤ room
      · rw [filled_fit h,filled_fit h,ih,total_cons,List.cons_append,Nat.sub_sub]
      · rw [filled_unfit h,filled_unfit h,ih]

theorem total_filled (room : ℕ) (as : List α) : total size (filled size room as) ≤ room := by
  induction as generalizing room with
  | nil => exact Nat.zero_le _
  | cons a rest ih =>
      unfold filled
      split
      · have h := ih (room-size a)
        rw [total_cons]
        omega
      · exact ih room

/-- What fills the space is among the items. -/
theorem mem_filled {room : ℕ} {as : List α} {a : α} (h : a ∈ filled size room as) : a ∈ as := by
  induction as generalizing room with
  | nil => exact h
  | cons b rest ih =>
      unfold filled at h
      split at h
      · rcases List.mem_cons.mp h with rfl | h
        · exact List.mem_cons_self
        · exact List.mem_cons_of_mem _ (ih h)
      · exact List.mem_cons_of_mem _ (ih h)

/-! ## Runs -/

/-- The maximal runs of the items with a property, in order. -/
def maximalRuns (p : α → Bool) (as : List α) : List (List α) :=
  (as.splitOnP fun a => !p a).filter fun run => !run.isEmpty

/-- Fill a space for each run, with what the present run has filled. -/
def scanRuns (p : α → Bool) (size : α → ℕ) (room : ℕ) : List α → List α → List (List α)
  | kept, [] => if kept = [] then [] else [kept]
  | kept, a::rest =>
      if p a then scanRuns p size room (kept++filled size (room-total size kept) [a]) rest
      else if kept = [] then scanRuns p size room [] rest
      else kept::scanRuns p size room [] rest

variable {p : α → Bool}

theorem maximalRuns_cons_false {a : α} {as : List α} (ha : p a = false) :
    maximalRuns p (a::as) = maximalRuns p as := by
  simp [maximalRuns,List.splitOnP_cons_eq_if_modifyHead,ha]

/-- The pieces of a split are stretches of items with the property, the first at the start. -/
theorem splitOnP_pieces (as : List α) :
    ∀ run runs, as.splitOnP (fun a => !p a) = run::runs →
      run <+: as ∧ ∀ r ∈ run::runs, r <:+: as ∧ ∀ a ∈ r, p a = true := by
  induction as with
  | nil =>
      intro run runs h
      obtain ⟨rfl,rfl⟩ : [] = run ∧ [] = runs := by simpa using h
      simp
  | cons a rest ih =>
      intro run runs h
      obtain ⟨next,others,hnext⟩ := List.exists_cons_of_ne_nil (List.splitOnP_ne_nil (fun a => !p a) rest)
      obtain ⟨hstart,hpieces⟩ := ih next others hnext
      have hrest : ∀ r ∈ next::others, r <:+: a::rest ∧ ∀ a ∈ r, p a = true := fun r hr =>
        ⟨(hpieces r hr).1.trans (List.suffix_cons a rest).isInfix,(hpieces r hr).2⟩
      rw [List.splitOnP_cons_eq_if_modifyHead,hnext] at h
      cases ha : p a with
      | true =>
          obtain ⟨rfl,rfl⟩ : a::next = run ∧ others = runs := by simpa [ha] using h
          have hfront : a::next <+: a::rest := List.cons_prefix_cons.mpr ⟨rfl,hstart⟩
          refine ⟨hfront,fun r hr => ?_⟩
          rcases List.mem_cons.mp hr with rfl | hr
          · refine ⟨hfront.isInfix,fun b hb => ?_⟩
            rcases List.mem_cons.mp hb with rfl | hb
            · exact ha
            · exact (hpieces next List.mem_cons_self).2 b hb
          · exact hrest r (List.mem_cons_of_mem _ hr)
      | false =>
          obtain ⟨rfl,rfl⟩ : [] = run ∧ next::others = runs := by simpa [ha] using h
          refine ⟨List.nil_prefix,fun r hr => ?_⟩
          rcases List.mem_cons.mp hr with rfl | hr
          · exact ⟨List.nil_infix,fun b hb => absurd hb List.not_mem_nil⟩
          · exact hrest r hr

/-- A maximal run is a stretch of items with the property. -/
theorem mem_maximalRuns {as run : List α} (h : run ∈ maximalRuns p as) :
    run ≠ [] ∧ run <:+: as ∧ ∀ a ∈ run, p a = true := by
  obtain ⟨hmem,hne⟩ := List.mem_filter.mp h
  obtain ⟨first,runs,hsplit⟩ := List.exists_cons_of_ne_nil (List.splitOnP_ne_nil (fun a => !p a) as)
  refine ⟨by simpa using hne,(splitOnP_pieces as first runs hsplit).2 run ?_⟩
  rwa [← hsplit]

/-- Items that all have the property are one run. -/
theorem maximalRuns_all {as : List α} (hne : as ≠ []) (h : ∀ a ∈ as, p a = true) :
    maximalRuns p as = [as] := by
  rw [maximalRuns,List.splitOnP_eq_singleton fun a ha => by rw [h a ha]; rfl,
    List.filter_cons_of_pos (by simpa using hne),List.filter_nil]

/-- Items that fit together are all taken. -/
theorem filled_all {room : ℕ} {as : List α} (h : total size as ≤ room) :
    filled size room as = as := by
  induction as generalizing room with
  | nil => rfl
  | cons a rest ih =>
      rw [total_cons] at h
      rw [filled_fit (by omega),ih (by omega)]

/-- A run's first item always finds room, so a run that is not empty fills something. -/
theorem filled_ne_nil {room : ℕ} (hfit : ∀ a, size a ≤ room) {as : List α} (h : as ≠ []) :
    filled size room as ≠ [] := by
  obtain ⟨a,rest,rfl⟩ := List.exists_cons_of_ne_nil h
  rw [filled_fit (hfit a)]
  exact List.cons_ne_nil _ _

theorem scanRuns_kept {room : ℕ} (hfit : ∀ a, size a ≤ room) (as : List α) :
    ∀ kept run runs, as.splitOnP (fun a => !p a) = run::runs →
      scanRuns p size room kept as =
        (if kept = [] ∧ run = [] then [] else [kept++filled size (room-total size kept) run])++
          (runs.filter fun run => !run.isEmpty).map (filled size room) := by
  induction as with
  | nil =>
      intro kept run runs h
      obtain ⟨rfl,rfl⟩ : [] = run ∧ [] = runs := by simpa using h
      simp [scanRuns,filled]
  | cons a rest ih =>
      intro kept run runs h
      obtain ⟨next,others,hnext⟩ := List.exists_cons_of_ne_nil (List.splitOnP_ne_nil (fun a => !p a) rest)
      rw [List.splitOnP_cons_eq_if_modifyHead,hnext] at h
      unfold scanRuns
      cases ha : p a with
      | true =>
          obtain ⟨rfl,rfl⟩ : a::next = run ∧ others = runs := by simpa [ha] using h
          have hone : kept++filled size (room-total size kept) [a] ≠ [] := by
            intro hnil
            obtain ⟨rfl,hfill⟩ := List.append_eq_nil_iff.mp hnil
            exact filled_ne_nil hfit (List.cons_ne_nil a []) hfill
          have hgo : filled size (room-total size kept) (a::next) =
              filled size (room-total size kept) [a]++
                filled size (room-total size (kept++filled size (room-total size kept) [a])) next := by
            rw [← List.singleton_append,filled_append,total_append,Nat.sub_sub]
          rw [if_pos rfl,ih _ _ _ hnext,if_neg fun h => hone h.1,if_neg fun h => List.cons_ne_nil _ _ h.2,
            hgo,List.append_assoc]
      | false =>
          obtain ⟨rfl,rfl⟩ : [] = run ∧ next::others = runs := by simpa [ha] using h
          rw [if_neg Bool.false_ne_true,ih _ _ _ hnext]
          cases kept <;> cases next <;> simp [filled,total]

/-- The scan fills a space for each maximal run by itself. -/
theorem scanRuns_nil {room : ℕ} (hfit : ∀ a, size a ≤ room) (as : List α) :
    scanRuns p size room [] as = (maximalRuns p as).map (filled size room) := by
  obtain ⟨run,runs,h⟩ := List.exists_cons_of_ne_nil (List.splitOnP_ne_nil (fun a => !p a) as)
  rw [scanRuns_kept hfit as _ _ _ h,maximalRuns,h]
  cases run <;> simp [total]

end Atperson.Runs
