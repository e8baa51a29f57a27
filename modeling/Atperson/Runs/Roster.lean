import Mathlib

/-!
# Rosters and their logs

A roster has at most one member for each key and is sorted by the keys. A member is changed
where it is there, and inserted at its place where it is not. A log that is full gives up its
oldest entry for a new one, so it holds the newest entries there have been.
-/
namespace Atperson.Runs

section Roster
variable {α β : Type} (key : α → ℕ) {k : ℕ} {bump : α → α} {first : α} {as : List α}

def SortedBy (as : List α) : Prop := as.Pairwise fun a b => key a < key b

/-- Change the member with a key, or insert one. -/
def upsert (k : ℕ) (bump : α → α) (first : α) (as : List α) : List α :=
  match as.findIdx? fun a => key a = k with
  | some i => as.modify i bump
  | none =>
      let before := as.takeWhile fun a => key a < k
      before++first::as.drop before.length

variable {key}

/-- In a sorted roster there is the member, or the place for it. -/
theorem SortedBy.split (h : SortedBy key as) (k : ℕ) :
    (∃ before a after, as = before++a::after ∧ key a = k ∧ (∀ b ∈ before, key b < k) ∧
        ∀ b ∈ after, k < key b) ∨
      ∃ before after, as = before++after ∧ (∀ b ∈ before, key b < k) ∧ ∀ b ∈ after, k < key b := by
  induction as with
  | nil => exact .inr ⟨[],[],rfl,nofun,nofun⟩
  | cons a as ih =>
      obtain ⟨ha,hrest⟩ := List.pairwise_cons.mp h
      rcases Nat.lt_trichotomy (key a) k with hlt | heq | hgt
      · rcases ih hrest with ⟨before,b,after,rfl,hb,hbefore,hafter⟩ |
          ⟨before,after,rfl,hbefore,hafter⟩
        · exact .inl ⟨a::before,b,after,rfl,hb,List.forall_mem_cons.2 ⟨hlt,hbefore⟩,hafter⟩
        · exact .inr ⟨a::before,after,rfl,List.forall_mem_cons.2 ⟨hlt,hbefore⟩,hafter⟩
      · exact .inl ⟨[],a,as,rfl,heq,nofun,fun b hb => heq ▸ ha b hb⟩
      · exact .inr ⟨[],a::as,rfl,nofun,
          List.forall_mem_cons.2 ⟨hgt,fun b hb => hgt.trans (ha b hb)⟩⟩

theorem modify_middle (before after : List α) (a : α) (f : α → α) :
    (before++a::after).modify before.length f = before++f a::after := by
  induction before with
  | nil => rfl
  | cons b before ih => exact congrArg (b::·) ih

theorem upsert_found {before after : List α} {a : α} (ha : key a = k)
    (hbefore : ∀ b ∈ before, key b < k) :
    upsert key k bump first (before++a::after) = before++bump a::after := by
  have hindex : (before++a::after).findIdx? (fun a => key a = k) = some before.length := by
    rw [List.findIdx?_append,List.findIdx?_eq_none_iff.mpr,Option.none_or,List.findIdx?_cons,
      if_pos (decide_eq_true ha),Option.map_some,Nat.zero_add]
    intro b hb
    simpa using (hbefore b hb).ne
  unfold upsert
  rw [hindex]
  exact modify_middle before after a bump

theorem upsert_missing {before after : List α} (hbefore : ∀ b ∈ before, key b < k)
    (hafter : ∀ b ∈ after, k < key b) :
    upsert key k bump first (before++after) = before++first::after := by
  have hindex : (before++after).findIdx? (fun a => key a = k) = none := by
    rw [List.findIdx?_eq_none_iff]
    intro b hb
    rcases List.mem_append.mp hb with hb | hb
    · simpa using (hbefore b hb).ne
    · simpa using (hafter b hb).ne'
  have htake : (before++after).takeWhile (fun a => key a < k) = before := by
    rw [List.takeWhile_append_of_pos fun b hb => by simpa using hbefore b hb]
    cases after with
    | nil => simp
    | cons a after => simp [(hafter a List.mem_cons_self).le]
  unfold upsert
  simp only [hindex,htake]
  rw [List.drop_left]

/-- What an upsert does to a sorted roster. -/
theorem SortedBy.cases_upsert (h : SortedBy key as) (k : ℕ) (bump : α → α) (first : α) :
    (∃ before a after, as = before++a::after ∧ key a = k ∧ (∀ b ∈ before, key b < k) ∧
        (∀ b ∈ after, k < key b) ∧ upsert key k bump first as = before++bump a::after) ∨
      ∃ before after, as = before++after ∧ (∀ b ∈ before, key b < k) ∧ (∀ b ∈ after, k < key b) ∧
        upsert key k bump first as = before++first::after := by
  rcases h.split k with ⟨before,a,after,rfl,ha,hbefore,hafter⟩ | ⟨before,after,rfl,hbefore,hafter⟩
  · exact .inl ⟨before,a,after,rfl,ha,hbefore,hafter,upsert_found ha hbefore⟩
  · exact .inr ⟨before,after,rfl,hbefore,hafter,upsert_missing hbefore hafter⟩

theorem SortedBy.after_upsert (h : SortedBy key as) (hbump : ∀ a, key (bump a) = key a)
    (hfirst : key first = k) : SortedBy key (upsert key k bump first as) := by
  rcases h.cases_upsert k bump first with ⟨before,a,after,rfl,ha,hbefore,hafter,hnew⟩ |
    ⟨before,after,rfl,hbefore,hafter,hnew⟩
  · rw [hnew]
    unfold SortedBy at h ⊢
    rw [List.pairwise_append,List.pairwise_cons] at h ⊢
    refine ⟨h.1,⟨fun b hb => ?_,h.2.1.2⟩,fun b hb c hc => ?_⟩
    · rw [hbump]
      exact h.2.1.1 b hb
    · rcases List.mem_cons.mp hc with rfl | hc
      · rw [hbump]
        exact h.2.2 b hb a List.mem_cons_self
      · exact h.2.2 b hb c (List.mem_cons_of_mem _ hc)
  · rw [hnew]
    unfold SortedBy at h ⊢
    rw [List.pairwise_append] at h ⊢
    rw [List.pairwise_cons,hfirst]
    refine ⟨h.1,⟨hafter,h.2.1⟩,fun b hb c hc => ?_⟩
    rcases List.mem_cons.mp hc with rfl | hc
    · exact hfirst ▸ hbefore b hb
    · exact h.2.2 b hb c hc

/-- A member afterwards was there before under another key, or is the one that was changed or
inserted. -/
theorem SortedBy.mem_upsert (h : SortedBy key as) {x : α} (hx : x ∈ upsert key k bump first as) :
    x ∈ as ∧ key x ≠ k ∨ (∃ a ∈ as, key a = k ∧ x = bump a) ∨
      (∀ a ∈ as, key a ≠ k) ∧ x = first := by
  rcases h.cases_upsert k bump first with ⟨before,a,after,rfl,ha,hbefore,hafter,hnew⟩ |
    ⟨before,after,rfl,hbefore,hafter,hnew⟩
  · rw [hnew,List.mem_append,List.mem_cons] at hx
    rcases hx with hx | rfl | hx
    · exact .inl ⟨List.mem_append_left _ hx,(hbefore x hx).ne⟩
    · exact .inr (.inl ⟨a,by simp,ha,rfl⟩)
    · exact .inl ⟨by simp [hx],(hafter x hx).ne'⟩
  · rw [hnew,List.mem_append,List.mem_cons] at hx
    rcases hx with hx | rfl | hx
    · exact .inl ⟨List.mem_append_left _ hx,(hbefore x hx).ne⟩
    · refine .inr (.inr ⟨fun b hb => ?_,rfl⟩)
      rcases List.mem_append.mp hb with hb | hb
      · exact (hbefore b hb).ne
      · exact (hafter b hb).ne'
    · exact .inl ⟨List.mem_append_right _ hx,(hafter x hx).ne'⟩

theorem SortedBy.exists_upsert (h : SortedBy key as) (k : ℕ) (bump : α → α) (first : α)
    (hbump : ∀ a, key (bump a) = key a) (hfirst : key first = k) :
    (∃ x ∈ upsert key k bump first as, key x = k) ∧
      ∀ a ∈ as, ∃ x ∈ upsert key k bump first as, key x = key a := by
  rcases h.cases_upsert k bump first with ⟨before,a,after,rfl,ha,hbefore,hafter,hnew⟩ |
    ⟨before,after,rfl,hbefore,hafter,hnew⟩
  · rw [hnew]
    refine ⟨⟨bump a,by simp,(hbump a).trans ha⟩,fun b hb => ?_⟩
    rcases List.mem_append.mp hb with hb | hb
    · exact ⟨b,List.mem_append_left _ hb,rfl⟩
    · rcases List.mem_cons.mp hb with rfl | hb
      · exact ⟨bump b,by simp,hbump b⟩
      · exact ⟨b,by simp [hb],rfl⟩
  · rw [hnew]
    refine ⟨⟨first,by simp,hfirst⟩,fun b hb => ⟨b,?_,rfl⟩⟩
    rcases List.mem_append.mp hb with hb | hb
    · exact List.mem_append_left _ hb
    · exact List.mem_append_right _ (List.mem_cons_of_mem _ hb)

/-- A count that every change and every insertion raises by one. -/
theorem SortedBy.sum_upsert (h : SortedBy key as) {count : α → ℕ}
    (hbump : ∀ a, count (bump a) = count a+1) (hfirst : count first = 1) :
    ((upsert key k bump first as).map count).sum = (as.map count).sum+1 := by
  rcases h.cases_upsert k bump first with ⟨before,a,after,rfl,-,-,-,hnew⟩ |
    ⟨before,after,rfl,-,-,hnew⟩
  · rw [hnew]
    simp only [List.map_append,List.map_cons,List.sum_append,List.sum_cons,hbump]
    omega
  · rw [hnew]
    simp only [List.map_append,List.map_cons,List.sum_append,List.sum_cons,hfirst]
    omega

theorem forall₂_append_left {R : α → β → Prop} {xs ys : List α} {bs : List β}
    (h : List.Forall₂ R (xs++ys) bs) :
    ∃ bs₁ bs₂, bs = bs₁++bs₂ ∧ List.Forall₂ R xs bs₁ ∧ List.Forall₂ R ys bs₂ := by
  induction xs generalizing bs with
  | nil => exact ⟨[],bs,rfl,.nil,h⟩
  | cons x xs ih =>
      cases h with
      | cons hx hrest =>
          obtain ⟨bs₁,bs₂,rfl,h₁,h₂⟩ := ih hrest
          exact ⟨_::bs₁,bs₂,rfl,.cons hx h₁,h₂⟩

/-- Two rosters that go by the same keys are changed at the same places. -/
theorem SortedBy.forall₂_upsert {key' : β → ℕ} {R : α → β → Prop} {bs : List β} {bump' : β → β}
    {first' : β} (h : SortedBy key as) (hR : List.Forall₂ R as bs)
    (hkey : ∀ a b, R a b → key a = key' b) (hbump : ∀ a b, R a b → R (bump a) (bump' b))
    (hfirst : R first first') :
    List.Forall₂ R (upsert key k bump first as) (upsert key' k bump' first' bs) := by
  have hside : ∀ {xs : List α} {ys : List β} (p : ℕ → Prop), List.Forall₂ R xs ys →
      (∀ x ∈ xs, p (key x)) → ∀ y ∈ ys, p (key' y) := by
    intro xs ys p hxy
    induction hxy with
    | nil => exact fun _ => nofun
    | cons hr _ ih =>
        intro hp
        obtain ⟨hx,hxs⟩ := List.forall_mem_cons.1 hp
        exact List.forall_mem_cons.2 ⟨hkey _ _ hr ▸ hx,ih hxs⟩
  rcases h.cases_upsert k bump first with ⟨before,a,after,rfl,ha,hbefore,hafter,hnew⟩ |
    ⟨before,after,rfl,hbefore,hafter,hnew⟩
  · obtain ⟨before',rest,rfl,h₁,h₂⟩ := forall₂_append_left hR
    cases h₂ with
    | cons hab hafter' =>
        rw [hnew,upsert_found ((hkey _ _ hab).symm.trans ha) (hside (· < k) h₁ hbefore)]
        exact List.rel_append h₁ (.cons (hbump _ _ hab) hafter')
  · obtain ⟨before',after',rfl,h₁,h₂⟩ := forall₂_append_left hR
    rw [hnew,upsert_missing (hside (· < k) h₁ hbefore) (hside (k < ·) h₂ hafter)]
    exact List.rel_append h₁ (.cons hfirst h₂)

end Roster

section Newest
variable {α : Type} {cap : ℕ}

/-- The newest entries of a history. -/
def newest (cap : ℕ) (history : List α) : List α := history.drop (history.length-cap)

/-- A new entry pushes out the oldest one of a full log. -/
def pushNewest (cap : ℕ) (log : List α) (x : α) : List α :=
  if log.length = cap then log.drop 1++[x] else log++[x]

theorem newest_length (history : List α) : (newest cap history).length = min history.length cap := by
  rw [newest,List.length_drop]
  omega

theorem pushNewest_newest (hcap : 0 < cap) (history : List α) (x : α) :
    pushNewest cap (newest cap history) x = newest cap (history++[x]) := by
  unfold pushNewest
  rw [newest_length]
  unfold newest
  rw [List.length_append,List.length_singleton]
  split
  · rename_i hfull
    rw [List.drop_drop,List.drop_append_of_le_length (by omega)]
    congr 2
    omega
  · rename_i hroom
    rw [List.drop_append_of_le_length (by omega)]
    congr 2
    omega

end Newest

end Atperson.Runs
