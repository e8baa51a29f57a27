import Mathlib

/-!
# Open addressing

A table with a power of two slots, each empty or the place of an entry. A key is looked for from
its home slot on, until a slot is empty; it is put in the first empty slot on that way. While a
slot is empty, both walks end. Each entry is found where no full slot on its way names an equal
one.
-/
namespace Atperson.Runs
variable {σ κ : Type}

/-- The slot `k` steps behind the home of a hash. -/
def slotAt (size hash k : ℕ) : ℕ := (hash+k)%size

theorem slotAt_lt {size : ℕ} (h : 0 < size) (hash k : ℕ) : slotAt size hash k < size :=
  Nat.mod_lt _ h

theorem slotAt_onto {size s : ℕ} (hs : s < size) (hash : ℕ) : ∃ k < size, slotAt size hash k = s := by
  have hpos : 0 < size := Nat.zero_lt_of_lt hs
  have hhome := Nat.mod_lt hash hpos
  refine ⟨(s+(size-hash%size))%size,Nat.mod_lt _ hpos,?_⟩
  rw [slotAt,Nat.add_mod_mod,Nat.add_mod,Nat.add_mod s,Nat.mod_eq_of_lt hs]
  rcases Nat.eq_zero_or_pos (hash%size) with hzero | hsome
  · rw [hzero,Nat.sub_zero,Nat.mod_self,Nat.add_zero,Nat.zero_add,Nat.mod_mod,Nat.mod_eq_of_lt hs]
  · have hrest : size-hash%size < size := by omega
    rw [Nat.mod_eq_of_lt hrest,Nat.add_mod_mod,
      show hash%size+(s+(size-hash%size)) = s+size by omega,Nat.add_mod_right,Nat.mod_eq_of_lt hs]

section Mask
variable {n size : ℕ}

theorem masked (h : size = 2^n) (x : ℕ) : x &&& (size-1) = x%size := by
  rw [h]
  exact Nat.and_two_pow_sub_one_eq_mod x n

theorem masked_next (h : size = 2^n) (hash k : ℕ) :
    (slotAt size hash k+1) &&& (size-1) = slotAt size hash (k+1) := by
  rw [masked h,slotAt,slotAt,Nat.mod_add_mod,Nat.add_assoc]

end Mask

/-! ## Walks -/

section Walks
variable (view : σ → Option ℕ)

/-- Whether a slot holds an entry. -/
def Full (slots : List σ) (s : ℕ) : Prop := ∃ x, slots[s]? = some x ∧ (view x).isSome = true

instance (slots : List σ) (s : ℕ) : Decidable (Full view slots s) :=
  match h : slots[s]? with
  | none => isFalse fun hfull => by
      obtain ⟨x,hx,-⟩ := hfull
      rw [h] at hx
      cases hx
  | some x => decidable_of_iff ((view x).isSome = true) ⟨fun hx => ⟨x,h,hx⟩,fun hfull => by
      obtain ⟨y,hy,hsome⟩ := hfull
      rw [h] at hy
      cases hy
      exact hsome⟩

/-- How many slots hold an entry. -/
def occupied (slots : List σ) : ℕ := slots.countP fun x => (view x).isSome

/-- The first empty slot from a slot on, `none` where none is met in so many steps. -/
def freeFrom (slots : List σ) : ℕ → ℕ → Option ℕ
  | 0, _ => none
  | n+1, s => if Full view slots s then freeFrom slots n ((s+1) &&& (slots.length-1)) else some s

/-- A value put in the first empty slot behind its home. -/
def putFree (slots : List σ) (hash : ℕ) (x : σ) : Option (List σ) :=
  (freeFrom view slots slots.length (hash &&& (slots.length-1))).map fun s => slots.set s x

/-- The entry of the first slot that hits, before an empty one; `none` where neither is met. -/
def findFrom (hit : σ → ℕ → Bool) (slots : List σ) : ℕ → ℕ → Option (Option ℕ)
  | 0, _ => none
  | n+1, s =>
      match slots[s]?.bind fun x => (view x).map fun i => (x,i) with
      | none => some none
      | some (x,i) =>
          if hit x i then some (some i) else findFrom hit slots n ((s+1) &&& (slots.length-1))

def search (hit : σ → ℕ → Bool) (slots : List σ) (hash : ℕ) : Option (Option ℕ) :=
  findFrom view hit slots slots.length (hash &&& (slots.length-1))

/-- Entries put one after another, each as the slot value of its number and key. -/
def fill (hash : κ → ℕ) (mk : ℕ → κ → σ) : ℕ → List κ → List σ → Option (List σ)
  | _, [], slots => some slots
  | i, key::rest, slots => (putFree view slots (hash key) (mk i key)).bind (fill hash mk (i+1) rest)

variable {view}

theorem full_iff {slots : List σ} {s : ℕ} :
    Full view slots s ↔ ∃ x i, slots[s]? = some x ∧ view x = some i := by
  refine ⟨fun ⟨x,hx,hsome⟩ => ?_,fun ⟨x,i,hx,hi⟩ => ⟨x,hx,by rw [hi]; rfl⟩⟩
  obtain ⟨i,hi⟩ := Option.isSome_iff_exists.mp hsome
  exact ⟨x,i,hx,hi⟩

theorem full_set {slots : List σ} {s t : ℕ} {x : σ} (hx : (view x).isSome)
    (h : Full view slots t) : Full view (slots.set s x) t := by
  obtain ⟨y,hy,hfull⟩ := h
  by_cases hst : s = t
  · subst hst
    exact ⟨x,List.getElem?_set_self (List.getElem?_eq_some_iff.mp hy).1,hx⟩
  · exact ⟨y,by rw [List.getElem?_set_ne hst,hy],hfull⟩

/-- Where fewer slots are full than there are, one is empty. -/
theorem exists_free {slots : List σ} (h : occupied view slots < slots.length) :
    ∃ s < slots.length, ¬Full view slots s := by
  obtain ⟨x,hx,hempty⟩ := List.countP_lt_length_iff.mp h
  obtain ⟨s,hs⟩ := List.mem_iff_getElem?.mp hx
  refine ⟨s,(List.getElem?_eq_some_iff.mp hs).1,fun ⟨y,hy,hfull⟩ => ?_⟩
  rw [hs] at hy
  obtain rfl := Option.some.inj hy
  rw [hfull] at hempty
  cases hempty

theorem occupied_set {slots : List σ} {s : ℕ} (hs : s < slots.length) (x : σ) :
    occupied view (slots.set s x) ≤ occupied view slots+1 := by
  rw [occupied,List.countP_set hs]
  have := List.countP_le_length (p := fun x => (view x).isSome) (l := slots)
  split <;> split <;> simp only [occupied] <;> omega

/-- Some step of the way of a hash, before it comes round, meets an empty slot for the first time. -/
theorem first_free {slots : List σ} (h : occupied view slots < slots.length) (hash : ℕ) :
    ∃ k < slots.length, ¬Full view slots (slotAt slots.length hash k) ∧
      ∀ j < k, Full view slots (slotAt slots.length hash j) := by
  obtain ⟨s,hs,hfree⟩ := exists_free h
  obtain ⟨k,hk,hat⟩ := slotAt_onto hs hash
  have hex : ∃ k, ¬Full view slots (slotAt slots.length hash k) := ⟨k,by rwa [hat]⟩
  refine ⟨Nat.find hex,lt_of_le_of_lt (Nat.find_min' hex (by rwa [hat])) hk,Nat.find_spec hex,
    fun j hj => not_not.mp (Nat.find_min hex hj)⟩

section Mask
variable {slots : List σ} {n : ℕ}

theorem freeFrom_spec (hsize : slots.length = 2^n) {hash k : ℕ}
    (hfree : ¬Full view slots (slotAt slots.length hash k)) {j fuel : ℕ} (hj : j ≤ k)
    (hfull : ∀ i, j ≤ i → i < k → Full view slots (slotAt slots.length hash i))
    (hfuel : k < j+fuel) :
    freeFrom view slots fuel (slotAt slots.length hash j) = some (slotAt slots.length hash k) := by
  induction fuel generalizing j with
  | zero => omega
  | succ fuel ih =>
      unfold freeFrom
      rcases Nat.eq_or_lt_of_le hj with rfl | hlt
      · exact if_neg hfree
      · rw [if_pos (hfull j le_rfl hlt),masked_next hsize]
        exact ih hlt (fun i hi => hfull i (by omega)) (by omega)

theorem home (hsize : slots.length = 2^n) (hash : ℕ) :
    hash &&& (slots.length-1) = slotAt slots.length hash 0 := by
  rw [masked hsize,slotAt,Nat.add_zero]

/-- A value is put at the end of the full slots behind its home. -/
theorem putFree_spec (hsize : slots.length = 2^n) (hroom : occupied view slots < slots.length)
    (hash : ℕ) (x : σ) :
    ∃ k, putFree view slots hash x = some (slots.set (slotAt slots.length hash k) x) ∧
      ¬Full view slots (slotAt slots.length hash k) ∧
      ∀ j < k, Full view slots (slotAt slots.length hash j) := by
  obtain ⟨k,hk,hfree,hfull⟩ := first_free hroom hash
  refine ⟨k,?_,hfree,hfull⟩
  rw [putFree,home hsize,freeFrom_spec hsize hfree (Nat.zero_le k) (fun i _ => hfull i) (by omega)]
  rfl

/-- Filling a table that stays larger than what is in it ends, and keeps its size. -/
theorem fill_room (hsize : slots.length = 2^n) (hash : κ → ℕ) (mk : ℕ → κ → σ) {keys : List κ}
    {i : ℕ} (hroom : occupied view slots+keys.length < slots.length) :
    ∃ slots', fill view hash mk i keys slots = some slots' ∧ slots'.length = slots.length ∧
      occupied view slots' ≤ occupied view slots+keys.length := by
  induction keys generalizing i slots with
  | nil => exact ⟨slots,rfl,rfl,by simp⟩
  | cons key rest ih =>
      rw [List.length_cons] at hroom
      have hpos : 0 < slots.length := by omega
      have hfew : occupied view slots < slots.length := by omega
      obtain ⟨k,hput,-⟩ := putFree_spec hsize hfew (hash key) (mk i key)
      have hset : occupied view (slots.set _ _) ≤ occupied view slots+1 :=
        occupied_set (slotAt_lt hpos (hash key) k) (mk i key)
      have hlen : (slots.set (slotAt slots.length (hash key) k) (mk i key)).length = slots.length :=
        List.length_set
      obtain ⟨slots',hfill,hlen',hocc⟩ := @ih _ (hlen.trans hsize) (i+1) (by omega)
      rw [hlen] at hlen'
      refine ⟨slots',?_,hlen',by rw [List.length_cons]; omega⟩
      unfold fill
      rw [hput]
      exact hfill

end Mask

end Walks

/-! ## Tables -/

section Tables
variable (view : σ → Option ℕ) (hash : κ → ℕ) (mk : ℕ → κ → σ)

/-- What an index over entries holds: each full slot is one entry, and each entry stands on the
way from its home slot, behind full slots only. -/
structure Indexes (entries : List κ) (slots : List σ) : Prop where
  sound : ∀ (s : ℕ) (x : σ) (i : ℕ), slots[s]? = some x → view x = some i →
    ∃ key, entries[i]? = some key ∧ x = mk i key
  found : ∀ (i : ℕ) (key : κ), entries[i]? = some key → ∃ k,
    slots[slotAt slots.length (hash key) k]? = some (mk i key) ∧
      ∀ j < k, Full view slots (slotAt slots.length (hash key) j)

variable {view hash mk} {entries : List κ} {slots : List σ} {n : ℕ}

theorem indexes_empty (h : ∀ x ∈ slots, view x = none) : Indexes view hash mk [] slots where
  sound := fun s x i hx hi => by
    rw [h x (List.mem_of_getElem? hx)] at hi
    cases hi
  found := fun i key hkey => by cases hkey

theorem occupied_empty (h : ∀ x ∈ slots, view x = none) : occupied view slots = 0 :=
  List.countP_eq_zero.mpr fun x hx => by rw [h x hx]; exact Bool.false_ne_true

/-- The next entry, put at the end of the full slots behind its home, is indexed too. -/
theorem Indexes.insert (h : Indexes view hash mk entries slots) (hpos : 0 < slots.length) {key : κ}
    (hview : ∀ i ≤ entries.length, ∀ key, view (mk i key) = some i) {k : ℕ}
    (hfree : ¬Full view slots (slotAt slots.length (hash key) k))
    (hfull : ∀ j < k, Full view slots (slotAt slots.length (hash key) j)) :
    Indexes view hash mk (entries++[key])
      (slots.set (slotAt slots.length (hash key) k) (mk entries.length key)) := by
  have hsome : (view (mk entries.length key)).isSome := by rw [hview _ le_rfl]; rfl
  have hlt := slotAt_lt hpos (hash key) k
  refine ⟨fun s x i hx hi => ?_,fun i key' hkey => ?_⟩
  · by_cases hs : slotAt slots.length (hash key) k = s
    · subst hs
      rw [List.getElem?_set_self hlt] at hx
      obtain rfl := Option.some.inj hx
      obtain rfl := Option.some.inj ((hview _ le_rfl key).symm.trans hi)
      exact ⟨key,by simp,rfl⟩
    · rw [List.getElem?_set_ne hs] at hx
      obtain ⟨key',hkey,rfl⟩ := h.sound s x i hx hi
      exact ⟨key',by rw [List.getElem?_append_left (List.getElem?_eq_some_iff.mp hkey).1,hkey],rfl⟩
  · rw [List.length_set]
    rcases Nat.lt_or_ge i entries.length with hi | hi
    · rw [List.getElem?_append_left hi] at hkey
      obtain ⟨k',hat,hrun⟩ := h.found i key' hkey
      have hold : Full view slots (slotAt slots.length (hash key') k') :=
        full_iff.mpr ⟨_,i,hat,hview i (Nat.le_of_lt hi) key'⟩
      refine ⟨k',?_,fun j hj => full_set hsome (hrun j hj)⟩
      have hne : slotAt slots.length (hash key) k ≠ slotAt slots.length (hash key') k' := by
        intro heq
        rw [← heq] at hold
        exact hfree hold
      rw [List.getElem?_set_ne hne,hat]
    · rw [List.getElem?_append_right hi] at hkey
      have hlast : i-entries.length = 0 := by simpa using (List.getElem?_eq_some_iff.mp hkey).1
      rw [hlast] at hkey
      cases hkey
      obtain rfl : i = entries.length := by omega
      exact ⟨k,List.getElem?_set_self hlt,fun j hj => full_set hsome (hfull j hj)⟩

/-- Entries put one after another into a table with room are indexed. -/
theorem Indexes.fill (h : Indexes view hash mk entries slots) (hsize : slots.length = 2^n)
    {keys : List κ} (hroom : occupied view slots+keys.length < slots.length)
    (hview : ∀ i < entries.length+keys.length, ∀ key, view (mk i key) = some i) {slots' : List σ}
    (hfill : Runs.fill view hash mk entries.length keys slots = some slots') :
    Indexes view hash mk (entries++keys) slots' := by
  induction keys generalizing entries slots with
  | nil =>
      cases hfill
      rwa [List.append_nil]
  | cons key rest ih =>
      rw [List.length_cons] at hroom hview
      have hpos : 0 < slots.length := by omega
      have hfew : occupied view slots < slots.length := by omega
      obtain ⟨k,hput,hfree,hfull⟩ := putFree_spec hsize hfew (hash key) (mk entries.length key)
      have hnext := h.insert hpos (fun i hi => hview i (by omega)) hfree hfull
      have hset : occupied view (slots.set _ _) ≤ occupied view slots+1 :=
        occupied_set (slotAt_lt hpos (hash key) k) (mk entries.length key)
      have hlen : (slots.set (slotAt slots.length (hash key) k) (mk entries.length key)).length =
          slots.length := List.length_set
      unfold Runs.fill at hfill
      rw [hput] at hfill
      have hrest := ih hnext (hlen.trans hsize) (by omega)
        (by rw [List.length_append,List.length_singleton]; exact fun i hi => hview i (by omega))
        (by rw [List.length_append]; exact hfill)
      rwa [List.append_assoc,List.singleton_append] at hrest

/-! ## Search -/

theorem findFrom_spec (hsize : slots.length = 2^n) {hit : σ → ℕ → Bool} {home k : ℕ} {j fuel : ℕ}
    (hj : j ≤ k) (hmiss : ∀ m, j ≤ m → m < k → ∃ x i,
      slots[slotAt slots.length home m]? = some x ∧ view x = some i ∧ hit x i = false)
    (hfuel : k < j+fuel) :
    findFrom view hit slots fuel (slotAt slots.length home j) =
      findFrom view hit slots (j+fuel-k) (slotAt slots.length home k) := by
  induction fuel generalizing j with
  | zero => omega
  | succ fuel ih =>
      rcases Nat.eq_or_lt_of_le hj with rfl | hlt
      · rw [Nat.add_sub_cancel_left]
      · obtain ⟨x,i,hx,hi,hno⟩ := hmiss j le_rfl hlt
        have hstep : findFrom view hit slots (fuel+1) (slotAt slots.length home j) =
            findFrom view hit slots fuel (slotAt slots.length home (j+1)) := by
          rw [findFrom,hx,masked_next hsize]
          simp only [Option.bind_some,hi,Option.map_some,hno,Bool.false_eq_true,if_false]
        rw [hstep,ih hlt (fun m hm => hmiss m (by omega)) (by omega)]
        congr 1
        omega

/-- Where a search stops: at an empty slot and at a hit. -/
def Stops (view : σ → Option ℕ) (hit : σ → ℕ → Bool) (slots : List σ) (s : ℕ) : Prop :=
  ∀ x i, slots[s]? = some x → view x = some i → hit x i = true

/-- A search ends. It returns the first hit on the way, or nothing at an empty slot without a hit
before it. -/
theorem search_ends (hsize : slots.length = 2^n) (hroom : occupied view slots < slots.length)
    (hit : σ → ℕ → Bool) (home : ℕ) : ∃ r k, search view hit slots home = some r ∧
      (∀ j < k, ∃ x i, slots[slotAt slots.length home j]? = some x ∧ view x = some i ∧
        hit x i = false) ∧
      (∀ i, r = some i → ∃ x, slots[slotAt slots.length home k]? = some x ∧ view x = some i ∧
        hit x i = true) ∧
      (r = none → ¬Full view slots (slotAt slots.length home k)) := by
  classical
  obtain ⟨m,hm,hfree,-⟩ := first_free hroom home
  have hex : ∃ k, Stops view hit slots (slotAt slots.length home k) :=
    ⟨m,fun x i hx hi => (hfree (full_iff.mpr ⟨x,i,hx,hi⟩)).elim⟩
  have hk : Nat.find hex < slots.length :=
    lt_of_le_of_lt (Nat.find_min' hex fun x i hx hi =>
      (hfree (full_iff.mpr ⟨x,i,hx,hi⟩)).elim) hm
  have hstop := Nat.find_spec hex
  have hmiss : ∀ j < Nat.find hex, ∃ x i, slots[slotAt slots.length home j]? = some x ∧
      view x = some i ∧ hit x i = false := by
    intro j hj
    have hgo := Nat.find_min hex hj
    unfold Stops at hgo
    push Not at hgo
    obtain ⟨x,i,hx,hi,hno⟩ := hgo
    exact ⟨x,i,hx,hi,by simpa using hno⟩
  generalize Nat.find hex = k at hk hstop hmiss
  obtain ⟨fuel,hfuel⟩ : ∃ fuel, 0+slots.length-k = fuel+1 := ⟨slots.length-k-1,by omega⟩
  have hwalk : search view hit slots home =
      findFrom view hit slots (fuel+1) (slotAt slots.length home k) := by
    rw [search,Runs.home hsize,findFrom_spec hsize (Nat.zero_le k) (fun j _ => hmiss j) (by omega),
      hfuel]
  rw [hwalk,findFrom]
  cases hat : slots[slotAt slots.length home k]?.bind fun x => (view x).map fun i => (x,i) with
  | none =>
      refine ⟨none,k,rfl,hmiss,fun i hi => (by cases hi),fun _ hfull => ?_⟩
      obtain ⟨x,i,hx,hi⟩ := full_iff.mp hfull
      rw [hx,Option.bind_some,hi] at hat
      cases hat
  | some pair =>
      obtain ⟨x,hx,hpair⟩ := Option.bind_eq_some_iff.mp hat
      obtain ⟨i,hi,rfl⟩ := Option.map_eq_some_iff.mp hpair
      have hhit := hstop x i hx hi
      refine ⟨some i,k,if_pos hhit,hmiss,fun i' hi' => ?_,fun h => (by cases h)⟩
      cases hi'
      exact ⟨x,hx,hi,hhit⟩

/-- A search through an index for an entry by its key: it returns an entry with the key, and
nothing only where no entry has it. -/
theorem Indexes.search (h : Indexes view hash mk entries slots) (hsize : slots.length = 2^n)
    (hroom : occupied view slots < slots.length)
    (hview : ∀ i < entries.length, ∀ key, view (mk i key) = some i) (key : κ) {hit : σ → ℕ → Bool}
    (hhit : ∀ i key', entries[i]? = some key' → (hit (mk i key') i = true ↔ key' = key)) :
    ∃ r, Runs.search view hit slots (hash key) = some r ∧
      (∀ i, r = some i → entries[i]? = some key) ∧ (r = none → key ∉ entries) := by
  obtain ⟨r,k,hr,hmiss,hsome,hnone⟩ := search_ends hsize hroom hit (hash key)
  refine ⟨r,hr,fun i hi => ?_,fun hr hmem => ?_⟩
  · obtain ⟨x,hx,hv,hh⟩ := hsome i hi
    obtain ⟨key',hkey,rfl⟩ := h.sound _ x i hx hv
    rwa [(hhit i key' hkey).mp hh] at hkey
  · obtain ⟨i,hi⟩ := List.mem_iff_getElem?.mp hmem
    obtain ⟨m,hat,hrun⟩ := h.found i key hi
    have hv := hview i (List.getElem?_eq_some_iff.mp hi).1 key
    rcases Nat.lt_trichotomy m k with hlt | rfl | hgt
    · obtain ⟨x,i',hx,hv',hno⟩ := hmiss m hlt
      rw [hat] at hx
      cases hx
      cases hv.symm.trans hv'
      rw [(hhit i key hi).mpr rfl] at hno
      cases hno
    · exact hnone hr (full_iff.mpr ⟨_,i,hat,hv⟩)
    · exact hnone hr (hrun k hgt)

/-! ## Tables that stand -/

/-- A table over entries: no fuller than there are entries, and an index of them while their numbers
are below the bound that a slot can hold. -/
structure Stands (view : σ → Option ℕ) (hash : κ → ℕ) (mk : ℕ → κ → σ) (bound : ℕ)
    (entries : List κ) (slots : List σ) : Prop where
  power : ∃ n, slots.length = 2^n
  full : occupied view slots ≤ entries.length
  indexes : entries.length ≤ bound → Indexes view hash mk entries slots

section Stands
variable {bound : ℕ} (hview : ∀ i < bound, ∀ key, view (mk i key) = some i)
include hview

/-- Filling an empty table larger than the entries ends in a table over them. -/
theorem stands_filled (hblank : ∀ x ∈ slots, view x = none) (hsize : slots.length = 2^n)
    (hroom : entries.length < slots.length) :
    ∃ slots', fill view hash mk 0 entries slots = some slots' ∧ slots'.length = slots.length ∧
      Stands view hash mk bound entries slots' := by
  have hnone := occupied_empty hblank
  have hfits : occupied view slots+entries.length < slots.length := by omega
  obtain ⟨slots',hfill,hlen,hocc⟩ := @fill_room _ _ _ _ _ hsize hash mk _ 0 hfits
  refine ⟨slots',hfill,hlen,⟨n,hlen.trans hsize⟩,by omega,fun hcount => ?_⟩
  have hall := (indexes_empty hblank).fill hsize hfits (fun i hi key =>
    hview i (by rw [List.length_nil] at hi; omega) key) hfill
  rwa [List.nil_append] at hall

/-- One more entry, put behind its home, leaves a table over the longer entries. -/
theorem Stands.insert {entries' : List κ} (h : Stands view hash mk bound entries slots)
    (hroom : entries.length < slots.length) (hlen : entries'.length = entries.length+1) {i : ℕ}
    {key : κ} (hlast : entries'.length ≤ bound → entries' = entries++[key] ∧ i = entries.length) :
    ∃ slots', putFree view slots (hash key) (mk i key) = some slots' ∧
      slots'.length = slots.length ∧ Stands view hash mk bound entries' slots' := by
  obtain ⟨n,hn⟩ := h.power
  have hfull := h.full
  have hpos : 0 < slots.length := by omega
  have hfew : occupied view slots < slots.length := by omega
  obtain ⟨k,hput,hfree,hrun⟩ := putFree_spec hn hfew (hash key) (mk i key)
  have hset : occupied view (slots.set _ _) ≤ occupied view slots+1 :=
    occupied_set (slotAt_lt hpos (hash key) k) (mk i key)
  have hsize : (slots.set (slotAt slots.length (hash key) k) (mk i key)).length = slots.length :=
    List.length_set
  refine ⟨_,hput,hsize,⟨n,hsize.trans hn⟩,by omega,fun hcount => ?_⟩
  obtain ⟨rfl,rfl⟩ := hlast hcount
  rw [List.length_append,List.length_singleton] at hcount
  exact (h.indexes (by omega)).insert hpos (fun j hj key => hview j (by omega) key) hfree hrun

/-- A search through a table over the entries for one of them by its key. -/
theorem Stands.search (h : Stands view hash mk bound entries slots)
    (hroom : entries.length < slots.length) (hcount : entries.length ≤ bound) (key : κ)
    {hit : σ → ℕ → Bool}
    (hhit : ∀ i key', entries[i]? = some key' → (hit (mk i key') i = true ↔ key' = key)) :
    ∃ r, Runs.search view hit slots (hash key) = some r ∧
      (∀ i, r = some i → entries[i]? = some key) ∧ (r = none → key ∉ entries) := by
  obtain ⟨n,hn⟩ := h.power
  have hfull := h.full
  exact (h.indexes hcount).search hn (by omega) (fun i hi => hview i (by omega)) key hhit

end Stands

/-- Of distinct entries, a search that finds an entry by its key returns a number exactly where the
entry of this number has the key, and -1 exactly where none has. -/
theorem search_numbers (hdistinct : entries.Nodup) {key : κ} {r : Option ℕ} {number : ℕ → ℤ}
    (hnumber : ∀ i < entries.length, number i = i) (hsome : ∀ i, r = some i → entries[i]? = some key)
    (hnone : r = none → key ∉ entries) :
    (∀ i : ℕ, r.elim (-1) number = i ↔ entries[i]? = some key) ∧
      (r.elim (-1) number = -1 ↔ key ∉ entries) := by
  cases r with
  | none =>
      have habsent := hnone rfl
      rw [Option.elim_none]
      refine ⟨fun i => ⟨fun hi => (by omega),fun hi => ?_⟩,fun _ => habsent,fun _ => rfl⟩
      exact (habsent (List.mem_of_getElem? hi)).elim
  | some j =>
      have hj := hsome j rfl
      have hlt := (List.getElem?_eq_some_iff.mp hj).1
      rw [Option.elim_some,hnumber j hlt]
      refine ⟨fun i => ⟨fun hi => ?_,fun hi => ?_⟩,fun hi => (by omega),fun hi => ?_⟩
      · obtain rfl : j = i := by omega
        exact hj
      · rw [(List.getElem?_inj hlt hdistinct).mp (hj.trans hi.symm)]
      · exact (hi (List.mem_of_getElem? hj)).elim

end Tables

end Atperson.Runs
