import Atperson.Journal.Rules

/-!
# Pending intents

The journal appends a line to an intent for each change of it, so that the current record of
an intent is the last line with its id. Every earlier line is history.
-/
namespace Atperson.Intent
open Journal Wire

/-- `latest_intent`. -/
def latestIntent (intents : List JournalIntent) (id : Bytes) : Option JournalIntent :=
  intents.foldl (fun latest entry => if entry.id = id then some entry else latest) none

/-- A line takes the slot of its intent, or a slot of its own. -/
def placeIntent : List JournalIntent → JournalIntent → List JournalIntent
  | [], entry => [entry]
  | slot::rest, entry => if slot.id = entry.id then entry::rest else slot::placeIntent rest entry

/-- The last line of every intent, in the order the intents first appear. -/
def latestIntents (intents : List JournalIntent) : List JournalIntent :=
  intents.foldl placeIntent []

/-- `active_intents`. -/
def activeIntents (intents : List JournalIntent) (now : ℤ) : List JournalIntent :=
  (latestIntents intents).filter fun entry => deriveIntentState entry now = .opened

/-- `active_intent_count`. -/
def activeIntentCount (intents : List JournalIntent) (now : ℤ) : ℕ :=
  (activeIntents intents now).length

section Latest
variable {intents slots : List JournalIntent} {entry x : JournalIntent} {id : Bytes}

theorem latestIntent_concat (intents : List JournalIntent) (entry : JournalIntent) (id : Bytes) :
    latestIntent (intents++[entry]) id =
      if entry.id = id then some entry else latestIntent intents id := by
  rw [latestIntent,List.foldl_append]
  rfl

theorem latestIntents_concat (intents : List JournalIntent) (entry : JournalIntent) :
    latestIntents (intents++[entry]) = placeIntent (latestIntents intents) entry := by
  rw [latestIntents,List.foldl_append]
  rfl

theorem mem_placeIntent (hnodup : (slots.map JournalIntent.id).Nodup) :
    x ∈ placeIntent slots entry ↔ x = entry ∨ (x ∈ slots ∧ x.id ≠ entry.id) := by
  induction slots with
  | nil => simp [placeIntent]
  | cons slot rest ih =>
      obtain ⟨hslot,hrest⟩ := List.nodup_cons.mp hnodup
      unfold placeIntent
      split
      · rename_i hsame
        rw [List.mem_cons,List.mem_cons]
        constructor
        · rintro (hx | hx)
          · exact .inl hx
          · refine .inr ⟨.inr hx,fun hid => hslot ?_⟩
            rw [hsame,← hid]
            exact List.mem_map_of_mem hx
        · rintro (hx | ⟨rfl | hx,hid⟩)
          · exact .inl hx
          · exact absurd hsame hid
          · exact .inr hx
      · rename_i hother
        rw [List.mem_cons,ih hrest,List.mem_cons]
        constructor
        · rintro (rfl | hx | ⟨hx,hid⟩)
          · exact .inr ⟨.inl rfl,hother⟩
          · exact .inl hx
          · exact .inr ⟨.inr hx,hid⟩
        · rintro (hx | ⟨rfl | hx,hid⟩)
          · exact .inr (.inl hx)
          · exact .inl rfl
          · exact .inr (.inr ⟨hx,hid⟩)

theorem placeIntent_nodup (hnodup : (slots.map JournalIntent.id).Nodup) (entry : JournalIntent) :
    ((placeIntent slots entry).map JournalIntent.id).Nodup := by
  induction slots with
  | nil => exact List.nodup_singleton _
  | cons slot rest ih =>
      obtain ⟨hslot,hrest⟩ := List.nodup_cons.mp hnodup
      unfold placeIntent
      split
      · rename_i hsame
        rw [List.map_cons,← hsame]
        exact hnodup
      · rename_i hother
        refine List.nodup_cons.mpr ⟨fun hmem => ?_,ih hrest⟩
        obtain ⟨y,hy,hid⟩ := List.mem_map.mp hmem
        rcases (mem_placeIntent hrest).mp hy with rfl | ⟨hy,-⟩
        · exact hother hid.symm
        · exact hslot (hid ▸ List.mem_map_of_mem hy)

theorem latestIntents_nodup (intents : List JournalIntent) :
    ((latestIntents intents).map JournalIntent.id).Nodup := by
  induction intents using List.reverseRecOn with
  | nil => exact .nil
  | append_singleton intents entry ih =>
      rw [latestIntents_concat]
      exact placeIntent_nodup ih entry

/-- The slots hold the last line of every intent. -/
theorem mem_latestIntents : x ∈ latestIntents intents ↔ latestIntent intents x.id = some x := by
  induction intents using List.reverseRecOn with
  | nil => exact ⟨nofun,nofun⟩
  | append_singleton intents entry ih =>
      rw [latestIntents_concat,mem_placeIntent (latestIntents_nodup intents),ih,
        latestIntent_concat]
      by_cases hid : entry.id = x.id
      · rw [if_pos hid,Option.some.injEq]
        exact ⟨fun h => h.elim Eq.symm fun h => absurd hid.symm h.2,fun h => .inl h.symm⟩
      · rw [if_neg hid]
        refine ⟨fun h => h.elim (fun h => ?_) fun h => h.1,fun h => .inr ⟨h,Ne.symm hid⟩⟩
        exact absurd (h ▸ rfl) hid

theorem latestIntent_id (h : latestIntent intents id = some x) : x.id = id := by
  induction intents using List.reverseRecOn with
  | nil => cases h
  | append_singleton intents entry ih =>
      rw [latestIntent_concat] at h
      split at h
      · rename_i hid
        exact Option.some.inj h ▸ hid
      · exact ih h

theorem latestIntent_mem (h : latestIntent intents id = some x) : x ∈ intents := by
  induction intents using List.reverseRecOn with
  | nil => cases h
  | append_singleton intents entry ih =>
      rw [latestIntent_concat] at h
      split at h
      · rw [Option.some.inj h]
        exact List.mem_append_right _ (List.mem_singleton_self _)
      · exact List.mem_append_left _ (ih h)

theorem latestIntents_subset (intents : List JournalIntent) : latestIntents intents ⊆ intents :=
  fun _ hx => latestIntent_mem (mem_latestIntents.mp hx)

end Latest

/-! ## Counting -/

section Count
variable {slots : List JournalIntent} {p : JournalIntent → Bool}

/-- What is counted is counted in the slots of the other intents and in the one of the line. -/
theorem countP_placeIntent (hnodup : (slots.map JournalIntent.id).Nodup)
    (entry : JournalIntent) :
    (placeIntent slots entry).countP p =
      (slots.filter fun slot => slot.id ≠ entry.id).countP p+(if p entry then 1 else 0) := by
  induction slots with
  | nil => simp [placeIntent,List.countP_cons]
  | cons slot rest ih =>
      obtain ⟨hslot,hrest⟩ := List.nodup_cons.mp hnodup
      unfold placeIntent
      split
      · rename_i hsame
        have hothers : rest.filter (fun s => s.id ≠ entry.id) = rest := by
          refine List.filter_eq_self.mpr fun s hs => decide_eq_true fun hid => hslot ?_
          rw [hsame,← hid]
          exact List.mem_map_of_mem hs
        rw [List.filter_cons_of_neg (by simpa using hsame),hothers,List.countP_cons]
      · rename_i hother
        rw [List.filter_cons_of_pos (by simpa using hother),List.countP_cons,ih hrest,
          List.countP_cons]
        omega

theorem latestIntent_eq_find (intents : List JournalIntent) (id : Bytes) :
    latestIntent intents id = (latestIntents intents).find? fun slot => slot.id = id := by
  cases hfind : (latestIntents intents).find? fun slot => slot.id = id with
  | some x =>
      have hid : x.id = id := by simpa using List.find?_some hfind
      rw [← mem_latestIntents.mp (List.mem_of_find?_eq_some hfind),hid]
  | none =>
      cases hlatest : latestIntent intents id with
      | none => rfl
      | some x =>
          have hid := latestIntent_id hlatest
          have hmem : x ∈ latestIntents intents := mem_latestIntents.mpr (hid ▸ hlatest)
          exact absurd (decide_eq_true hid) (List.find?_eq_none.mp hfind x hmem)

theorem countP_find (hnodup : (slots.map JournalIntent.id).Nodup) (id : Bytes) :
    slots.countP p = (slots.filter fun slot => slot.id ≠ id).countP p+
      (if (slots.find? fun slot => slot.id = id).any p then 1 else 0) := by
  induction slots with
  | nil => rfl
  | cons slot rest ih =>
      obtain ⟨hslot,hrest⟩ := List.nodup_cons.mp hnodup
      by_cases hsame : slot.id = id
      · have hothers : rest.filter (fun s => s.id ≠ id) = rest := by
          refine List.filter_eq_self.mpr fun s hs => decide_eq_true fun hid => hslot ?_
          rw [hsame,← hid]
          exact List.mem_map_of_mem hs
        rw [List.filter_cons_of_neg (by simpa using hsame),hothers,List.countP_cons,
          List.find?_cons_of_pos (by simpa using hsame),Option.any_some]
      · rw [List.filter_cons_of_pos (by simpa using hsame),List.countP_cons,List.countP_cons,
          List.find?_cons_of_neg (by simpa using hsame),ih hrest]
        omega

/-- What is counted over all intents is counted over the others and over one. -/
theorem countP_latestIntents (intents : List JournalIntent) (id : Bytes) :
    (latestIntents intents).countP p =
      ((latestIntents intents).filter fun slot => slot.id ≠ id).countP p+
        (if (latestIntent intents id).any p then 1 else 0) := by
  rw [latestIntent_eq_find]
  exact countP_find (latestIntents_nodup intents) id

end Count

end Atperson.Intent
