import Atperson.Intent.Conversations

/-!
# Conversations within their bounds

In every run of recordings and sweeps under one configuration the cap and the budgets hold,
and a sweep leaves each ended conversation with one terminal line. Recording an action again
is refused as a duplicate while its conversation is open; a recording that ends the
conversation at once is not remembered, and the second opens another.
-/
namespace Atperson.Intent
open Journal Wire Runs
open Outbound (OutboundAction OutboundExecutionResult)

/-! ## Lines -/

section Line
variable {config : IntentConfig} {intents lines : List JournalIntent} {x y : JournalIntent}
  {now later : ℤ} {id : Bytes}

/-- A line within the budget of replies. -/
structure Sized (config : IntentConfig) (x : JournalIntent) : Prop where
  some : x.actions ≠ []
  budget : x.maxContinuations = config.maxContinuations
  length : x.actions.length ≤ x.maxContinuations.toNat+1
  distinct : x.actions.Nodup

/-- An open line, in numbers. -/
theorem opened_iff (h : Sized config x) : deriveIntentState x now = .opened ↔
    x.state = .opened ∧ now ≤ x.expiresAtEpoch.toInt64.toInt ∧
      x.actions.length ≤ x.maxContinuations.toNat := by
  have hpos : 0 < x.actions.length := List.length_pos_iff.mpr h.some
  have hmax := x.maxContinuations.toNat_lt
  have hlength := h.length
  have hsize : UInt64.size = 2^64 := rfl
  have hspent : x.maxContinuations.toUInt64 ≤ UInt64.ofNat x.actions.length-1 ↔
      x.maxContinuations.toNat ≤ x.actions.length-1 := by
    have hone : (1 : UInt64) ≤ UInt64.ofNat x.actions.length := by
      rw [UInt64.le_iff_toNat_le,UInt64.toNat_ofNat_of_lt' (by omega)]
      exact hpos
    rw [UInt64.le_iff_toNat_le,UInt64.toNat_sub_of_le _ _ hone,
      UInt64.toNat_ofNat_of_lt' (by omega),UInt32.toNat_toUInt64]
    rfl
  unfold deriveIntentState
  rw [if_congr hspent rfl rfl]
  split
  · rename_i hterminal
    exact ⟨fun h => absurd h hterminal,fun h => h.1⟩
  · rename_i hopened
    split
    · rename_i hpassed
      exact ⟨nofun,fun h => absurd hpassed (not_lt.mpr h.2.1)⟩
    · rename_i hpassed
      split
      · rename_i hclosed
        exact ⟨nofun,fun h => absurd h.2.2 (by omega)⟩
      · rename_i hroom
        exact ⟨fun _ => ⟨not_not.mp hopened,not_lt.mp hpassed,by omega⟩,fun _ => rfl⟩

/-- What is open was open before. -/
theorem opened_earlier (h : deriveIntentState x later = .opened) (hle : now ≤ later) :
    deriveIntentState x now = .opened := by
  unfold deriveIntentState at h ⊢
  split at h
  · rename_i hterminal
    exact absurd h hterminal
  · rename_i hopened
    rw [if_neg hopened]
    split at h
    · cases h
    · rename_i hpassed
      rw [if_neg fun hlt => hpassed (hlt.trans_le hle)]
      exact h

theorem opened_state (h : deriveIntentState x now = .opened) : x.state = .opened := by
  unfold deriveIntentState at h
  split at h
  · exact h
  · rename_i hopened
    exact not_not.mp hopened

theorem activeIntentCount_eq (intents : List JournalIntent) (now : ℤ) :
    activeIntentCount intents now =
      (latestIntents intents).countP fun x => deriveIntentState x now = .opened :=
  List.countP_eq_length_filter.symm

/-- The active conversations besides one. -/
def othersActive (intents : List JournalIntent) (id : Bytes) (now : ℤ) : ℕ :=
  ((latestIntents intents).filter fun slot => slot.id ≠ id).countP
    fun x => deriveIntentState x now = .opened

theorem active_split (intents : List JournalIntent) (id : Bytes) (now : ℤ) :
    activeIntentCount intents now = othersActive intents id now+
      if (openIntent intents now id).isSome then 1 else 0 := by
  rw [activeIntentCount_eq,countP_latestIntents intents id,othersActive,openIntent]
  cases latestIntent intents id with
  | none => rfl
  | some x =>
      rw [Option.any_some,Option.filter_some]
      by_cases hx : deriveIntentState x now = .opened
      · simp [hx]
      · simp [hx]

theorem active_concat (intents : List JournalIntent) (x : JournalIntent) (now : ℤ) :
    activeIntentCount (intents++[x]) now = othersActive intents x.id now+
      if deriveIntentState x now = .opened then 1 else 0 := by
  rw [activeIntentCount_eq,latestIntents_concat,countP_placeIntent (latestIntents_nodup intents),
    othersActive]
  simp

theorem others_concat (intents : List JournalIntent) (x : JournalIntent) (now : ℤ) :
    othersActive (intents++[x]) x.id now = othersActive intents x.id now := by
  have h := active_split (intents++[x]) x.id now
  rw [active_concat,openIntent,latestIntent_concat,if_pos rfl,Option.filter_some] at h
  by_cases hx : deriveIntentState x now = .opened
  · simp only [hx,decide_true,if_true,Option.isSome_some] at h
    omega
  · simp only [hx,decide_false,if_false,Bool.false_eq_true,Option.isSome_none] at h
    omega

theorem active_later (intents : List JournalIntent) (hle : now ≤ later) :
    activeIntentCount intents later ≤ activeIntentCount intents now := by
  rw [activeIntentCount_eq,activeIntentCount_eq]
  refine List.countP_mono_left fun x _ hx => ?_
  exact decide_eq_true (opened_earlier (of_decide_eq_true hx) hle)

/-- Between two lines of one conversation, one is open. -/
def Alternates (intents : List JournalIntent) : Prop :=
  ∀ id, ((intents.filter fun x => x.id = id).map JournalIntent.state).IsChain
    fun s s' => s = .opened ∨ s' = .opened

theorem latestIntent_eq_getLast (intents : List JournalIntent) (id : Bytes) :
    latestIntent intents id = (intents.filter fun x => x.id = id).getLast? := by
  induction intents using List.reverseRecOn with
  | nil => rfl
  | append_singleton intents entry ih =>
      rw [latestIntent_concat,List.filter_append]
      by_cases hid : entry.id = id
      · rw [if_pos hid,List.filter_cons_of_pos (by simpa using hid),List.filter_nil,
          List.getLast?_concat]
      · rw [if_neg hid,List.filter_cons_of_neg (by simpa using hid),List.filter_nil,
          List.append_nil,ih]

theorem Alternates.concat (h : Alternates intents)
    (hx : x.state = .opened ∨ ∀ last ∈ latestIntent intents x.id, last.state = .opened) :
    Alternates (intents++[x]) := by
  intro id
  rw [List.filter_append,List.map_append]
  by_cases hid : x.id = id
  · subst hid
    rw [List.filter_cons_of_pos (by simp),List.filter_nil,List.map_singleton]
    refine List.isChain_append.mpr ⟨h x.id,List.IsChain.singleton _,fun s hs s' hs' => ?_⟩
    obtain rfl : x.state = s' := Option.some.inj hs'
    refine hx.symm.imp_left fun hlast => ?_
    rw [List.getLast?_map,← latestIntent_eq_getLast] at hs
    obtain ⟨last,hl,rfl⟩ := Option.map_eq_some_iff.mp hs
    exact hlast last hl
  · rw [List.filter_cons_of_neg (by simpa using hid),List.filter_nil,List.map_nil,List.append_nil]
    exact h id

end Line

/-! ## Runs -/

inductive IntentAct where
  | record (action : OutboundAction) (result : OutboundExecutionResult) (time : Bytes)
  /-- A sweep, which may end behind some of its lines. -/
  | sweep (time : Bytes) (ending : Option ℕ)

structure IntentStep where
  wait : ℕ
  act : IntentAct

/-- The intents of the journal, with the clock of the last writer. -/
structure Tracker where
  intents : List JournalIntent
  clock : ℤ

namespace Tracker

def start (clock : ℤ) : Tracker := ⟨[],clock⟩

/-- The lines of an act. -/
def lines (config : IntentConfig) (intents : List JournalIntent) (now : ℤ) :
    IntentAct → List JournalIntent
  | .record action result time => (recordPendingIntent config intents action result now time).2.toList
  | .sweep time ending =>
      let written := (sweepIntents intents now time).lines
      written.take (ending.getD written.length)

def step (config : IntentConfig) (s : Tracker) (x : IntentStep) : Tracker :=
  ⟨s.intents++lines config s.intents (s.clock+x.wait) x.act,s.clock+x.wait⟩

end Tracker

/-- What every run keeps. -/
structure Within (config : IntentConfig) (intents : List JournalIntent) (now : ℤ) : Prop where
  active : activeIntentCount intents now ≤ config.maxActive
  sized : ∀ x ∈ intents, Sized config x
  alternates : Alternates intents

section Record
variable {config : IntentConfig} {intents : List JournalIntent} {action : OutboundAction}
  {result : OutboundExecutionResult} {now now' : ℤ} {time : Bytes} {x line : JournalIntent}

/-- The action can be tracked. -/
def Tracked (config : IntentConfig) (action : OutboundAction) (result : OutboundExecutionResult) :
    Prop :=
  config.enabled = true ∧ result.outcome = .executed ∧ threadRoot action result ≠ []

/-- What a recording appends. -/
inductive Recorded (config : IntentConfig) (intents : List JournalIntent)
    (action : OutboundAction) (result : OutboundExecutionResult) (now : ℤ) (time : Bytes) :
    Option JournalIntent → Prop
  | untracked (h : ¬Tracked config action result) :
      Recorded config intents action result now time none
  | duplicate (h : Tracked config action result) (x : JournalIntent)
      (hopen : openIntent intents now (threadRoot action result) = some x)
      (hknown : action.rkey ∈ x.actions) : Recorded config intents action result now time none
  | continued (h : Tracked config action result) (x : JournalIntent)
      (hopen : openIntent intents now (threadRoot action result) = some x)
      (hnew : action.rkey ∉ x.actions) :
      Recorded config intents action result now time (some (continuation action now time x))
  | capped (h : Tracked config action result)
      (hnone : openIntent intents now (threadRoot action result) = none)
      (hfull : config.maxActive ≤ activeIntentCount intents now) :
      Recorded config intents action result now time none
  | opened (h : Tracked config action result)
      (hnone : openIntent intents now (threadRoot action result) = none)
      (hroom : activeIntentCount intents now < config.maxActive) :
      Recorded config intents action result now time
        (some (opening config action now time (threadRoot action result)))

theorem record_recorded (config : IntentConfig) (intents : List JournalIntent)
    (action : OutboundAction) (result : OutboundExecutionResult) (now : ℤ) (time : Bytes) :
    Recorded config intents action result now time
      (recordPendingIntent config intents action result now time).2 := by
  unfold recordPendingIntent
  simp only
  split
  · rename_i hnot
    refine .untracked fun h => ?_
    rcases hnot with hnot | hnot | hnot
    · exact absurd (h.1.symm.trans hnot) (by decide)
    · exact hnot h.2.1
    · exact h.2.2 hnot
  · rename_i htracked
    simp only [not_or] at htracked
    have h : Tracked config action result :=
      ⟨Bool.eq_true_of_not_eq_false htracked.1,not_not.mp htracked.2.1,htracked.2.2⟩
    split
    · rename_i x hopen
      split
      · rename_i hknown
        exact .duplicate h x hopen (List.contains_iff_mem.mp hknown)
      · rename_i hnew
        exact .continued h x hopen fun hknown => hnew (List.contains_iff_mem.mpr hknown)
    · rename_i hnone
      split
      · rename_i hfull
        exact .capped h hnone hfull
      · rename_i hroom
        exact .opened h hnone (not_le.mp hroom)

theorem openIntent_some {id : Bytes} (h : openIntent intents now id = some x) :
    latestIntent intents id = some x ∧ deriveIntentState x now = .opened := by
  obtain ⟨hlatest,hopen⟩ := Option.filter_eq_some_iff.mp h
  exact ⟨hlatest,of_decide_eq_true hopen⟩

theorem Within.later (h : Within config intents now) (hle : now ≤ now') :
    Within config intents now' :=
  ⟨(active_later intents hle).trans h.active,h.sized,h.alternates⟩

theorem Within.continued (h : Within config intents now) {id : Bytes}
    (hopen : openIntent intents now id = some x) (hnew : action.rkey ∉ x.actions) :
    Within config (intents++[continuation action now time x]) now := by
  obtain ⟨hlatest,hstate⟩ := openIntent_some hopen
  have hsized := h.sized x (latestIntent_mem hlatest)
  obtain ⟨-,-,hroom⟩ := (opened_iff hsized).mp hstate
  refine ⟨?_,List.forall_mem_append.mpr ⟨h.sized,List.forall_mem_singleton.mpr ?_⟩,
    h.alternates.concat (.inl rfl)⟩
  · have hactive := h.active
    rw [active_split intents x.id now,latestIntent_id hlatest,hopen] at hactive
    rw [active_concat]
    change othersActive intents x.id now+_ ≤ _
    rw [latestIntent_id hlatest]
    have hone : (if deriveIntentState (continuation action now time x) now = .opened then 1
        else 0) ≤ 1 := by split <;> decide
    simp only [Option.isSome_some,if_true] at hactive
    omega
  · refine ⟨List.append_ne_nil_of_right_ne_nil _ (List.cons_ne_nil _ _),hsized.budget,?_,?_⟩
    · change (x.actions++[action.rkey]).length ≤ _
      rw [List.length_append]
      exact Nat.succ_le_succ hroom
    · refine List.nodup_append.mpr ⟨hsized.distinct,List.nodup_singleton _,?_⟩
      rintro a ha b hb rfl
      exact hnew (List.mem_singleton.mp hb ▸ ha)

theorem Within.opened (h : Within config intents now) (root : Bytes)
    (hroom : activeIntentCount intents now < config.maxActive) :
    Within config (intents++[opening config action now time root]) now := by
  refine ⟨?_,List.forall_mem_append.mpr ⟨h.sized,List.forall_mem_singleton.mpr ?_⟩,
    h.alternates.concat (.inl rfl)⟩
  · rw [active_split intents root now] at hroom
    rw [active_concat]
    change othersActive intents root now+_ ≤ _
    have hone : (if deriveIntentState (opening config action now time root) now = .opened then 1
        else 0) ≤ 1 := by split <;> decide
    omega
  · exact ⟨List.cons_ne_nil _ _,rfl,Nat.succ_le_succ (Nat.zero_le _),List.nodup_singleton _⟩

theorem Within.record (h : Within config intents now) (action : OutboundAction)
    (result : OutboundExecutionResult) (time : Bytes) :
    Within config (intents++(recordPendingIntent config intents action result now time).2.toList)
      now := by
  have hrec := record_recorded config intents action result now time
  generalize (recordPendingIntent config intents action result now time).2 = line at hrec
  cases hrec with
  | continued _ x hopen hnew => exact h.continued hopen hnew
  | opened _ _ hroom => exact h.opened _ hroom
  | _ =>
      rw [Option.toList_none,List.append_nil]
      exact h

end Record

/-! ## Sweeps -/

section Sweep
variable {config : IntentConfig} {intents lines : List JournalIntent} {now : ℤ} {time id : Bytes}
  {x line : JournalIntent}

theorem latestIntent_append_other (h : id ∉ lines.map JournalIntent.id) :
    latestIntent (intents++lines) id = latestIntent intents id := by
  induction lines using List.reverseRecOn with
  | nil => rw [List.append_nil]
  | append_singleton lines line ih =>
      rw [List.map_append,List.mem_append,not_or] at h
      rw [← List.append_assoc,latestIntent_concat,
        if_neg fun hid => h.2 (List.mem_singleton.mpr hid.symm),ih h.1]

theorem latestIntent_append_line (hnodup : (lines.map JournalIntent.id).Nodup)
    (h : line ∈ lines) : latestIntent (intents++lines) line.id = some line := by
  induction lines using List.reverseRecOn with
  | nil => cases h
  | append_singleton lines last ih =>
      rw [List.map_append,List.nodup_append] at hnodup
      obtain ⟨hfront,-,hdisjoint⟩ := hnodup
      rw [← List.append_assoc,latestIntent_concat]
      rcases List.mem_append.mp h with h | h
      · have hne := hdisjoint line.id (List.mem_map_of_mem h) last.id (List.mem_singleton_self _)
        rw [if_neg (Ne.symm hne)]
        exact ih hfront h
      · rw [List.mem_singleton.mp h,if_pos rfl]

theorem mem_intentIds : id ∈ intentIds intents ↔ id ∈ intents.map JournalIntent.id := by
  induction intents using List.reverseRecOn with
  | nil => exact Iff.rfl
  | append_singleton intents entry ih =>
      unfold intentIds at ih ⊢
      rw [List.foldl_append,List.foldl_cons,List.foldl_nil,List.map_append,List.mem_append,← ih]
      split
      · rename_i hknown
        refine ⟨.inl,fun h => h.elim (fun h => h) fun h => ?_⟩
        rw [List.mem_singleton.mp h]
        exact List.contains_iff_mem.mp hknown
      · exact List.mem_append

theorem intentIds_nodup (intents : List JournalIntent) : (intentIds intents).Nodup := by
  induction intents using List.reverseRecOn with
  | nil => exact .nil
  | append_singleton intents entry ih =>
      unfold intentIds at ih ⊢
      rw [List.foldl_append,List.foldl_cons,List.foldl_nil]
      split
      · exact ih
      · rename_i hnew
        refine List.nodup_append.mpr ⟨ih,List.nodup_singleton _,fun a ha b hb hab => hnew ?_⟩
        rw [← List.mem_singleton.mp hb,← hab]
        exact List.contains_iff_mem.mpr ha

/-- A line that ends a conversation. -/
def Ends (intents : List JournalIntent) (now : ℤ) (time : Bytes) (line : JournalIntent) : Prop :=
  ∃ x, latestIntent intents line.id = some x ∧ Ended now x ∧ line = terminalLine now time x

theorem swept_some (h : swept intents now time id = some line) :
    line.id = id ∧ Ends intents now time line := by
  obtain ⟨x,hx,rfl⟩ := Option.map_eq_some_iff.mp h
  obtain ⟨hlatest,hended⟩ := Option.filter_eq_some_iff.mp hx
  have hid : x.id = id := latestIntent_id hlatest
  refine ⟨hid,x,?_,of_decide_eq_true hended,rfl⟩
  change latestIntent intents x.id = some x
  rw [hid]
  exact hlatest

theorem sweep_lines (intents : List JournalIntent) (now : ℤ) (time : Bytes) :
    ((sweepIntents intents now time).lines.map JournalIntent.id).Nodup ∧
      ∀ line ∈ (sweepIntents intents now time).lines, Ends intents now time line := by
  rw [sweepIntents_lines]
  refine ⟨?_,fun line hline => ?_⟩
  · rw [List.map_filterMap]
    refine (intentIds_nodup intents).filterMap fun a a' b hb hb' => ?_
    obtain ⟨line,hline,rfl⟩ := Option.map_eq_some_iff.mp hb
    obtain ⟨line',hline',hid⟩ := Option.map_eq_some_iff.mp hb'
    rw [← (swept_some hline).1,← (swept_some hline').1,hid]
  · obtain ⟨id,-,hswept⟩ := List.mem_filterMap.mp hline
    exact (swept_some hswept).2

/-- A conversation that ended gets its line. -/
theorem sweep_mem (hlatest : latestIntent intents id = some x) (hended : Ended now x) :
    terminalLine now time x ∈ (sweepIntents intents now time).lines := by
  rw [sweepIntents_lines]
  refine List.mem_filterMap.mpr ⟨id,mem_intentIds.mpr ?_,?_⟩
  · rw [← latestIntent_id hlatest]
    exact List.mem_map_of_mem (latestIntent_mem hlatest)
  · rw [swept,hlatest,Option.filter_some_pos (by simpa using hended)]
    rfl

/-- The lines of a sweep, or the first of them, keep the bounds. -/
theorem Within.ends (h : Within config intents now) (hnodup : (lines.map JournalIntent.id).Nodup)
    (hends : ∀ line ∈ lines, Ends intents now time line) : Within config (intents++lines) now := by
  induction lines using List.reverseRecOn with
  | nil =>
      rw [List.append_nil]
      exact h
  | append_singleton lines line ih =>
      rw [List.map_append,List.nodup_append] at hnodup
      obtain ⟨hfront,-,hdisjoint⟩ := hnodup
      obtain ⟨hendsfront,hendsline⟩ := List.forall_mem_append.mp hends
      have hwithin := ih hfront hendsfront
      obtain ⟨x,hlatest,⟨hopened,hended⟩,hline⟩ := hendsline line (List.mem_singleton_self _)
      have hout : line.id ∉ lines.map JournalIntent.id := fun hmem =>
        hdisjoint line.id hmem line.id (List.mem_singleton_self _) rfl
      have hsame : latestIntent (intents++lines) line.id = some x := by
        rw [latestIntent_append_other hout,hlatest]
      have hterminal : deriveIntentState line now ≠ .opened := by
        intro hderive
        have hstate := opened_state hderive
        rw [hline] at hstate
        exact hended hstate
      rw [← List.append_assoc]
      refine ⟨?_,List.forall_mem_append.mpr ⟨hwithin.sized,List.forall_mem_singleton.mpr ?_⟩,
        hwithin.alternates.concat (.inr fun last hlast => ?_)⟩
      · have hactive := hwithin.active
        rw [active_split _ line.id] at hactive
        rw [active_concat,if_neg hterminal]
        omega
      · have hsized := h.sized x (latestIntent_mem hlatest)
        rw [hline]
        exact ⟨hsized.some,hsized.budget,hsized.length,hsized.distinct⟩
      · rw [hsame] at hlast
        obtain rfl := Option.some.inj hlast
        exact hopened

theorem Within.sweep (h : Within config intents now) (time : Bytes) (n : ℕ) :
    Within config (intents++(sweepIntents intents now time).lines.take n) now := by
  obtain ⟨hnodup,hends⟩ := sweep_lines intents now time
  exact h.ends (hnodup.sublist ((List.take_sublist _ _).map _))
    fun line hline => hends line (List.mem_of_mem_take hline)

end Sweep

theorem within_start (config : IntentConfig) (clock : ℤ) :
    Within config (Tracker.start clock).intents clock :=
  ⟨Nat.zero_le _,List.forall_mem_nil _,fun _ => .nil⟩

theorem Within.step {config : IntentConfig} {s : Tracker} (h : Within config s.intents s.clock)
    (x : IntentStep) : Within config (s.step config x).intents (s.step config x).clock := by
  have hlater : Within config s.intents (s.clock+x.wait) :=
    h.later (Int.le_add_of_nonneg_right (Int.natCast_nonneg _))
  obtain ⟨wait,act⟩ := x
  cases act with
  | record action result time => exact hlater.record action result time
  | sweep time ending => exact hlater.sweep time _

/-! ## What an act leaves of a conversation -/

/-- The actions of an open conversation only grow. -/
def GrowsOpen (before after : List JournalIntent) (now : ℤ) : Prop :=
  ∀ id, ∀ x ∈ latestIntent before id, deriveIntentState x now = .opened →
    ∃ y ∈ latestIntent after id, x.actions <+: y.actions

/-- A sweep ends what has ended and leaves alone what has not. -/
structure CleanSweep (before after : List JournalIntent) (now : ℤ) : Prop where
  ended : ∀ id, ∀ x ∈ latestIntent before id, deriveIntentState x now ≠ .opened →
    ∃ y ∈ latestIntent after id, y.state ≠ .opened
  active : ∀ id, ∀ x ∈ latestIntent before id, deriveIntentState x now = .opened →
    (after.filter fun y => y.id = id) = before.filter fun y => y.id = id

section Act
variable {config : IntentConfig} {intents : List JournalIntent} {now : ℤ}

theorem grows_self (intents : List JournalIntent) (now : ℤ) : GrowsOpen intents intents now :=
  fun _ x hx _ => ⟨x,hx,List.prefix_refl _⟩

theorem record_grows (config : IntentConfig) (intents : List JournalIntent)
    (action : OutboundAction) (result : OutboundExecutionResult) (now : ℤ) (time : Bytes) :
    GrowsOpen intents
      (intents++(recordPendingIntent config intents action result now time).2.toList) now := by
  have hrec := record_recorded config intents action result now time
  generalize (recordPendingIntent config intents action result now time).2 = line at hrec
  cases hrec with
  | continued _ x hopen _ =>
      intro id y hy _
      obtain ⟨hlatest,-⟩ := openIntent_some hopen
      rw [Option.toList_some,latestIntent_concat]
      split
      · rename_i hid
        have hid : x.id = id := hid
        rw [← hid,latestIntent_id hlatest,hlatest] at hy
        obtain rfl := Option.some.inj hy
        exact ⟨_,rfl,List.prefix_append _ _⟩
      · exact ⟨y,hy,List.prefix_refl _⟩
  | opened _ hnone _ =>
      intro id y hy hderive
      rw [Option.toList_some,latestIntent_concat]
      split
      · rename_i hid
        have hopen : openIntent intents now (threadRoot action result) = some y := by
          rw [openIntent,show threadRoot action result = id from hid,hy,
            Option.filter_some_pos (by simpa using hderive)]
        rw [hnone] at hopen
        cases hopen
      · exact ⟨y,hy,List.prefix_refl _⟩
  | _ =>
      rw [Option.toList_none,List.append_nil]
      exact grows_self intents now

/-- A sweep writes nothing about a conversation that is open. -/
theorem sweep_silent {time id : Bytes} {x : JournalIntent} (hx : latestIntent intents id = some x)
    (hopen : deriveIntentState x now = .opened) :
    ∀ line ∈ (sweepIntents intents now time).lines, line.id ≠ id := by
  rintro line hline rfl
  obtain ⟨y,hy,hended,-⟩ := (sweep_lines intents now time).2 line hline
  obtain rfl := Option.some.inj (hx.symm.trans hy)
  exact hended.2 hopen

theorem sweep_grows (intents : List JournalIntent) (now : ℤ) (time : Bytes) (n : ℕ) :
    GrowsOpen intents (intents++(sweepIntents intents now time).lines.take n) now := by
  intro id x hx hopen
  refine ⟨x,?_,List.prefix_refl _⟩
  rw [latestIntent_append_other]
  · exact hx
  · intro hmem
    obtain ⟨line,hline,hid⟩ := List.mem_map.mp hmem
    exact sweep_silent hx hopen line (List.mem_of_mem_take hline) hid

theorem step_grows (config : IntentConfig) (s : Tracker) (x : IntentStep) :
    GrowsOpen s.intents (s.step config x).intents (s.step config x).clock := by
  obtain ⟨wait,act⟩ := x
  cases act with
  | record action result time => exact record_grows config s.intents action result _ time
  | sweep time ending => exact sweep_grows s.intents _ time _

theorem sweep_clean (intents : List JournalIntent) (now : ℤ) (time : Bytes) :
    CleanSweep intents (intents++(sweepIntents intents now time).lines) now := by
  obtain ⟨hnodup,hends⟩ := sweep_lines intents now time
  refine ⟨fun id x hx hended => ?_,fun id x hx hopen => ?_⟩
  · by_cases hopened : x.state = .opened
    · have hmem : terminalLine now time x ∈ (sweepIntents intents now time).lines :=
        sweep_mem hx ⟨hopened,hended⟩
      refine ⟨terminalLine now time x,?_,hended⟩
      rw [← latestIntent_id hx]
      exact latestIntent_append_line hnodup hmem
    · refine ⟨x,?_,hopened⟩
      rw [latestIntent_append_other]
      · exact hx
      · intro hmem
        obtain ⟨line,hline,hid⟩ := List.mem_map.mp hmem
        obtain ⟨y,hy,hyended,-⟩ := hends line hline
        rw [hid] at hy
        obtain rfl := Option.some.inj (Option.mem_def.mp hx ▸ hy)
        exact hopened hyended.1
  · have hnone : ((sweepIntents intents now time).lines.filter fun y => y.id = id) = [] :=
      List.filter_eq_nil_iff.mpr fun line hline hid =>
        sweep_silent hx hopen line hline (of_decide_eq_true hid)
    rw [List.filter_append,hnone,List.append_nil]

theorem sweep_again (intents : List JournalIntent) (now : ℤ) (time time' : Bytes) :
    (sweepIntents (intents++(sweepIntents intents now time).lines) now time').lines = [] := by
  obtain ⟨hnodup,hends⟩ := sweep_lines intents now time
  rw [sweepIntents_lines,List.filterMap_eq_nil_iff]
  intro id _
  refine Option.map_eq_none_iff.mpr (Option.filter_eq_none_iff.mpr fun y hy hended => ?_)
  obtain ⟨hopened,hterminal⟩ := of_decide_eq_true hended
  by_cases hid : id ∈ (sweepIntents intents now time).lines.map JournalIntent.id
  · obtain ⟨line,hline,rfl⟩ := List.mem_map.mp hid
    rw [latestIntent_append_line hnodup hline] at hy
    obtain rfl := Option.some.inj hy
    obtain ⟨x,-,hx,he⟩ := hends line hline
    rw [he] at hopened
    exact hx.2 hopened
  · have hold := hy
    rw [latestIntent_append_other hid] at hold
    have hmem := @sweep_mem intents now time id y hold ⟨hopened,hterminal⟩
    have hline : (terminalLine now time y).id = id := (latestIntent_id hold :)
    exact hid (List.mem_map.mpr ⟨terminalLine now time y,hmem,hline⟩)

end Act

/-! ## Recording twice -/

section Twice
variable (config : IntentConfig) (intents : List JournalIntent) (action : OutboundAction)
  (result : OutboundExecutionResult) (first second : ℤ) (time time' : Bytes)

/-- What recording an action twice in a row writes. -/
def recordTwice : List JournalIntent :=
  let written := (recordPendingIntent config intents action result first time).2.toList
  written++(recordPendingIntent config (intents++written) action result second time').2.toList

/-- The first recording is refused or leaves the conversation open to the second, or the cap
is reached without it. -/
def Lasting : Prop := Tracked config action result →
  config.maxActive ≤ othersActive intents (threadRoot action result) second ∨
  match openIntent intents first (threadRoot action result) with
  | some x => action.rkey ∈ x.actions ∨
      (second ≤ x.expiresAtEpoch.toInt64.toInt ∧ x.actions.length < x.maxContinuations.toNat)
  | none => config.maxActive ≤ activeIntentCount intents first ∨
      (second ≤ (epochOf (first+config.windowSeconds)).toInt64.toInt ∧
        0 < config.maxContinuations.toNat)

variable {config intents action result first second time time'}

/-- The second recording behind a line that the first wrote. -/
theorem record_again {line : JournalIntent} (h : Tracked config action result)
    (hid : line.id = threadRoot action result) (hknown : action.rkey ∈ line.actions) :
    (recordPendingIntent config (intents++[line]) action result second time').2 = none ↔
      deriveIntentState line second = .opened ∨
        config.maxActive ≤ othersActive intents (threadRoot action result) second := by
  have hrec := record_recorded config (intents++[line]) action result second time'
  have hopen : openIntent (intents++[line]) second (threadRoot action result) =
      if deriveIntentState line second = .opened then some line else none := by
    rw [openIntent,latestIntent_concat,if_pos hid,Option.filter_some]
    exact if_congr (by simp) rfl rfl
  have hcount := active_concat intents line second
  rw [hid] at hcount
  generalize (recordPendingIntent config (intents++[line]) action result second time').2 = written
    at hrec ⊢
  by_cases hstill : deriveIntentState line second = .opened
  · rw [if_pos hstill] at hopen
    refine ⟨fun _ => .inl hstill,fun _ => ?_⟩
    cases hrec with
    | untracked => rfl
    | duplicate => rfl
    | capped => rfl
    | continued _ x hx hnew =>
        obtain rfl := Option.some.inj (hopen.symm.trans hx)
        exact absurd hknown hnew
    | opened _ hnone =>
        rw [hopen] at hnone
        cases hnone
  · rw [if_neg hstill] at hopen hcount
    rw [Nat.add_zero] at hcount
    cases hrec with
    | untracked hnot => exact absurd h hnot
    | duplicate _ x hx =>
        rw [hopen] at hx
        cases hx
    | continued _ x hx =>
        rw [hopen] at hx
        cases hx
    | capped _ _ hfull => exact ⟨fun _ => .inr (hcount ▸ hfull),fun _ => rfl⟩
    | opened _ _ hroom =>
        refine ⟨nofun,fun hor => ?_⟩
        rcases hor with hor | hor
        · exact absurd hor hstill
        · rw [hcount] at hroom
          exact absurd hor (not_le.mpr hroom)

/-- The line count of a second recording behind a line. -/
theorem recordTwice_line {line : JournalIntent} (h : Tracked config action result)
    (hfirst : (recordPendingIntent config intents action result first time).2 = some line)
    (hid : line.id = threadRoot action result) (hknown : action.rkey ∈ line.actions) :
    (recordTwice config intents action result first second time time').length ≤ 1 ↔
      deriveIntentState line second = .opened ∨
        config.maxActive ≤ othersActive intents (threadRoot action result) second := by
  rw [← @record_again config intents action result second time' line h hid hknown,recordTwice]
  simp only [hfirst,Option.toList_some]
  cases hagain : (recordPendingIntent config (intents++[line]) action result second time').2 with
  | none => simp
  | some line' => simp

theorem toList_length {α : Type*} (o : Option α) : o.toList.length ≤ 1 := by
  cases o with
  | none => exact Nat.zero_le _
  | some a => exact le_rfl

theorem recordTwice_iff (hsized : ∀ x ∈ intents, Sized config x) :
    (recordTwice config intents action result first second time time').length ≤ 1 ↔
      Lasting config intents action result first second := by
  have hrec := record_recorded config intents action result first time
  cases hfirst : (recordPendingIntent config intents action result first time).2 with
  | none =>
      have hone : (recordTwice config intents action result first second time time').length ≤ 1 := by
        rw [recordTwice]
        simp only [hfirst,Option.toList_none,List.nil_append]
        exact toList_length _
      refine ⟨fun _ h => .inr ?_,fun _ => hone⟩
      rw [hfirst] at hrec
      cases hrec with
      | untracked hnot => exact absurd h hnot
      | duplicate _ x hopen hknown =>
          rw [hopen]
          exact .inl hknown
      | capped _ hnone hfull =>
          rw [hnone]
          exact .inl hfull
  | some line =>
      rw [hfirst] at hrec
      cases hrec with
      | continued h x hopen hnew =>
          obtain ⟨hlatest,hstate⟩ := openIntent_some hopen
          have hx := hsized x (latestIntent_mem hlatest)
          obtain ⟨-,-,hroom⟩ := (opened_iff hx).mp hstate
          have hline : Sized config (continuation action first time x) := by
            refine ⟨List.append_ne_nil_of_right_ne_nil _ (List.cons_ne_nil _ _),hx.budget,?_,?_⟩
            · change (x.actions++[action.rkey]).length ≤ _
              rw [List.length_append]
              exact Nat.succ_le_succ hroom
            · refine List.nodup_append.mpr ⟨hx.distinct,List.nodup_singleton _,?_⟩
              rintro a ha b hb rfl
              exact hnew (List.mem_singleton.mp hb ▸ ha)
          have hlength : (continuation action first time x).actions.length = x.actions.length+1 :=
            List.length_append
          have hid : (continuation action first time x).id = threadRoot action result :=
            (latestIntent_id hlatest :)
          rw [recordTwice_line h hfirst hid
            (List.mem_append_right _ (List.mem_singleton_self _)),opened_iff hline,hlength]
          unfold Lasting
          rw [hopen]
          constructor
          · rintro (⟨-,hwindow,hbudget⟩ | hcap) -
            · exact .inr (.inr ⟨hwindow,hbudget⟩)
            · exact .inl hcap
          · intro hlasting
            rcases hlasting h with hcap | hknown | ⟨hwindow,hbudget⟩
            · exact .inr hcap
            · exact absurd hknown hnew
            · exact .inl ⟨rfl,hwindow,hbudget⟩
      | opened h hnone hroom =>
          have hline : Sized config
              (opening config action first time (threadRoot action result)) :=
            ⟨List.cons_ne_nil _ _,rfl,Nat.succ_le_succ (Nat.zero_le _),List.nodup_singleton _⟩
          rw [recordTwice_line h hfirst rfl (List.mem_singleton_self _),opened_iff hline]
          unfold Lasting
          rw [hnone]
          constructor
          · rintro (⟨-,hwindow,hbudget⟩ | hcap) -
            · exact .inr (.inr ⟨hwindow,hbudget⟩)
            · exact .inl hcap
          · intro hlasting
            rcases hlasting h with hcap | hfull | ⟨hwindow,hbudget⟩
            · exact .inr hcap
            · exact absurd hroom (not_lt.mpr hfull)
            · exact .inl ⟨rfl,hwindow,hbudget⟩

end Twice

/-- In every state of every run: the cap and the budgets hold, and no conversation ends twice
in a row; the actions of an open conversation only grow; a sweep is clean and leaves nothing to
a second; and recording an action twice writes one line at most exactly where the first
recording lasts. -/
theorem intents_stay_within (config : IntentConfig) (clock : ℤ) (steps : List IntentStep) :
    Within config (runFrom (Tracker.step config) (.start clock) steps).intents
      (runFrom (Tracker.step config) (.start clock) steps).clock ∧
    (∀ x, GrowsOpen (runFrom (Tracker.step config) (.start clock) steps).intents
      ((runFrom (Tracker.step config) (.start clock) steps).step config x).intents
      ((runFrom (Tracker.step config) (.start clock) steps).step config x).clock) ∧
    (∀ (wait : ℕ) (time : Bytes),
      CleanSweep (runFrom (Tracker.step config) (.start clock) steps).intents
        ((runFrom (Tracker.step config) (.start clock) steps).step config
          ⟨wait,.sweep time none⟩).intents
        ((runFrom (Tracker.step config) (.start clock) steps).clock+wait) ∧
      ∀ time' : Bytes, (sweepIntents ((runFrom (Tracker.step config) (.start clock) steps).step
          config ⟨wait,.sweep time none⟩).intents
        ((runFrom (Tracker.step config) (.start clock) steps).clock+wait) time').lines = []) ∧
    ∀ (action : OutboundAction) (result : OutboundExecutionResult) (first second : ℤ)
      (time time' : Bytes), (runFrom (Tracker.step config) (.start clock) steps).clock ≤ first →
      first ≤ second →
      ((recordTwice config (runFrom (Tracker.step config) (.start clock) steps).intents action
          result first second time time').length ≤ 1 ↔
        Lasting config (runFrom (Tracker.step config) (.start clock) steps).intents action result
          first second) := by
  have hwithin : Within config (runFrom (Tracker.step config) (.start clock) steps).intents
      (runFrom (Tracker.step config) (.start clock) steps).clock := by
    have hrun : ∀ s : Tracker, Within config s.intents s.clock →
        Within config (runFrom (Tracker.step config) s steps).intents
          (runFrom (Tracker.step config) s steps).clock := by
      induction steps with
      | nil => exact fun s hs => hs
      | cons x rest ih => exact fun s hs => ih _ (hs.step x)
    exact hrun (.start clock) (within_start config clock)
  generalize runFrom (Tracker.step config) (.start clock) steps = s at hwithin
  refine ⟨hwithin,fun x => step_grows config s x,fun wait time => ?_,?_⟩
  · have hall : (s.step config ⟨wait,.sweep time none⟩).intents =
        s.intents++(sweepIntents s.intents (s.clock+wait) time).lines := by
      simp only [Tracker.step,Tracker.lines,Option.getD_none,List.take_length]
    rw [hall]
    exact ⟨sweep_clean _ _ _,fun time' => sweep_again _ _ _ _⟩
  · intro action result first second time time' _ _
    exact recordTwice_iff hwithin.sized

namespace Sample

def oneReply : IntentConfig := ⟨true,3,1,100⟩

def done (uri : Bytes) : OutboundExecutionResult where
  outcome := .executed
  written := {uri := uri}

def post : OutboundAction := {kind := .post,rkey := [1]}

def reply : OutboundAction := {kind := .reply,rkey := [2],replyRoot := utf8 "at://root"}

/-- The only reply of a budget is recorded twice: the first ends the conversation, and the
second opens it anew. -/
theorem last_reply_reopens :
    ((recordTwice oneReply
      (runFrom (Tracker.step oneReply) (.start 1000)
        [⟨0,.record post (done (utf8 "at://root")) []⟩]).intents
      reply (done []) 1000 1000 [] []).map fun x => (x.actions,x.state)) =
      [([[1],[2]],.opened),([[2]],.opened)] := by
  decide +kernel

end Sample
end Atperson.Intent
