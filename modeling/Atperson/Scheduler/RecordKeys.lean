import Atperson.Scheduler.Proposals

/-!
# The keys of proposed records

A key holds the second of the cycle and six bits of the digest. So keys sort by the time of the
cycle; within one second, two digests have different keys just if these bits differ.
-/
namespace Atperson.Scheduler
open Wire Outbound

/-! ## Keys as numbers -/

theorem tidSign_lt : ∀ i j, i < j → j < 32 → tidSign i < tidSign j := by
  have hall : ∀ j < 32, ∀ i < j, tidSign i < tidSign j := by decide +kernel
  exact fun i j hij hj => hall j hj i hij

theorem tidSign_inj : ∀ i < 32, ∀ j < 32, tidSign i = tidSign j → i = j := by
  decide +kernel

example : tidSign 0 = 50 ∧ tidSign 31 = 122 := by decide +kernel

theorem tidSigns_eq (n : ℕ) (value : UInt64) :
    tidSigns n value = sortableDigits tidSign 32 n value.toNat := by
  induction n generalizing value with
  | zero => rfl
  | succ n ih =>
      have hhigh : (value >>> 5).toNat = value.toNat/32 := by
        rw [UInt64.toNat_shiftRight,Nat.shiftRight_eq_div_pow]
        rfl
      have hlow : (value &&& 0x1f).toNat = value.toNat%32 := by
        rw [UInt64.toNat_and]
        exact Nat.and_two_pow_sub_one_eq_mod value.toNat 5
      rw [tidSigns,sortableDigits,ih,hhigh,hlow]

theorem value_lt (value : UInt64) : value.toNat < 32^13 :=
  value.toNat_lt.trans (by decide)

/-! ## The bits of the digest -/

theorem folded (bits : UInt64) (c : UInt8) :
    (bits <<< 4 ||| (c &&& 0x0f).toUInt64).toNat = bits.toNat*16%2^64+c.toNat%16 := by
  have hlow : (c &&& 0x0f).toUInt64.toNat = c.toNat%16 := by
    rw [UInt8.toNat_toUInt64,UInt8.toNat_and]
    exact Nat.and_two_pow_sub_one_eq_mod c.toNat 4
  have hhigh : (bits <<< 4).toNat = 2^4*(bits.toNat%2^60) := by
    rw [UInt64.toNat_shiftLeft]
    show bits.toNat <<< 4%2^64 = _
    rw [Nat.shiftLeft_eq]
    omega
  rw [UInt64.toNat_or,hlow,hhigh,
    ← Nat.two_pow_add_eq_or_of_lt (show c.toNat%16 < 2^4 from Nat.mod_lt _ (by decide))]
  omega

/-- Digests that agree in the six bits that a key keeps. -/
def Alike (digest digest' : Bytes) : Prop :=
  (digest.getD 15 0).toNat%16 = (digest'.getD 15 0).toNat%16 ∧
    (digest.getD 14 0).toNat%4 = (digest'.getD 14 0).toNat%4

instance (digest digest' : Bytes) : Decidable (Alike digest digest') :=
  inferInstanceAs (Decidable (_ ∧ _))

theorem clockid_mod (digest : Bytes) :
    (digestBits digest &&& 0x3f).toNat = (digestBits digest).toNat%64 := by
  rw [UInt64.toNat_and]
  exact Nat.and_two_pow_sub_one_eq_mod _ 6

/-- The six bits, by the last two characters of sixteen. -/
theorem clockid_eq {digest : Bytes} (h : digest.length = 16) : (digestBits digest &&& 0x3f).toNat =
    (digest.getD 14 0).toNat%4*16+(digest.getD 15 0).toNat%16 := by
  have hrest : (digest.drop 14).length = 2 := by rw [List.length_drop,h]
  obtain ⟨x,y,hxy⟩ := List.length_eq_two.mp hrest
  have hsplit : digest = digest.take 14++[x,y] := by rw [← hxy,List.take_append_drop]
  have hlength : (digest.take 14).length = 14 := by
    rw [List.length_take,h]
    rfl
  have hx : digest.getD 14 0 = x := by
    rw [List.getD_eq_getElem?_getD,hsplit,List.getElem?_append_right (by omega),hlength]
    rfl
  have hy : digest.getD 15 0 = y := by
    rw [List.getD_eq_getElem?_getD,hsplit,List.getElem?_append_right (by omega),hlength]
    rfl
  have hbits : digestBits digest = (digestBits (digest.take 14) <<< 4 |||
      (x &&& 0x0f).toUInt64) <<< 4 ||| (y &&& 0x0f).toUInt64 := by
    conv_lhs => rw [hsplit]
    exact List.foldl_append
  rw [hx,hy,clockid_mod,hbits,folded,folded]
  omega

theorem clockid_alike {digest digest' : Bytes} (h : digest.length = 16) (h' : digest'.length = 16) :
    (digestBits digest &&& 0x3f).toNat = (digestBits digest' &&& 0x3f).toNat ↔
      Alike digest digest' := by
  rw [clockid_eq h,clockid_eq h',Alike]
  omega

section Key
variable {now now' : ℤ} {digest digest' : Bytes}

/-- A clock that a key can hold. -/
def Clock (now : ℤ) : Prop := 0 ≤ now ∧ now*1000000 < 2^54

theorem clockid_lt (digest : Bytes) : (digestBits digest &&& 0x3f).toNat < 64 := by
  rw [clockid_mod]
  exact Nat.mod_lt _ (by decide)

theorem tidValue_eq (h : Clock now) : (tidValue now digest).toNat =
    now.toNat*1000000*64+(digestBits digest &&& 0x3f).toNat := by
  obtain ⟨hzero,hless⟩ := h
  have hnow : (UInt64.ofInt now).toNat = now.toNat := by
    rw [UInt64.ofInt,UInt64.toNat_ofNat']
    omega
  have hproduct : (UInt64.ofInt now*1000000).toNat = now.toNat*1000000 := by
    rw [UInt64.toNat_mul,hnow]
    show now.toNat*1000000%2^64 = _
    exact Nat.mod_eq_of_lt (by omega)
  have hmasked : ((UInt64.ofInt now*1000000) &&& 0x3fffffffffffff).toNat = now.toNat*1000000 := by
    rw [UInt64.toNat_and,hproduct]
    exact (Nat.and_two_pow_sub_one_eq_mod _ 54).trans (Nat.mod_eq_of_lt (by omega))
  have hshifted : (((UInt64.ofInt now*1000000) &&& 0x3fffffffffffff) <<< 6).toNat =
      2^6*(now.toNat*1000000) := by
    rw [UInt64.toNat_shiftLeft,hmasked]
    show (now.toNat*1000000) <<< 6%2^64 = _
    rw [Nat.shiftLeft_eq]
    omega
  show ((((UInt64.ofInt now*1000000) &&& 0x3fffffffffffff) <<< 6) |||
    (digestBits digest &&& 0x3f)).toNat = _
  rw [UInt64.toNat_or,hshifted,← Nat.two_pow_add_eq_or_of_lt (clockid_lt digest)]
  omega

theorem proposalTid_lt (h : Clock now) (h' : Clock now') (hless : now < now') :
    proposalTid now digest < proposalTid now' digest' := by
  have hzero := h.1
  have hsmall := clockid_lt digest
  rw [proposalTid,proposalTid,tidSigns_eq,tidSigns_eq]
  refine sortableDigits_lt (by decide) tidSign_lt ?_ (value_lt _)
  rw [tidValue_eq h,tidValue_eq h']
  omega

theorem proposalTid_inj (h : Clock now) (h' : Clock now') (hd : digest.length = 16)
    (hd' : digest'.length = 16) :
    proposalTid now digest = proposalTid now' digest' ↔ now = now' ∧ Alike digest digest' := by
  have hzero := h.1
  have hzero' := h'.1
  have hsmall := clockid_lt digest
  have hsmall' := clockid_lt digest'
  rw [proposalTid,proposalTid,tidSigns_eq,tidSigns_eq,
    sortableDigits_inj (by decide) tidSign_inj (value_lt _) (value_lt _),tidValue_eq h,
    tidValue_eq h',← clockid_alike hd hd']
  omega

end Key

/-! ## Proposals of a run -/

/-- One cycle's pass, from what it reads. -/
structure ProposalCycle where
  settings : ProposalSettings
  view : ProposalView
  pending : ℕ
  recentTexts : List RecentText
  contexts : List ContextCandidate

def ProposalCycle.written (c : ProposalCycle) : List OutboundAction :=
  (proposeFrom c.settings c.view ⟨[],c.pending,c.recentTexts,{}⟩ c.contexts).1.written

/-- All proposals that the cycles write, with the clock of their cycle. -/
def writtenIn (cycles : List ProposalCycle) : List (ℤ×OutboundAction) :=
  cycles.flatMap fun c => c.written.map (c.view.now,·)

/-- A proposal's key is made of the clock and its digest, which is sixteen hex digits. -/
structure Keyed (now : ℤ) (action : OutboundAction) : Prop where
  key : action.rkey = proposalTid now action.digest
  digest : ∃ n, action.digest = hex16 n

section Pass
variable {settings : ProposalSettings} {view : ProposalView} {s : Proposing}
  {candidate : ContextCandidate}

/-- A step writes nothing, or one proposal that is keyed. -/
def Extends (view : ProposalView) (s s' : Proposing) : Prop :=
  s'.written = s.written ∨ ∃ action, s'.written = s.written++[action] ∧ Keyed view.now action

theorem proposeLike_extends (decision : Core.ActionDecision) :
    Extends view s (proposeLike settings view candidate decision s) := by
  unfold proposeLike
  split
  · exact .inl rfl
  · split
    · exact .inl rfl
    · split
      · exact .inl rfl
      · dsimp only
        split
        · exact .inl rfl
        · exact .inr ⟨_,rfl,rfl,_,rfl⟩

theorem proposePlan_extends (plan : Core.ActionPlan) :
    Extends view s (proposePlan settings view candidate plan s) := by
  unfold proposePlan
  dsimp only
  split
  · exact .inl rfl
  · split
    · exact .inl rfl
    · split
      · exact .inl rfl
      · right
        split
        · exact ⟨_,rfl,rfl,_,rfl⟩
        · exact ⟨_,rfl,rfl,_,rfl⟩

theorem Extends.keyed {s' : Proposing} (h : Extends view s s')
    (hs : ∀ action ∈ s.written, Keyed view.now action) :
    ∀ action ∈ s'.written, Keyed view.now action := by
  intro action hmem
  rcases h with h | ⟨added,h,hkeyed⟩
  · exact hs action (h ▸ hmem)
  · rw [h] at hmem
    rcases List.mem_append.mp hmem with hmem | hmem
    · exact hs action hmem
    · rwa [List.mem_singleton.mp hmem]

/-- All that a pass has written is keyed. -/
theorem proposeFrom_keyed (contexts : List ContextCandidate)
    (hs : ∀ action ∈ s.written, Keyed view.now action) :
    ∀ action ∈ (proposeFrom settings view s contexts).1.written, Keyed view.now action := by
  induction contexts generalizing s with
  | nil => exact hs
  | cons candidate rest ih =>
      unfold proposeFrom proposeOne
      by_cases hmax : settings.maxProposals ≤ s.written.length
      · rw [if_pos hmax]
        exact hs
      · rw [if_neg hmax]
        by_cases hpending : settings.maxPendingProposals ≤ s.pending
        · rw [if_pos hpending]
          exact hs
        · rw [if_neg hpending]
          cases view.decide candidate.payload with
          | error message => exact hs
          | ok decision =>
              dsimp only
              by_cases habstained : decision.abstained = true
              · rw [if_pos habstained]
                exact ih ((proposeLike_extends decision).keyed hs)
              · rw [if_neg habstained]
                exact ih ((proposePlan_extends decision.plan).keyed hs)

end Pass

/-! ## Keys of a run -/

/-- What keys are to be: thirteen signs of the alphabet, no key twice for digests of one kind, and
in the order of the seconds. -/
structure WellKeyed (written : List (ℤ×OutboundAction)) : Prop where
  signs : ∀ w ∈ written, w.2.rkey.length = 13 ∧ ∀ c ∈ w.2.rkey, c ∈ kTidAlphabet
  unique : ∀ w ∈ written, ∀ w' ∈ written, w.2.kind = w'.2.kind → w.2.digest ≠ w'.2.digest →
    w.2.rkey ≠ w'.2.rkey
  ordered : ∀ w ∈ written, ∀ w' ∈ written, w.1 < w'.1 → w.2.rkey < w'.2.rkey

/-- No two digests of one kind and one second agree in the bits that a key keeps. -/
def Apart (written : List (ℤ×OutboundAction)) : Prop :=
  ∀ w ∈ written, ∀ w' ∈ written, w.2.kind = w'.2.kind → w.1 = w'.1 → w.2.digest ≠ w'.2.digest →
    ¬Alike w.2.digest w'.2.digest

theorem tidSign_mem {n : ℕ} (h : n < 32) : tidSign n ∈ kTidAlphabet := by
  unfold tidSign
  rw [List.getD_eq_getElem?_getD,List.getElem?_eq_getElem (show n < kTidAlphabet.length from h)]
  exact List.getElem_mem _

theorem proposalTid_signs (now : ℤ) (digest : Bytes) : (proposalTid now digest).length = 13 ∧
    ∀ c ∈ proposalTid now digest, c ∈ kTidAlphabet := by
  rw [proposalTid,tidSigns_eq]
  refine ⟨length_sortableDigits,fun c hc => ?_⟩
  obtain ⟨n,hn,rfl⟩ := mem_sortableDigits (by decide) hc
  exact tidSign_mem hn

theorem Keyed.length {now : ℤ} {action : OutboundAction} (h : Keyed now action) :
    action.digest.length = 16 := by
  obtain ⟨n,hn⟩ := h.digest
  rw [hn]
  exact length_sortableDigits

theorem writtenIn_keyed {cycles : List ProposalCycle} {w : ℤ×OutboundAction}
    (h : w ∈ writtenIn cycles) : Keyed w.1 w.2 ∧ ∃ c ∈ cycles, w.1 = c.view.now := by
  obtain ⟨c,hc,hw⟩ := List.mem_flatMap.mp h
  obtain ⟨action,haction,rfl⟩ := List.mem_map.mp hw
  refine ⟨proposeFrom_keyed c.contexts (fun _ h => ?_) action haction,c,hc,rfl⟩
  cases h

/-- For clocks that a key can hold, the keys of all proposals of a run are as they should be just
if no two digests of one kind and one second agree in their six bits. -/
theorem record_keys_unique {cycles : List ProposalCycle} (hclock : ∀ c ∈ cycles, Clock c.view.now) :
    WellKeyed (writtenIn cycles) ↔ Apart (writtenIn cycles) := by
  have hkeyed {w} (hw : w ∈ writtenIn cycles) : Keyed w.1 w.2 ∧ Clock w.1 := by
    obtain ⟨hk,c,hc,hnow⟩ := writtenIn_keyed hw
    exact ⟨hk,hnow ▸ hclock c hc⟩
  have hsame {w w'} (hw : w ∈ writtenIn cycles) (hw' : w' ∈ writtenIn cycles) :
      w.2.rkey = w'.2.rkey ↔ w.1 = w'.1 ∧ Alike w.2.digest w'.2.digest := by
    rw [(hkeyed hw).1.key,(hkeyed hw').1.key]
    exact proposalTid_inj (hkeyed hw).2 (hkeyed hw').2 (hkeyed hw).1.length (hkeyed hw').1.length
  refine ⟨fun h w hw w' hw' hkind hnow hdigest halike => ?_,fun h => ⟨fun w hw => ?_,?_,?_⟩⟩
  · exact h.unique w hw w' hw' hkind hdigest ((hsame hw hw').mpr ⟨hnow,halike⟩)
  · rw [(hkeyed hw).1.key]
    exact proposalTid_signs _ _
  · intro w hw w' hw' hkind hdigest hrkey
    obtain ⟨hnow,halike⟩ := (hsame hw hw').mp hrkey
    exact h w hw w' hw' hkind hnow hdigest halike
  · intro w hw w' hw' hless
    rw [(hkeyed hw).1.key,(hkeyed hw').1.key]
    exact proposalTid_lt (hkeyed hw).2 (hkeyed hw').2 hless

namespace Sample

def silent : Core.ActionDecision where
  abstained := true
  abstainReason := .lowScore
  plan := ⟨[],0,.none⟩
  evidence := .cleared
  rawPlanCount := 0
  viablePlanCount := 0

def postOf (name : String) : ContextCandidate where
  ledgerId := 1
  payload := utf8 "hello"
  sourceId := utf8 "at://did:plc:a/app.bsky.feed.post/"++utf8 name
  authorDid := []
  observedAt := 0

/-- A cycle that likes the posts it has nothing to say about. -/
def liking (names : List String) : ProposalCycle where
  settings := {maxProposals := 2,graduatedLikes := true}
  view := {
    now := 1700000000
    journal := {}
    invited := []
    optedOut := []
    decide := fun _ => .ok silent
    queued := fun _ => false}
  pending := 0
  recentTexts := []
  contexts := names.map postOf

theorem liking_clock (names : List String) : ∀ c ∈ [liking names], Clock c.view.now := by
  intro c hc
  rw [List.mem_singleton.mp hc]
  show 0 ≤ (1700000000 : ℤ) ∧ (1700000000 : ℤ)*1000000 < 2^54
  decide

theorem record_keys_unique_liking : (∀ c ∈ [liking ["0","1"]], Clock c.view.now) ∧
    (WellKeyed (writtenIn [liking ["0","1"]]) ↔ Apart (writtenIn [liking ["0","1"]])) :=
  ⟨liking_clock _,record_keys_unique (liking_clock _)⟩

theorem liking_twice : ∃ w ∈ writtenIn [liking ["3","10"]], ∃ w' ∈ writtenIn [liking ["3","10"]],
    w.2.kind = w'.2.kind ∧ w.2.digest ≠ w'.2.digest ∧ w.2.rkey = w'.2.rkey := by
  decide +kernel

/-- Two likes of one second have one key. -/
theorem liking_overwrites : ¬∀ cycles : List ProposalCycle, (∀ c ∈ cycles, Clock c.view.now) →
    WellKeyed (writtenIn cycles) := by
  intro h
  obtain ⟨w,hw,w',hw',hkind,hdigest,hrkey⟩ := liking_twice
  exact (h [liking ["3","10"]] (liking_clock _)).unique w hw w' hw' hkind hdigest hrkey

end Sample

end Atperson.Scheduler
