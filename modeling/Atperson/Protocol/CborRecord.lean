import Atperson.Runs.Owing
import Atperson.Wire.Cbor
import Atperson.Wire.Decimal
import Atperson.Wire.Json

/-!
# The scan ahead of the record decoder

The scan that refuses bytes which cannot be one item, before the decoder sees them, and the JSON form
of an integer. The scan is exact but for its deepest level, the integer but for its lowest value.
-/
namespace Atperson.Protocol
open Wire Wire.Cbor
open Runs (Owes Settles owingRun owingRun_iff owingRun_error)

/-! ## The scan -/

/-- What ends a scan early: a refusal, an access past the end, or more rounds than there was fuel. -/
inductive ScanFault where
  | refused | overrun | unfinished
  deriving DecidableEq

/-- Bytes in memory, whose length is a `size_t`. -/
structure Payload where
  bytes : Bytes
  fits : bytes.length < 2^64

def maxScanDepth : ℕ := 64

/-- `data[pos]`. -/
def byteAt (data : Bytes) (pos : ℕ) : Except ScanFault UInt8 :=
  if h : pos < data.length then .ok data[pos] else .error .overrun

/-- The bytes of an argument, each taking the place of the lowest eight bits. -/
def readArgument (data : Bytes) : ℕ → ℕ → UInt64 → Except ScanFault (UInt64×ℕ)
  | 0, pos, argument => .ok (argument,pos)
  | width+1, pos, argument => do
      let b ← byteAt data pos
      readArgument data width (pos+1) (argument <<< 8 ||| b.toUInt64)

/-- The argument of a head with this additional information. -/
def scanArgument (data : Bytes) (info pos : ℕ) : Except ScanFault (UInt64×ℕ) :=
  if info < 24 then .ok (UInt64.ofNat info,pos)
  else if data.length-pos < 2^(info-24) then .error .refused
  else readArgument data (2^(info-24)) pos 0

/-- What a head comes to: where the scan goes on, and how many items it owes. -/
def scanMembers (major : ℕ) (argument : UInt64) (left pos : ℕ) : Except ScanFault (ℕ×ℕ) :=
  if major = 2 ∨ major = 3 then
    if left < argument.toNat then .error .refused else .ok (pos+argument.toNat,0)
  else if major = 4 then
    if left < argument.toNat then .error .refused else .ok (pos,argument.toNat)
  else if major = 5 then
    if left/2 < argument.toNat then .error .refused else .ok (pos,(argument*2).toNat)
  else if major = 6 then .ok (pos,1)
  else .ok (pos,0)

/-- One round of the scan with an item owed. -/
def scanItem (data : Bytes) (pos : ℕ) : Except ScanFault (ℕ×ℕ) :=
  if data.length ≤ pos then .error .refused
  else do
    let initial ← byteAt data pos
    if 28 ≤ initial.toNat%32 then .error .refused
    else do
      let (argument,pos) ← scanArgument data (initial.toNat%32) (pos+1)
      scanMembers (initial.toNat/32) argument (data.length-pos) pos

/-- `structurally_bounded`. -/
def structurallyBounded (p : Payload) : Except ScanFault Bool :=
  match owingRun (scanItem p.bytes) .refused .unfinished maxScanDepth (2*p.bytes.length+2) 0 [1] with
  | .ok pos => .ok (pos = p.bytes.length)
  | .error .refused => .ok false
  | .error f => .error f

/-! ## Heads -/

section Heads
variable {data rest : Bytes} {pos : ℕ}

theorem byteAt_drop {b : UInt8} (h : data.drop pos = b::rest) :
    byteAt data pos = .ok b ∧ data.drop (pos+1) = rest := by
  have hpos : pos < data.length := by
    by_contra hnot
    rw [List.drop_eq_nil_of_le (Nat.le_of_not_lt hnot)] at h
    cases h
  rw [List.drop_eq_getElem_cons hpos] at h
  obtain ⟨rfl,rfl⟩ := List.cons.inj h
  exact ⟨dif_pos hpos,rfl⟩

/-- A byte behind a word that moves up for it. -/
theorem shift_or (m : ℕ) (b : UInt8) :
    UInt64.ofNat m <<< 8 ||| b.toUInt64 = UInt64.ofNat (m*256+b.toNat) := by
  have hb := b.toNat_lt
  rw [← UInt64.toNat_inj,UInt64.toNat_or,UInt64.toNat_shiftLeft,UInt8.toNat_toUInt64,
    UInt64.toNat_ofNat',UInt64.toNat_ofNat']
  have height : (8 : UInt64).toNat%64 = 8 := rfl
  rw [height,Nat.shiftLeft_eq]
  have hword : (m%2^64*2^8)%2^64 = 2^8*(m%2^56) := by omega
  rw [hword,← Nat.two_pow_add_eq_or_of_lt (by omega)]
  omega

theorem readArgument_drop (width m : ℕ) {bs : Bytes} (hwidth : bs.length = width)
    (h : data.drop pos = bs++rest) : readArgument data width pos (UInt64.ofNat m) =
      .ok (UInt64.ofNat (m*256^width+bigEndian bs),pos+width) := by
  induction width generalizing pos m bs with
  | zero =>
      obtain rfl := List.eq_nil_of_length_eq_zero hwidth
      simp [readArgument,bigEndian]
  | succ width ih =>
      cases bs with
      | nil => cases hwidth
      | cons b bs =>
          obtain ⟨hbyte,hdrop⟩ := byteAt_drop h
          have hlength : bs.length = width := Nat.succ.inj hwidth
          unfold readArgument
          rw [hbyte]
          show readArgument data width (pos+1) (UInt64.ofNat m <<< 8 ||| b.toUInt64) = _
          rw [shift_or,ih (m*256+b.toNat) hlength hdrop,bigEndian_cons,hlength,pow_succ]
          refine congrArg Except.ok (Prod.ext (congrArg UInt64.ofNat ?_) (by show pos+1+width = _; omega))
          ring

/-- A head that stands somewhere is read as one. -/
theorem scanArgument_header {head : Bytes} {major argument : ℕ} (hhead : Header head major argument)
    (h : data.drop pos = head++rest) : ∃ initial, byteAt data pos = .ok initial ∧
      initial.toNat%32 < 28 ∧ initial.toNat/32 = major ∧ ∃ a : UInt64, a.toNat = argument ∧
        scanArgument data (initial.toNat%32) (pos+1) = .ok (a,pos+head.length) := by
  cases hhead with
  | short hmajor hinfo =>
      have hbyte : (UInt8.ofNat (32*major+argument)).toNat = 32*major+argument :=
        UInt8.toNat_ofNat_of_lt' (by show _ < 256; omega)
      refine ⟨_,(byteAt_drop h).1,?_,?_,UInt64.ofNat argument,?_,?_⟩
      · rw [hbyte]
        omega
      · rw [hbyte]
        omega
      · exact UInt64.toNat_ofNat_of_lt' (by show _ < 2^64; omega)
      · rw [hbyte,show (32*major+argument)%32 = argument by omega,scanArgument,if_pos hinfo]
        rfl
  | @wide major k bs hmajor hk hlength =>
      have hbyte : (UInt8.ofNat (32*major+(24+k))).toNat = 32*major+(24+k) :=
        UInt8.toNat_ofNat_of_lt' (by show _ < 256; omega)
      have hinitial := (byteAt_drop h).1
      have hdrop : data.drop (pos+1) = bs++rest := (byteAt_drop h).2
      have hwidth : 2^k ≤ 8 := Nat.pow_le_pow_right (by decide) (Nat.le_of_lt_succ hk)
      have hroom := congrArg List.length hdrop
      rw [List.length_drop,List.length_append,hlength] at hroom
      have hlt : bigEndian bs < 2^64 := by
        refine (bigEndian_lt bs).trans_le ?_
        rw [hlength]
        exact (Nat.pow_le_pow_right (by decide) hwidth).trans (by decide)
      refine ⟨_,hinitial,?_,?_,UInt64.ofNat (bigEndian bs),?_,?_⟩
      · rw [hbyte]
        omega
      · rw [hbyte]
        omega
      · exact UInt64.toNat_ofNat_of_lt' hlt
      · rw [hbyte,show (32*major+(24+k))%32 = 24+k by omega,scanArgument,if_neg (by omega),
          Nat.add_sub_cancel_left,if_neg (by omega)]
        have hread := readArgument_drop (2^k) 0 hlength hdrop
        rw [Nat.zero_mul,Nat.zero_add] at hread
        refine hread.trans (congrArg Except.ok (Prod.ext rfl ?_))
        show pos+1+2^k = pos+(bs.length+1)
        omega

/-- Where additional information is in range a head stands there, or the bytes are too short. -/
theorem header_or_short {initial : UInt8} (hinitial : data.drop pos = initial::rest)
    (hinfo : initial.toNat%32 < 28) :
    scanArgument data (initial.toNat%32) (pos+1) = .error .refused ∨
      ∃ head argument rest, Header head (initial.toNat/32) argument ∧ data.drop pos = head++rest := by
  have hb := initial.toNat_lt
  by_cases hshort : initial.toNat%32 < 24
  · have hbyte : initial = UInt8.ofNat (32*(initial.toNat/32)+initial.toNat%32) := by
      rw [Nat.div_add_mod]
      exact UInt8.ofNat_toNat.symm
    refine .inr ⟨[initial],initial.toNat%32,rest,?_,hinitial⟩
    have hhead := Header.short (show initial.toNat/32 < 8 by omega) hshort
    rwa [← hbyte] at hhead
  · obtain ⟨k,hk⟩ := Nat.exists_eq_add_of_le (Nat.le_of_not_lt hshort)
    have hbyte : initial = UInt8.ofNat (32*(initial.toNat/32)+(24+k)) := by
      rw [← hk,Nat.div_add_mod]
      exact UInt8.ofNat_toNat.symm
    have hdrop := (byteAt_drop hinitial).2
    by_cases hroom : data.length-(pos+1) < 2^k
    · refine .inl ?_
      rw [hk,scanArgument,if_neg (by omega),Nat.add_sub_cancel_left,if_pos hroom]
    · have hlength : (rest.take (2^k)).length = 2^k := by
        rw [List.length_take,← hdrop,List.length_drop]
        omega
      refine .inr ⟨initial::rest.take (2^k),bigEndian (rest.take (2^k)),rest.drop (2^k),?_,?_⟩
      · have hhead := Header.wide (show initial.toNat/32 < 8 by omega) (by omega : k < 4) hlength
        rwa [← hbyte] at hhead
      · rw [List.cons_append,List.take_append_drop]
        exact hinitial

theorem scanMembers_ok {major : ℕ} {a : UInt64} {left : ℕ} (hleft : left < 2^64)
    (hpayload : payloadOf major a.toNat ≤ left) (hmembers : membersOf major a.toNat ≤ left) :
    scanMembers major a left pos = .ok (pos+payloadOf major a.toNat,membersOf major a.toNat) := by
  unfold scanMembers payloadOf membersOf at *
  by_cases h23 : major = 2 ∨ major = 3
  · rw [if_pos h23] at hpayload
    have h4 : major ≠ 4 ∧ major ≠ 5 ∧ major ≠ 6 := by omega
    rw [if_pos h23,if_neg (Nat.not_lt.mpr hpayload),if_pos h23,if_neg h4.1,if_neg h4.2.1,if_neg h4.2.2]
  · rw [if_neg h23,if_neg h23]
    by_cases h4 : major = 4
    · rw [if_pos h4] at hmembers
      rw [if_pos h4,if_neg (Nat.not_lt.mpr hmembers),if_pos h4]
      rfl
    · by_cases h5 : major = 5
      · rw [if_neg h4,if_pos h5] at hmembers
        have hdouble : (a*2).toNat = 2*a.toNat := by
          rw [UInt64.toNat_mul]
          show a.toNat*2%2^64 = 2*a.toNat
          omega
        rw [if_neg h4,if_pos h5,if_neg (by omega),if_neg h4,if_pos h5,hdouble]
        rfl
      · rw [if_neg h4,if_neg h5,if_neg h4,if_neg h5]
        by_cases h6 : major = 6
        · rw [if_pos h6,if_pos h6]
          rfl
        · rw [if_neg h6,if_neg h6]
          rfl

theorem scanMembers_cases (major : ℕ) (a : UInt64) (left pos : ℕ) (hleft : left < 2^64) :
    scanMembers major a left pos = .error .refused ∨ payloadOf major a.toNat ≤ left ∧
      scanMembers major a left pos = .ok (pos+payloadOf major a.toNat,membersOf major a.toNat) := by
  by_cases hpayload : payloadOf major a.toNat ≤ left
  · by_cases hmembers : membersOf major a.toNat ≤ left
    · exact .inr ⟨hpayload,scanMembers_ok hleft hpayload hmembers⟩
    · unfold membersOf at hmembers
      by_cases h4 : major = 4
      · rw [if_pos h4] at hmembers
        left
        rw [scanMembers,if_neg (by omega),if_pos h4,if_pos (Nat.lt_of_not_le hmembers)]
      · rw [if_neg h4] at hmembers
        by_cases h5 : major = 5
        · rw [if_pos h5] at hmembers
          left
          rw [scanMembers,if_neg (by omega),if_neg h4,if_pos h5,if_pos (by omega)]
        · rw [if_neg h5] at hmembers
          by_cases h6 : major = 6
          · refine .inr ⟨hpayload,?_⟩
            rw [scanMembers,payloadOf,membersOf,if_neg (by omega),if_neg h4,if_neg h5,if_pos h6,
              if_neg (by omega),if_neg h4,if_neg h5,if_pos h6]
            rfl
          · rw [if_neg h6] at hmembers
            exact absurd (Nat.zero_le left) hmembers
  · unfold payloadOf at hpayload
    by_cases h23 : major = 2 ∨ major = 3
    · rw [if_pos h23] at hpayload
      left
      rw [scanMembers,if_pos h23,if_pos (Nat.lt_of_not_le hpayload)]
    · rw [if_neg h23] at hpayload
      exact absurd (Nat.zero_le left) hpayload

/-- An item of the grammar is read as one where its members can still follow. -/
theorem scanItem_ok (hfits : data.length < 2^64) {head payload : Bytes} {major argument : ℕ}
    (hhead : Header head major argument) (hpayload : payload.length = payloadOf major argument)
    (h : data.drop pos = head++payload++rest) (hmembers : membersOf major argument ≤ rest.length) :
    scanItem data pos = .ok (pos+head.length+payload.length,membersOf major argument) := by
  have hlength := congrArg List.length h
  simp only [List.length_append,List.length_drop] at hlength
  have hpos := hhead.length_pos
  rw [List.append_assoc] at h
  obtain ⟨initial,hinitial,hinfo,hmajor,a,ha,hargument⟩ := scanArgument_header hhead h
  unfold scanItem
  rw [if_neg (by omega),hinitial]
  show (if 28 ≤ initial.toNat%32 then _ else _) = _
  rw [if_neg (Nat.not_le.mpr hinfo),hargument]
  show scanMembers (initial.toNat/32) a (data.length-(pos+head.length)) (pos+head.length) = _
  subst ha
  rw [hmajor,scanMembers_ok (by omega) (by omega) (by omega),hpayload]

/-- A round of the scan refuses, or it has read the head and the payload of an item. -/
theorem scanItem_cases (hfits : data.length < 2^64) (pos : ℕ) : scanItem data pos = .error .refused ∨
    ∃ head payload major argument, Header head major argument ∧
      payload.length = payloadOf major argument ∧
      data.drop pos = head++payload++data.drop (pos+head.length+payload.length) ∧
      pos+head.length+payload.length ≤ data.length ∧
      scanItem data pos = .ok (pos+head.length+payload.length,membersOf major argument) := by
  by_cases hpos : data.length ≤ pos
  · left
    rw [scanItem,if_pos hpos]
  · have hdrop := List.drop_eq_getElem_cons (Nat.lt_of_not_le hpos)
    have hitem : scanItem data pos = if 28 ≤ data[pos].toNat%32 then .error .refused
        else scanArgument data (data[pos].toNat%32) (pos+1) >>= fun x =>
          scanMembers (data[pos].toNat/32) x.1 (data.length-x.2) x.2 := by
      unfold scanItem
      rw [if_neg hpos,(byteAt_drop hdrop).1]
      rfl
    by_cases hinfo : 28 ≤ data[pos].toNat%32
    · left
      rw [hitem,if_pos hinfo]
    · rw [if_neg hinfo] at hitem
      rcases header_or_short hdrop (Nat.lt_of_not_le hinfo) with hshort | ⟨head,argument,rest,hhead,h⟩
      · left
        rw [hitem,hshort]
        rfl
      · obtain ⟨initial,hinitial,-,-,a,ha,hargument⟩ := scanArgument_header hhead h
        obtain rfl := Except.ok.inj ((byteAt_drop hdrop).1.symm.trans hinitial)
        have hlength := congrArg List.length h
        simp only [List.length_append,List.length_drop] at hlength
        have hlast := hhead.length_pos
        rw [hargument] at hitem
        subst ha
        rcases scanMembers_cases (data[pos].toNat/32) a (data.length-(pos+head.length))
          (pos+head.length) (by omega) with hbad | ⟨hroom,hok⟩
        · left
          rw [hitem]
          exact hbad
        · have htake : (rest.take (payloadOf (data[pos].toNat/32) a.toNat)).length =
              payloadOf (data[pos].toNat/32) a.toNat := by
            rw [List.length_take]
            omega
          refine .inr ⟨head,rest.take (payloadOf (data[pos].toNat/32) a.toNat),_,_,hhead,htake,?_,?_,?_⟩
          · rw [htake,← List.drop_drop,← List.drop_drop,h,List.drop_left,List.append_assoc,
              List.take_append_drop]
          · rw [htake]
            omega
          · rw [hitem,htake]
            exact hok

end Heads

/-! ## Items -/

section Nesting
variable {data : Bytes}

/-- What the scan takes for items are items. -/
theorem items_of_owes (hfits : data.length < 2^64) {n pos stop d : ℕ}
    (h : Owes (scanItem data) n pos stop d) (hpos : pos ≤ data.length) :
    ∃ bs, Items n bs d ∧ data.drop pos = bs++data.drop stop ∧ stop = pos+bs.length ∧
      stop ≤ data.length := by
  induction h with
  | none pos => exact ⟨[],.none,rfl,rfl,hpos⟩
  | @next n k d e pos pos₁ pos₂ stop hitem _ _ ihmembers ihrest =>
      rcases scanItem_cases hfits pos with hbad | ⟨head,payload,major,argument,hhead,hpayload,hdrop,hroom,hok⟩
      · rw [hbad] at hitem
        cases hitem
      · obtain ⟨rfl,rfl⟩ := Prod.mk.inj (Except.ok.inj (hok.symm.trans hitem))
        obtain ⟨members,hmembers,hdrop₁,rfl,hroom₁⟩ := ihmembers hroom
        obtain ⟨rest,hrest,hdrop₂,rfl,hroom₂⟩ := ihrest hroom₁
        refine ⟨_,.next hhead hpayload hmembers hrest,?_,?_,hroom₂⟩
        · rw [hdrop,hdrop₁,hdrop₂]
          simp only [List.append_assoc]
        · simp only [List.length_append]
          omega

/-- Items are what the scan takes for items. -/
theorem owes_of_items (hfits : data.length < 2^64) {n d pos : ℕ} {bs after : Bytes}
    (h : Items n bs d) (hdrop : data.drop pos = bs++after) :
    Owes (scanItem data) n pos (pos+bs.length) d := by
  induction h generalizing pos after with
  | none => exact .none pos
  | @next n major argument d e head payload members rest hhead hpayload hmembers hrest ihmembers ihrest =>
      have hbehind : data.drop pos = head++payload++(members++rest++after) := by
        rw [hdrop]
        simp only [List.append_assoc]
      have hroom : membersOf major argument ≤ (members++rest++after).length := by
        have := hmembers.le_length
        simp only [List.length_append]
        omega
      have hitem := scanItem_ok hfits hhead hpayload hbehind hroom
      have hdrop₁ : data.drop (pos+head.length+payload.length) = members++(rest++after) := by
        rw [← List.drop_drop,← List.drop_drop,hdrop]
        simp only [List.append_assoc,List.drop_left]
      have hdrop₂ : data.drop (pos+head.length+payload.length+members.length) = rest++after := by
        rw [← List.drop_drop,hdrop₁,List.drop_left]
      have hnext := Owes.next hitem (ihmembers hdrop₁) (ihrest hdrop₂)
      have hstop : pos+(head++payload++members++rest).length =
          pos+head.length+payload.length+members.length+rest.length := by
        simp only [List.length_append]
        omega
      rw [hstop]
      exact hnext

end Nesting

/-! ## The scan of a payload -/

section Scan
variable (p : Payload)

/-- The scan ends with an answer, which is whether the bytes are one item nested less deep than the
limit. -/
theorem structurallyBounded_iff : ∃ b, structurallyBounded p = .ok b ∧
    (b = true ↔ ∃ d < maxScanDepth, Items 1 p.bytes d) := by
  have hsize : ∀ pos stop k, scanItem p.bytes pos = .ok (stop,k) →
      p.bytes.length-stop < p.bytes.length-pos := by
    intro pos stop k hok
    rcases scanItem_cases p.fits pos with hbad | ⟨head,payload,major,argument,hhead,-,-,hroom,hitem⟩
    · rw [hbad] at hok
      cases hok
    · obtain ⟨rfl,-⟩ := Prod.mk.inj (Except.ok.inj (hitem.symm.trans hok))
      have := hhead.length_pos
      omega
  have hfuel : 2*(p.bytes.length-0)+[1].length < 2*p.bytes.length+2 := by
    rw [List.length_singleton]
    omega
  have hiff : ∀ stop, owingRun (scanItem p.bytes) .refused .unfinished maxScanDepth
      (2*p.bytes.length+2) 0 [1] = .ok stop ↔ ∃ d < maxScanDepth, Owes (scanItem p.bytes) 1 0 stop d := by
    intro stop
    rw [owingRun_iff hsize hfuel (by decide)]
    constructor
    · intro h
      cases h with
      | level howes hdepth hrest =>
          cases hrest
          exact ⟨_,hdepth,howes⟩
    · rintro ⟨d,hd,howes⟩
      exact .level howes hd (.done stop)
  have hall : ∀ d, Items 1 p.bytes d → Owes (scanItem p.bytes) 1 0 p.bytes.length d := fun d hitems => by
    have hwhole : p.bytes.drop 0 = p.bytes++[] := (List.append_nil _).symm
    have howes := owes_of_items p.fits hitems hwhole
    rwa [Nat.zero_add] at howes
  unfold structurallyBounded
  cases hrun : owingRun (scanItem p.bytes) .refused .unfinished maxScanDepth (2*p.bytes.length+2) 0
    [1] with
  | ok stop =>
      refine ⟨decide (stop = p.bytes.length),rfl,?_⟩
      obtain ⟨d,hd,howes⟩ := (hiff stop).mp hrun
      rw [decide_eq_true_eq]
      constructor
      · rintro rfl
        obtain ⟨bs,hitems,hdrop,-,-⟩ := items_of_owes p.fits howes (Nat.zero_le _)
        rw [List.drop_zero,List.drop_length,List.append_nil] at hdrop
        exact ⟨d,hd,hdrop ▸ hitems⟩
      · rintro ⟨d',-,hitems⟩
        exact (howes.unique (hall d' hitems)).1
  | error f =>
      have hrefused : f = .refused := by
        rcases owingRun_error hsize hfuel hrun with rfl | ⟨pos,hbad⟩
        · rfl
        · rcases scanItem_cases p.fits pos with hcase | ⟨_,_,_,_,-,-,-,-,hitem⟩
          · exact Except.error.inj (hbad.symm.trans hcase)
          · rw [hitem] at hbad
            cases hbad
      subst hrefused
      refine ⟨false,rfl,iff_of_false Bool.false_ne_true ?_⟩
      rintro ⟨d,hd,hitems⟩
      have hok := (hiff _).mpr ⟨d,hd,hall d hitems⟩
      rw [hrun] at hok
      cases hok

/-- One item nests in one way only. -/
theorem nesting_unique {d e : ℕ} (h : Items 1 p.bytes d) (h' : Items 1 p.bytes e) : d = e := by
  have hwhole : p.bytes.drop 0 = p.bytes++[] := (List.append_nil _).symm
  exact ((owes_of_items p.fits h hwhole).unique (owes_of_items p.fits h' hwhole)).2

end Scan

/-! ## Integers -/

/-- An item of the two integer types, as the parser hands it on. -/
inductive CborInteger where
  | unsigned (value : UInt64)
  | negative (magnitude : UInt64)

/-- The integer an item stands for. -/
def CborInteger.denoted : CborInteger → ℤ
  | .unsigned value => value.toNat
  | .negative magnitude => -1-magnitude.toNat

/-- `kExactDoubleIntegers`. -/
def exactDoubleIntegers : ℕ := 2^53-1

/-- `integer_to_json`, numbers by the integer their double is. -/
def integerToJson : CborInteger → Json ℤ
  | .unsigned value =>
      if value.toNat ≤ exactDoubleIntegers then .number (nearestDouble value.toNat)
      else .ofCString (decimalString value.toNat)
  | .negative magnitude =>
      if magnitude.toNat < exactDoubleIntegers then
        .number (nearestDouble (-1-nearestDouble magnitude.toNat))
      else .ofCString (utf8 "-"++decimalString (magnitude+1).toNat)

/-- A JSON value is this integer, as a number or as its decimal text. -/
def Denotes : Json ℤ → ℤ → Prop
  | .number n, z => n = z
  | .string s, z => s = formatPadded 1 z
  | _, _ => False

theorem decimal_noNul (n : ℕ) : (0 : UInt8) ∉ decimalString n := formatPadded_noNul 1 n

theorem formatPadded_negative {n : ℕ} (h : 0 < n) :
    formatPadded 1 (-(n : ℤ)) = utf8 "-"++decimalString n := by
  have hutf : utf8 "-" = [45] := by decide
  rw [decimalString_eq,hutf,formatPadded,if_pos (by omega),Int.natAbs_neg,Int.natAbs_natCast]
  show 45::paddedDecimal (max 0 (Nat.log 10 n+1)) n = 45::paddedDecimal (Nat.log 10 n+1) n
  rw [Nat.max_eq_right (Nat.zero_le _)]

theorem decimalString_inj {m n : ℕ} (h : decimalString m = decimalString n) : m = n := by
  rw [← decimalValue_string m,h,decimalValue_string]

/-- An integer keeps its value in JSON if and only if it is not the lowest. -/
theorem denotes_iff (i : CborInteger) :
    Denotes (integerToJson i) i.denoted ↔ i.denoted ≠ -2^64 := by
  cases i with
  | unsigned value =>
      have hne : (CborInteger.unsigned value).denoted ≠ -2^64 := by
        show (value.toNat : ℤ) ≠ -2^64
        omega
      refine iff_of_true ?_ hne
      unfold integerToJson
      simp only
      split
      · rename_i hsmall
        have hlimit : exactDoubleIntegers = 2^53-1 := rfl
        show nearestDouble value.toNat = value.toNat
        exact nearestDouble_of_small (by rw [Int.natAbs_natCast]; omega)
      · show (CString.ofRaw (decimalString value.toNat)).bytes = formatPadded 1 value.toNat
        rw [ofRaw_bytes_of_noNul (decimal_noNul _)]
        rfl
  | negative magnitude =>
      have hword := magnitude.toNat_lt
      have hlimit : exactDoubleIntegers = 2^53-1 := rfl
      unfold integerToJson
      simp only
      split
      · rename_i hsmall
        have hne : (CborInteger.negative magnitude).denoted ≠ -2^64 := by
          show (-1-magnitude.toNat : ℤ) ≠ -2^64
          omega
        refine iff_of_true ?_ hne
        show nearestDouble (-1-nearestDouble magnitude.toNat) = -1-magnitude.toNat
        have hmagnitude : nearestDouble magnitude.toNat = magnitude.toNat :=
          nearestDouble_of_small (by rw [Int.natAbs_natCast]; omega)
        rw [hmagnitude,nearestDouble_of_small (by omega)]
      · rename_i hlarge
        have hnul : (0 : UInt8) ∉ utf8 "-"++decimalString (magnitude+1).toNat := by
          rw [List.mem_append,not_or]
          exact ⟨by decide,decimal_noNul _⟩
        have hvalue : (CborInteger.negative magnitude).denoted = -((magnitude.toNat+1 : ℕ) : ℤ) := by
          show (-1-magnitude.toNat : ℤ) = _
          omega
        show (CString.ofRaw (utf8 "-"++decimalString (magnitude+1).toNat)).bytes =
          formatPadded 1 (CborInteger.negative magnitude).denoted ↔ _
        rw [ofRaw_bytes_of_noNul hnul,hvalue,formatPadded_negative (Nat.succ_pos _),
          List.append_cancel_left_eq]
        have hwrap : (magnitude+1).toNat = (magnitude.toNat+1)%2^64 := UInt64.toNat_add _ _
        constructor
        · intro h
          have := decimalString_inj h
          omega
        · intro h
          rw [hwrap,Nat.mod_eq_of_lt (by omega)]

/-! ## Both -/

/-- The scan is exact as its depth limit reads, and an integer keeps its value, unless the bytes are
an item nested to the limit, or the integer is the lowest. -/
theorem cbor_prescan_iff (p : Payload) (i : CborInteger) :
    (∃ b, structurallyBounded p = .ok b ∧ ((b = true ↔ ∃ d ≤ maxScanDepth, Items 1 p.bytes d) ↔
      ¬Items 1 p.bytes maxScanDepth)) ∧
    (Denotes (integerToJson i) i.denoted ↔ i.denoted ≠ -2^64) := by
  refine ⟨?_,denotes_iff i⟩
  obtain ⟨b,hb,hiff⟩ := structurallyBounded_iff p
  refine ⟨b,hb,?_⟩
  constructor
  · intro h hlimit
    obtain ⟨d,hd,hitems⟩ := hiff.mp (h.mpr ⟨_,le_rfl,hlimit⟩)
    exact absurd (nesting_unique p hitems hlimit) (Nat.ne_of_lt hd)
  · intro hnot
    rw [hiff]
    constructor
    · rintro ⟨d,hd,hitems⟩
      exact ⟨d,hd.le,hitems⟩
    · rintro ⟨d,hd,hitems⟩
      refine ⟨d,lt_of_le_of_ne hd ?_,hitems⟩
      rintro rfl
      exact hnot hitems

/-- Arrays of one item, so many around a zero. -/
def nested (count : ℕ) : Bytes := List.replicate count 0x81++[0]

theorem nested_items (count : ℕ) : Items 1 (nested count) count := by
  induction count with
  | zero =>
      have hzero : Header [UInt8.ofNat (32*0+0)] 0 0 := .short (by decide) (by decide)
      exact .next hzero (show ([] : Bytes).length = payloadOf 0 0 from rfl) .none .none
  | succ count ih =>
      have harray : Header [UInt8.ofNat (32*4+1)] 4 1 := .short (by decide) (by decide)
      have hitems := Items.next harray (show ([] : Bytes).length = payloadOf 4 1 from rfl) ih .none
      rw [List.append_nil,List.append_nil] at hitems
      exact hitems

/-- Sixty-four arrays around a zero are refused, and the lowest integer comes out as "-0". -/
theorem cbor_limits : (∃ h, structurallyBounded ⟨nested maxScanDepth,h⟩ = .ok false ∧
      Items 1 (nested maxScanDepth) maxScanDepth) ∧
    ¬Denotes (integerToJson (.negative (-1))) (CborInteger.negative (-1)).denoted := by
  refine ⟨⟨by decide,by decide +kernel,nested_items _⟩,?_⟩
  rw [denotes_iff,not_not]
  rfl

end Atperson.Protocol
