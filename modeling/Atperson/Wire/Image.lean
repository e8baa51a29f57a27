import Atperson.Wire.CText

/-!
# Reading an image at a position

An image in memory is read through a position that moves on. What is left of the image is a
difference of two machine sizes, which wraps below zero: a position beyond the end lets a read
run past the image. `Within` says of a reader that this does not happen. From a position
within the image it stops within the image, and what ends it early is a rejection.
-/
namespace Atperson.Wire

/-- What ends the reading of an image early: a read or a check that fails, a status of the
caller's own, a read past the image, or more rounds than a loop had fuel for. -/
inductive ReadFault (ε : Type) where
  | malformed
  | refused (e : ε)
  | overrun
  | unfinished
  deriving DecidableEq

/-- The image is rejected, with every read within it. -/
def ReadFault.Rejects {ε : Type} : ReadFault ε → Prop
  | .malformed => True
  | .refused _ => True
  | .overrun => False
  | .unfinished => False

abbrev ImageReader (ε α : Type) := ReaderT Bytes (StateT ℕ (Except (ReadFault ε))) α

/-- The difference of two `size_t` values. -/
def sizeSub (a b : ℕ) : ℕ := if b ≤ a then a-b else a+2^64-b

theorem sizeSub_of_le {a b : ℕ} (h : b ≤ a) : sizeSub a b = a-b := if_pos h

namespace ImageReader
variable {ε α β σ : Type}

def fail (f : ReadFault ε) : ImageReader ε α := fun _ _ => .error f

def position : ImageReader ε ℕ := fun _ position => .ok (position,position)

def seek (target : ℕ) : ImageReader ε Unit := fun _ _ => .ok ((),target)

def size : ImageReader ε ℕ := fun image position => .ok (image.length,position)

def remaining : ImageReader ε ℕ := fun image position =>
  .ok (sizeSub image.length position,position)

def take (count : ℕ) : ImageReader ε Bytes := fun image position =>
  if sizeSub image.length position < count then .error .malformed
  else if image.length < position+count then .error .overrun
  else .ok ((image.drop position).take count,position+count)

def check (c : Bool) : ImageReader ε Unit := if c then pure () else fail .malformed

def accept : Option α → ImageReader ε α
  | none => fail .malformed
  | some a => pure a

def u32 : ImageReader ε UInt32 := do return loadU32 (← take 4)

def u64 : ImageReader ε UInt64 := do return loadU64 (← take 8)

def f32 : ImageReader ε Float32 := do return Float32.ofBits (← u32)

def f64 : ImageReader ε Float := do return Float.ofBits (← u64)

/-- A text behind its length, which may be zero, for an array of `cap+1` bytes. -/
def stringOpt (cap : ℕ) : ImageReader ε (CText (cap+1)) := do
  let length ← u32
  check (length.toNat < cap+1)
  let bytes ← take length.toNat
  return CText.truncate (CString.ofRaw bytes)

def string (cap : ℕ) : ImageReader ε (CText (cap+1)) := do
  let length ← u32
  check (length ≠ 0)
  check (length.toNat < cap+1)
  let bytes ← take length.toNat
  return CText.truncate (CString.ofRaw bytes)

/-- The same reader `n` times. -/
def many (r : ImageReader ε α) : ℕ → ImageReader ε (List α)
  | 0 => return []
  | n+1 => do
      let a ← r
      let as ← many r n
      return a::as

/-- A reader `n` times, each time knowing what was read before. -/
def chain (r : Option α → ImageReader ε α) : ℕ → Option α → ImageReader ε (List α)
  | 0, _ => return []
  | n+1, previous => do
      let a ← r previous
      let as ← chain r n (some a)
      return a::as

/-! ## Sections -/

/-- The tag of a section and the length of its payload, which lies within the image. -/
def sectionHeader : ImageReader ε (UInt32×ℕ) := do
  let header ← take 12
  let length := (loadU64 (header.drop 4)).toNat
  check (length ≤ (← remaining))
  return (loadU32 header,length)

section Sections
variable (note : σ → UInt32 → Option σ) (handle : σ → UInt32 → Option (ImageReader ε σ))

/-- A payload is skipped, or read and then used up. -/
def payload (tag : UInt32) (payloadEnd : ℕ) (s : σ) : ImageReader ε σ :=
  match handle s tag with
  | none => do
      seek payloadEnd
      return s
  | some decode => do
      let s ← decode
      check ((← position) = payloadEnd)
      return s

def oneSection (s : σ) : ImageReader ε σ := do
  let (tag,length) ← sectionHeader
  let payloadEnd := (← position)+length
  payload handle tag payloadEnd (← accept (note s tag))

/-- Sections as long as more than the reserve is left, with fuel for the rounds. -/
def walkSections (reserve : ℕ) : ℕ → σ → ImageReader ε σ
  | 0, _ => fail .unfinished
  | fuel+1, s => do
      if (← remaining) ≤ reserve then return s
      let s ← oneSection note handle s
      walkSections reserve fuel s

/-- A section takes twelve bytes at least, so there is fuel for every image. -/
def sections (reserve : ℕ) (s : σ) : ImageReader ε σ := fun image position =>
  walkSections note handle reserve (image.length+1) s image position

end Sections

/-! ## Staying within the image -/

/-- What reading from a position comes to. -/
def Lands (image : Bytes) (start : ℕ) (Q : α → Prop) : Except (ReadFault ε) (α×ℕ) → Prop
  | .ok (a,stop) => start ≤ stop ∧ stop ≤ image.length ∧ Q a
  | .error f => f.Rejects

def Within (r : ImageReader ε α) (Q : α → Prop) : Prop :=
  ∀ image start, start ≤ image.length → Lands image start Q (r image start)

variable {P Q : α → Prop} {r : ImageReader ε α}

theorem bind_apply (r : ImageReader ε α) (k : α → ImageReader ε β) (image : Bytes) (start : ℕ) :
    (r >>= k) image start = (r image start).bind fun x => k x.1 image x.2 := rfl

/-- What a reader that succeeds has read on the way. -/
theorem bind_ok {r : ImageReader ε α} {k : α → ImageReader ε β} {image : Bytes} {start stop : ℕ}
    {b : β} (h : (r >>= k) image start = .ok (b,stop)) :
    ∃ a middle, r image start = .ok (a,middle) ∧ k a image middle = .ok (b,stop) := by
  rw [bind_apply] at h
  cases hr : r image start with
  | error f =>
      rw [hr] at h
      cases h
  | ok x =>
      rw [hr] at h
      exact ⟨x.1,x.2,rfl,h⟩

theorem Lands.mono {image : Bytes} {start : ℕ} {x : Except (ReadFault ε) (α×ℕ)}
    (h : Lands image start P x) (hPQ : ∀ a, P a → Q a) : Lands image start Q x := by
  cases x with
  | error f => exact h
  | ok x => exact ⟨h.1,h.2.1,hPQ _ h.2.2⟩

theorem Lands.from {image : Bytes} {start middle : ℕ} {x : Except (ReadFault ε) (α×ℕ)}
    (h : Lands image middle P x) (hle : start ≤ middle) : Lands image start P x := by
  cases x with
  | error f => exact h
  | ok x => exact ⟨hle.trans h.1,h.2⟩

theorem Lands.bind {image : Bytes} {start : ℕ} {x : Except (ReadFault ε) (α×ℕ)}
    {k : α×ℕ → Except (ReadFault ε) (β×ℕ)} {Q : β → Prop} (h : Lands image start P x)
    (hk : ∀ a stop, start ≤ stop → stop ≤ image.length → P a →
      Lands image stop Q (k (a,stop))) : Lands image start Q (x.bind k) := by
  cases x with
  | error f => exact h
  | ok x =>
      obtain ⟨hstart,hstop,ha⟩ := h
      have hrest := hk x.1 x.2 hstart hstop ha
      show Lands image start Q (k x)
      exact hrest.from hstart

theorem Within.mono (h : Within r P) (hPQ : ∀ a, P a → Q a) : Within r Q :=
  fun image start hstart => (h image start hstart).mono hPQ

theorem Within.bind {Q : β → Prop} {k : α → ImageReader ε β} (h : Within r P)
    (hk : ∀ a, P a → Within (k a) Q) : Within (r >>= k) Q := by
  intro image start hstart
  rw [bind_apply]
  exact (h image start hstart).bind fun a stop _ hstop ha => hk a ha image stop hstop

theorem within_pure {a : α} (h : Q a) : Within (pure a : ImageReader ε α) Q :=
  fun _ _ hstart => ⟨le_rfl,hstart,h⟩

theorem within_refused {f : ReadFault ε} (h : f.Rejects) : Within (fail f : ImageReader ε α) Q :=
  fun _ _ _ => h

theorem within_remaining : Within (remaining : ImageReader ε ℕ) fun _ => True :=
  fun _ _ hstart => ⟨le_rfl,hstart,trivial⟩

theorem within_size : Within (size : ImageReader ε ℕ) fun _ => True :=
  fun _ _ hstart => ⟨le_rfl,hstart,trivial⟩

theorem within_position : Within (position : ImageReader ε ℕ) fun _ => True :=
  fun _ _ hstart => ⟨le_rfl,hstart,trivial⟩

theorem check_apply (c : Bool) (image : Bytes) (start : ℕ) :
    (check c : ImageReader ε Unit) image start =
      if c then .ok ((),start) else .error .malformed := by
  unfold check
  split <;> rfl

theorem check_ok {c : Bool} {image : Bytes} {start stop : ℕ} {u : Unit}
    (h : (check c : ImageReader ε Unit) image start = .ok (u,stop)) : c = true ∧ stop = start := by
  rw [check_apply] at h
  split at h
  · exact ⟨‹_›,(Prod.mk.inj (Except.ok.inj h)).2.symm⟩
  · cases h

theorem accept_ok {o : Option α} {image : Bytes} {start stop : ℕ} {a : α}
    (h : (accept o : ImageReader ε α) image start = .ok (a,stop)) : o = some a ∧ stop = start := by
  cases o with
  | none => cases h
  | some b =>
      obtain ⟨rfl,rfl⟩ := Prod.mk.inj (Except.ok.inj h)
      exact ⟨rfl,rfl⟩

theorem Within.result {image : Bytes} {start stop : ℕ} {a : α} (h : Within r Q)
    (hstart : start ≤ image.length) (hr : r image start = .ok (a,stop)) : Q a := by
  have hlands := h image start hstart
  rw [hr] at hlands
  exact hlands.2.2

theorem within_check {c : Bool} : Within (check c : ImageReader ε Unit) fun _ => c = true := by
  unfold check
  split
  · exact within_pure ‹_›
  · exact within_refused trivial

theorem within_accept {o : Option α} : Within (accept o : ImageReader ε α) fun a => o = some a := by
  cases o with
  | none => exact within_refused trivial
  | some a => exact within_pure rfl

theorem take_lands {image : Bytes} {start : ℕ} (h : start ≤ image.length) (count : ℕ) :
    (take count : ImageReader ε Bytes) image start =
      if image.length < start+count then .error .malformed
      else .ok ((image.drop start).take count,start+count) := by
  unfold take
  rw [sizeSub_of_le h]
  split_ifs <;> first | rfl | omega

theorem within_take (count : ℕ) :
    Within (take count : ImageReader ε Bytes) fun bytes => bytes.length = count := by
  intro image start hstart
  rw [take_lands hstart]
  split
  · exact trivial
  · refine ⟨Nat.le_add_right _ _,by omega,?_⟩
    show ((image.drop start).take count).length = count
    rw [List.length_take,List.length_drop]
    omega

theorem within_u32 : Within (u32 : ImageReader ε UInt32) fun _ => True :=
  (within_take 4).bind fun _ _ => within_pure trivial

theorem within_u64 : Within (u64 : ImageReader ε UInt64) fun _ => True :=
  (within_take 8).bind fun _ _ => within_pure trivial

theorem within_f32 : Within (f32 : ImageReader ε Float32) fun _ => True :=
  within_u32.bind fun _ _ => within_pure trivial

theorem within_f64 : Within (f64 : ImageReader ε Float) fun _ => True :=
  within_u64.bind fun _ _ => within_pure trivial

theorem within_stringOpt (cap : ℕ) :
    Within (stringOpt cap : ImageReader ε (CText (cap+1))) fun _ => True :=
  within_u32.bind fun _ _ => within_check.bind fun _ _ => (within_take _).bind fun _ _ =>
    within_pure trivial

theorem within_string (cap : ℕ) :
    Within (string cap : ImageReader ε (CText (cap+1))) fun _ => True :=
  within_u32.bind fun _ _ => within_check.bind fun _ _ => within_check.bind fun _ _ =>
    (within_take _).bind fun _ _ => within_pure trivial

theorem within_many (h : Within r P) (n : ℕ) :
    Within (many r n) fun as => as.length = n ∧ ∀ a ∈ as, P a := by
  induction n with
  | zero => exact within_pure ⟨rfl,nofun⟩
  | succ n ih =>
      refine h.bind fun a ha => ih.bind fun as has => within_pure ?_
      exact ⟨congrArg Nat.succ has.1,List.forall_mem_cons.2 ⟨ha,has.2⟩⟩

theorem within_mapM {r : β → ImageReader ε α} (h : ∀ b, Within (r b) P) (bs : List β) :
    Within (bs.mapM r) fun as => ∀ a ∈ as, P a := by
  induction bs with
  | nil => exact within_pure nofun
  | cons b bs ih =>
      rw [List.mapM_cons]
      refine (h b).bind fun a ha => ih.bind fun as has => within_pure ?_
      exact List.forall_mem_cons.2 ⟨ha,has⟩

/-- Where each value stands to the one before it in a relation, they form a chain. -/
theorem within_chain {R : α → α → Prop} {r : Option α → ImageReader ε α}
    (h : ∀ previous, Within (r previous) fun a => P a ∧ ∀ b ∈ previous, R b a) (n : ℕ)
    (previous : Option α) :
    Within (chain r n previous) fun as =>
      as.length = n ∧ (∀ a ∈ as, P a) ∧ (previous.toList++as).IsChain R := by
  induction n generalizing previous with
  | zero =>
      refine within_pure ⟨rfl,nofun,?_⟩
      cases previous with
      | none => exact .nil
      | some b => exact .singleton b
  | succ n ih =>
      refine (h previous).bind fun a ha => (ih (some a)).bind fun as has => within_pure ?_
      refine ⟨congrArg Nat.succ has.1,List.forall_mem_cons.2 ⟨ha.1,has.2.1⟩,?_⟩
      cases previous with
      | none => exact has.2.2
      | some b => exact List.isChain_cons_cons.2 ⟨ha.2 b rfl,has.2.2⟩

/-! ## Sections stay within the image -/

section Sections
variable {note : σ → UInt32 → Option σ} {handle : σ → UInt32 → Option (ImageReader ε σ)}
  {I : σ → Prop} {image : Bytes} {start : ℕ} {s : σ}

/-- A header takes twelve bytes, and its payload ends within the image. -/
theorem sectionHeader_lands (h : start ≤ image.length) :
    (sectionHeader : ImageReader ε (UInt32×ℕ)) image start = .error .malformed ∨
      ∃ tag length, start+12+length ≤ image.length ∧
        (sectionHeader : ImageReader ε (UInt32×ℕ)) image start = .ok ((tag,length),start+12) := by
  have hread : (sectionHeader : ImageReader ε (UInt32×ℕ)) image start =
      (take 12 image start).bind fun x => (check (decide ((loadU64 (x.1.drop 4)).toNat ≤
        sizeSub image.length x.2)) image x.2).bind fun y =>
          .ok ((loadU32 x.1,(loadU64 (x.1.drop 4)).toNat),y.2) := rfl
  rw [hread,take_lands h]
  by_cases hroom : image.length < start+12
  · exact .inl (by rw [if_pos hroom]; rfl)
  · have hstop : start+12 ≤ image.length := Nat.le_of_not_lt hroom
    rw [if_neg hroom]
    simp only [Except.bind,check_apply,sizeSub_of_le hstop,decide_eq_true_eq]
    split_ifs with hlength
    · refine .inr ⟨_,_,?_,rfl⟩
      omega
    · exact .inl rfl

theorem payload_lands {tag : UInt32} (hskip : handle s tag = none → I s)
    (hread : ∀ decode, handle s tag = some decode → Within decode I) {payloadEnd : ℕ}
    (hstart : start ≤ payloadEnd) (hend : payloadEnd ≤ image.length) :
    Lands image start I (payload handle tag payloadEnd s image start) := by
  unfold payload
  cases hdecode : handle s tag with
  | none => exact ⟨hstart,hend,hskip hdecode⟩
  | some decode =>
      have hwithin : Within (do
          let s ← decode
          check ((← position) = payloadEnd)
          return s) I :=
        (hread decode hdecode).bind fun s' hs' => within_position.bind fun _ _ =>
          within_check.bind fun _ _ => within_pure hs'
      exact hwithin image start (hstart.trans hend)

/-- A section moves the position on by twelve bytes at least. -/
theorem oneSection_lands
    (hskip : ∀ s tag s', I s → note s tag = some s' → handle s' tag = none → I s')
    (hread : ∀ s tag s' decode, I s → note s tag = some s' → handle s' tag = some decode →
      Within decode I)
    (hs : I s) (h : start ≤ image.length) :
    Lands image (start+12) I (oneSection note handle s image start) := by
  unfold oneSection
  rw [bind_apply]
  rcases sectionHeader_lands (ε := ε) h with hbad | ⟨tag,length,hlength,hok⟩
  · rw [hbad]
    exact trivial
  · rw [hok]
    show Lands image (start+12) I ((accept (note s tag) image (start+12)).bind fun x =>
      payload handle tag (start+12+length) x.1 image x.2)
    cases hn : note s tag with
    | none => exact trivial
    | some s' =>
        exact payload_lands (hskip s tag s' hs hn) (fun decode => hread s tag s' decode hs hn)
          (Nat.le_add_right _ _) hlength

theorem walkSections_lands
    (hskip : ∀ s tag s', I s → note s tag = some s' → handle s' tag = none → I s')
    (hread : ∀ s tag s' decode, I s → note s tag = some s' → handle s' tag = some decode →
      Within decode I)
    (reserve fuel : ℕ) (hs : I s) (h : start ≤ image.length)
    (hfuel : image.length < start+fuel) :
    Lands image start I (walkSections note handle reserve fuel s image start) := by
  induction fuel generalizing s start with
  | zero => omega
  | succ fuel ih =>
      show Lands image start I ((if sizeSub image.length start ≤ reserve then pure s
        else oneSection note handle s >>= walkSections note handle reserve fuel :
          ImageReader ε σ) image start)
      split
      · exact ⟨le_rfl,h,hs⟩
      · rw [bind_apply]
        have hsection := oneSection_lands hskip hread hs h
        refine Lands.from (hsection.bind fun s' stop hstop hend hs' => ?_)
          (Nat.le_add_right start 12)
        exact ih hs' hend (by omega)

/-- A walk that starts within the image ends within it, and what a skipped and what a read
section keep holds at its end. -/
theorem within_sections
    (hskip : ∀ s tag s', I s → note s tag = some s' → handle s' tag = none → I s')
    (hread : ∀ s tag s' decode, I s → note s tag = some s' → handle s' tag = some decode →
      Within decode I)
    (reserve : ℕ) (hs : I s) : Within (sections note handle reserve s) I := by
  intro image start hstart
  exact walkSections_lands hskip hread reserve _ hs hstart (by omega)

end Sections

/-! ## Reading back what was written -/

/-- What reading an encoding comes to: if it succeeds, the encoding was used up. -/
def Yields (stop : ℕ) (Q : α → Prop) : Except (ReadFault ε) (α×ℕ) → Prop
  | .ok (a,p) => p = stop ∧ Q a
  | .error _ => True

/-- A reader takes an encoding for what it encodes, wherever it lies. -/
def Takes (r : ImageReader ε α) (enc : Bytes) (Q : α → Prop) : Prop :=
  ∀ before after, Yields (before.length+enc.length) Q (r (before++enc++after) before.length)

section Takes
variable {e e' : Bytes}

theorem Takes.mono (h : Takes r e P) (hPQ : ∀ a, P a → Q a) : Takes r e Q := by
  intro before after
  have hr := h before after
  cases hx : r (before++e++after) before.length with
  | error f => trivial
  | ok x =>
      rw [hx] at hr
      exact ⟨hr.1,hPQ _ hr.2⟩

theorem Takes.bind {Q : β → Prop} {k : α → ImageReader ε β} (h : Takes r e P)
    (hk : ∀ a, P a → Takes (k a) e' Q) : Takes (r >>= k) (e++e') Q := by
  intro before after
  have hr := h before (e'++after)
  rw [bind_apply,show before++(e++e')++after = before++e++(e'++after) by simp]
  cases hx : r (before++e++(e'++after)) before.length with
  | error f => trivial
  | ok x =>
      rw [hx] at hr
      obtain ⟨hstop,ha⟩ := hr
      have hrest := hk x.1 ha (before++e) after
      rw [List.length_append,← hstop] at hrest
      show Yields _ Q (k x.1 _ x.2)
      rw [show before++e++(e'++after) = before++e++e'++after by simp]
      rwa [List.length_append,← Nat.add_assoc,← hstop]

theorem Takes.result {before after : Bytes} {stop : ℕ} {a : α} (h : Takes r e Q)
    (hr : r (before++e++after) before.length = .ok (a,stop)) : Q a := by
  have hyields := h before after
  rw [hr] at hyields
  exact hyields.2

theorem takes_pure {a : α} (h : Q a) : Takes (pure a : ImageReader ε α) [] Q :=
  fun _ _ => ⟨rfl,h⟩

/-- Behind a reader that takes no bytes. -/
theorem Takes.next {Q : β → Prop} {k : α → ImageReader ε β} (h : Takes r [] P)
    (hk : ∀ a, P a → Takes (k a) e Q) : Takes (r >>= k) e Q := h.bind hk

/-- With nothing read behind it. -/
theorem Takes.last {Q : β → Prop} {f : α → β} (h : Takes r e P) (hQ : ∀ a, P a → Q (f a)) :
    Takes (do return f (← r)) e Q := by
  rw [← List.append_nil e]
  exact h.bind fun a ha => takes_pure (hQ a ha)

theorem takes_check {c : Bool} : Takes (check c : ImageReader ε Unit) [] fun _ => c = true := by
  unfold check
  split
  · exact takes_pure ‹_›
  · exact fun _ _ => trivial

theorem takes_accept {o : Option α} : Takes (accept o : ImageReader ε α) [] fun a => o = some a := by
  cases o with
  | none => exact fun _ _ => trivial
  | some a => exact takes_pure rfl

theorem takes_remaining : Takes (remaining : ImageReader ε ℕ) [] fun _ => True :=
  fun _ _ => ⟨rfl,trivial⟩

theorem takes_take (bs : Bytes) : Takes (take bs.length : ImageReader ε Bytes) bs (· = bs) := by
  intro before after
  have hstart : before.length ≤ (before++bs++after).length := by
    simp only [List.length_append]
    omega
  rw [take_lands hstart]
  split
  · trivial
  · refine ⟨rfl,?_⟩
    rw [List.append_assoc,List.drop_left,List.take_left]

theorem takes_u32 (v : UInt32) : Takes (u32 : ImageReader ε UInt32) (storeU32 v) (· = v) := by
  have h := takes_take (ε := ε) (storeU32 v)
  rw [storeU32_length] at h
  exact h.last fun bs hbs => by rw [hbs,loadU32_store_nil]

theorem takes_u64 (v : UInt64) : Takes (u64 : ImageReader ε UInt64) (storeU64 v) (· = v) := by
  have h := takes_take (ε := ε) (storeU64 v)
  rw [storeU64_length] at h
  exact h.last fun bs hbs => by rw [hbs,loadU64_store_nil]

theorem takes_f32 (f : Float32) :
    Takes (f32 : ImageReader ε Float32) (storeU32 f.toBits) (· = Float32.ofBits f.toBits) :=
  (takes_u32 f.toBits).last fun _ hv => congrArg Float32.ofBits hv

/-- The bytes of a text are read back as the text. -/
theorem takes_text {cap : ℕ} (t : CText (cap+1)) :
    Takes (do return CText.truncate (CString.ofRaw (← take t.bytes.length)) :
      ImageReader ε (CText (cap+1))) t.bytes (· = t) := by
  refine (takes_take t.bytes).last fun bs hbs => ?_
  rw [hbs]
  show CText.truncate (CString.ofRaw t.toCString.bytes) = t
  rw [CString.ofRaw_bytes,CText.truncate_toCString]

theorem length_stored {cap : ℕ} (hcap : cap < 2^32) (t : CText (cap+1)) :
    (UInt32.ofNat t.bytes.length).toNat = t.bytes.length := by
  have hfits : t.bytes.length < cap+1 := t.fits
  rw [UInt32.toNat_ofNat']
  exact Nat.mod_eq_of_lt (by omega)

theorem takes_stringOpt {cap : ℕ} (hcap : cap < 2^32) (t : CText (cap+1)) :
    Takes (stringOpt cap : ImageReader ε (CText (cap+1)))
      (storeU32 (UInt32.ofNat t.bytes.length)++t.bytes) (· = t) := by
  refine (takes_u32 _).bind fun length hlength => takes_check.next fun _ _ => ?_
  rw [hlength,length_stored hcap]
  exact takes_text t

theorem takes_string {cap : ℕ} (hcap : cap < 2^32) (t : CText (cap+1)) :
    Takes (string cap : ImageReader ε (CText (cap+1)))
      (storeU32 (UInt32.ofNat t.bytes.length)++t.bytes) (· = t) := by
  refine (takes_u32 _).bind fun length hlength => ?_
  refine takes_check.next fun _ _ => takes_check.next fun _ _ => ?_
  rw [hlength,length_stored hcap]
  exact takes_text t

theorem takes_many {γ : Type} {enc : γ → Bytes} {R : γ → α → Prop} {cs : List γ}
    (h : ∀ c ∈ cs, Takes r (enc c) (R c)) :
    Takes (many r cs.length) (cs.flatMap enc) fun as => List.Forall₂ R cs as := by
  induction cs with
  | nil => exact takes_pure .nil
  | cons c cs ih =>
      obtain ⟨hc,hcs⟩ := List.forall_mem_cons.1 h
      exact hc.bind fun a ha => (ih hcs).last fun as has => .cons ha has

theorem takes_chain {γ : Type} {enc : γ → Bytes} {R : γ → α → Prop}
    {r : Option α → ImageReader ε α} {cs : List γ}
    (h : ∀ c ∈ cs, ∀ previous, Takes (r previous) (enc c) (R c)) (previous : Option α) :
    Takes (chain r cs.length previous) (cs.flatMap enc) fun as => List.Forall₂ R cs as := by
  induction cs generalizing previous with
  | nil => exact takes_pure .nil
  | cons c cs ih =>
      obtain ⟨hc,hcs⟩ := List.forall_mem_cons.1 h
      exact (hc previous).bind fun a ha => (ih hcs (some a)).last fun as has => .cons ha has

end Takes

/-! ## Reading back sections -/

/-- A walk over sections given by their tags and payloads. -/
inductive Walked (note : σ → UInt32 → Option σ) (handle : σ → UInt32 → Option (ImageReader ε σ)) :
    σ → List (UInt32×Bytes) → σ → Prop
  | done (s : σ) : Walked note handle s [] s
  | skip {s s' s'' : σ} {tag : UInt32} {payload : Bytes} {rest : List (UInt32×Bytes)}
      (hnote : note s tag = some s') (hskip : handle s' tag = none)
      (hrest : Walked note handle s' rest s'') : Walked note handle s ((tag,payload)::rest) s''
  | read {s s' t s'' : σ} {tag : UInt32} {payload : Bytes} {rest : List (UInt32×Bytes)}
      {decode : ImageReader ε σ} (hnote : note s tag = some s')
      (hread : handle s' tag = some decode) (before after : Bytes)
      (hdecode : decode (before++payload++after) before.length =
        .ok (t,before.length+payload.length))
      (hrest : Walked note handle t rest s'') : Walked note handle s ((tag,payload)::rest) s''

/-- How a section is written. -/
def encodeSection (p : UInt32×Bytes) : Bytes :=
  storeU32 p.1++storeU64 (UInt64.ofNat p.2.length)++p.2

section Walks
variable {note : σ → UInt32 → Option σ} {handle : σ → UInt32 → Option (ImageReader ε σ)}

theorem takes_sectionHeader (tag : UInt32) {payload : Bytes} (h : payload.length < 2^64) :
    Takes (sectionHeader : ImageReader ε (UInt32×ℕ))
      (storeU32 tag++storeU64 (UInt64.ofNat payload.length)) (· = (tag,payload.length)) := by
  have htake := takes_take (ε := ε) (storeU32 tag++storeU64 (UInt64.ofNat payload.length))
  rw [List.length_append,storeU32_length,storeU64_length] at htake
  rw [← List.append_nil (storeU32 tag++storeU64 (UInt64.ofNat payload.length))]
  refine htake.bind fun header hheader => takes_remaining.next fun _ _ => ?_
  refine takes_check.last fun _ _ => ?_
  have hdrop : (storeU32 tag++storeU64 (UInt64.ofNat payload.length)).drop 4 =
      storeU64 (UInt64.ofNat payload.length) := List.drop_left' (storeU32_length tag)
  rw [hheader,hdrop,loadU32_store,loadU64_store_nil,UInt64.toNat_ofNat',Nat.mod_eq_of_lt h]

/-- A payload that was read is used up, or it was skipped. -/
theorem payload_cases {s s' : σ} {tag : UInt32} {payloadEnd start stop : ℕ} {image : Bytes}
    (h : payload handle tag payloadEnd s image start = .ok (s',stop)) : stop = payloadEnd ∧
      (handle s tag = none ∧ s' = s ∨ ∃ decode, handle s tag = some decode ∧
        decode image start = .ok (s',payloadEnd)) := by
  unfold payload at h
  cases hdecode : handle s tag with
  | none =>
      rw [hdecode] at h
      obtain ⟨rfl,rfl⟩ := Prod.mk.inj (Except.ok.inj h)
      exact ⟨rfl,.inl ⟨rfl,rfl⟩⟩
  | some decode =>
      rw [hdecode] at h
      cases hr : decode image start with
      | error f =>
          have hbad : (Except.error f : Except (ReadFault ε) (σ×ℕ)) = .ok (s',stop) := by
            rw [← h]
            show _ = (decode image start).bind _
            rw [hr]
            rfl
          cases hbad
      | ok x =>
          have hgood : (check (ε := ε) (decide (x.2 = payloadEnd)) image x.2).bind
              (fun y => .ok (x.1,y.2)) = .ok (s',stop) := by
            rw [← h]
            show _ = (decode image start).bind _
            rw [hr]
            rfl
          rw [check_apply] at hgood
          split at hgood
          · rename_i hend
            rw [decide_eq_true_eq] at hend
            obtain ⟨rfl,rfl⟩ := Prod.mk.inj (Except.ok.inj hgood)
            exact ⟨hend,.inr ⟨decode,rfl,by rw [hr,← hend]⟩⟩
          · cases hgood

/-- One section that was written is read as one. -/
theorem oneSection_walked {s s' : σ} {tag : UInt32} {body before after : Bytes} {stop : ℕ}
    (hlength : body.length < 2^64)
    (h : oneSection note handle s (before++encodeSection (tag,body)++after) before.length =
      .ok (s',stop)) :
    stop = before.length+(encodeSection (tag,body)).length ∧
      ∀ rest s'', Walked note handle s' rest s'' → Walked note handle s ((tag,body)::rest) s'' := by
  have hheader := takes_sectionHeader (ε := ε) tag hlength before (body++after)
  have himage : before++encodeSection (tag,body)++after =
      before++(storeU32 tag++storeU64 (UInt64.ofNat body.length))++(body++after) := by
    simp [encodeSection]
  have hsize : before.length+(encodeSection (tag,body)).length = before.length+12+body.length := by
    simp [encodeSection]
    omega
  rw [himage] at h
  rw [hsize]
  unfold oneSection at h
  rw [bind_apply] at h
  cases hr : (sectionHeader : ImageReader ε (UInt32×ℕ))
      (before++(storeU32 tag++storeU64 (UInt64.ofNat body.length))++(body++after)) before.length with
  | error f =>
      rw [hr] at h
      cases h
  | ok x =>
      rw [hr] at hheader
      obtain ⟨hstop,htag⟩ := hheader
      rw [List.length_append,storeU32_length,storeU64_length] at hstop
      rw [hr,show x = ((tag,body.length),before.length+12) from Prod.ext htag hstop] at h
      have hrest : (accept (ε := ε) (note s tag) (before++(storeU32 tag++
          storeU64 (UInt64.ofNat body.length))++(body++after)) (before.length+12)).bind
            (fun y => payload handle tag (before.length+12+body.length) y.1
              (before++(storeU32 tag++storeU64 (UInt64.ofNat body.length))++(body++after)) y.2) =
            .ok (s',stop) := h
      cases hnote : note s tag with
      | none =>
          rw [hnote] at hrest
          cases hrest
      | some s₁ =>
          rw [hnote] at hrest
          obtain ⟨hstop,hskip | ⟨decode,hread,hdecode⟩⟩ := payload_cases hrest
          · obtain ⟨hskip,rfl⟩ := hskip
            exact ⟨hstop,fun rest s'' hw => .skip hnote hskip hw⟩
          · refine ⟨hstop,fun rest s'' hw => .read hnote hread
              (before++(storeU32 tag++storeU64 (UInt64.ofNat body.length))) after ?_ hw⟩
            rw [List.append_assoc _ body after,List.length_append,List.length_append,
              storeU32_length,storeU64_length]
            exact hdecode

/-- A walk that succeeds over what was written has walked the sections one by one. -/
theorem walkSections_walked {s s' : σ} {parts : List (UInt32×Bytes)} {before after : Bytes}
    {reserve fuel stop : ℕ} (hlength : ∀ p ∈ parts, p.2.length < 2^64)
    (hafter : after.length = reserve)
    (h : walkSections note handle reserve fuel s (before++parts.flatMap encodeSection++after)
      before.length = .ok (s',stop)) : Walked note handle s parts s' := by
  induction parts generalizing s before fuel with
  | nil =>
      cases fuel with
      | zero => cases h
      | succ fuel =>
          have hround : (if sizeSub (before++[]++after).length before.length ≤ reserve then
              pure s else oneSection note handle s >>= walkSections note handle reserve fuel :
              ImageReader ε σ) (before++[]++after) before.length = .ok (s',stop) := h
          rw [if_pos] at hround
          · obtain ⟨rfl,-⟩ := Prod.mk.inj (Except.ok.inj hround)
            exact .done s
          · rw [sizeSub_of_le (by simp)]
            simp [hafter]
  | cons p parts ih =>
      obtain ⟨hp,hparts⟩ := List.forall_mem_cons.1 hlength
      have himage : before++(p::parts).flatMap encodeSection++after =
          before++encodeSection p++(parts.flatMap encodeSection++after) := by simp
      rw [himage] at h
      cases fuel with
      | zero => cases h
      | succ fuel =>
          have hround : (if sizeSub (before++encodeSection p++
                (parts.flatMap encodeSection++after)).length before.length ≤ reserve then pure s
              else oneSection note handle s >>= walkSections note handle reserve fuel :
              ImageReader ε σ) (before++encodeSection p++(parts.flatMap encodeSection++after))
                before.length = .ok (s',stop) := h
          rw [if_neg] at hround
          · rw [bind_apply] at hround
            cases hsection : oneSection note handle s (before++encodeSection p++
                (parts.flatMap encodeSection++after)) before.length with
            | error f =>
                rw [hsection] at hround
                cases hround
            | ok x =>
                obtain ⟨hstop,hwalk⟩ := oneSection_walked hp hsection
                rw [hsection] at hround
                have hrest : walkSections note handle reserve fuel x.1 (before++encodeSection p++
                    (parts.flatMap encodeSection++after)) x.2 = .ok (s',stop) := hround
                rw [hstop,← List.length_append,← List.append_assoc] at hrest
                exact hwalk parts s' (ih hparts hrest)
          · rw [sizeSub_of_le (by simp)]
            simp [encodeSection]
            omega

end Walks

end ImageReader

end Atperson.Wire
