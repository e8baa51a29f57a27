import Atperson.Wire.LittleEndian

/-!
# Checksummed frames and the scan over them

A frame is a length word, a checksum word, a kind byte and a nonempty body of
bounded length. `Framing.next` takes one frame off the front of a byte list, or
nothing at all. `Framing.scan` folds a state over the frames of a list and stops
at the first position where no frame can be taken or the state refuses it; what
is left over is returned with the state.

`Reads` is the relational reading of the scan. It composes, and it is stable
under bytes appended behind it, so a log is reasoned about frame by frame.
-/
namespace Atperson.Wire

structure Frame where
  kind : UInt8
  body : Bytes
  deriving DecidableEq

structure Framing where
  bodyMax : ℕ
  bodyMax_lt : bodyMax < 2^32
  checksum : Bytes → UInt32

namespace Framing
variable (F : Framing)

def Fits (f : Frame) : Prop := f.body ≠ []∧f.body.length ≤ F.bodyMax

def encode (f : Frame) : Bytes :=
  storeU32 (UInt32.ofNat f.body.length)++(storeU32 (F.checksum f.body)++f.kind::f.body)

/-- Take one frame off the front. The length is checked against the limit and
against the bytes at hand before the body is looked at. -/
def next (bs : Bytes) : Option (Frame×Bytes) :=
  match bs.drop 8 with
  | [] => none
  | kind::rest =>
      let len := (loadU32 bs).toNat
      if len = 0 ∨ F.bodyMax < len ∨ rest.length < len then none
      else if F.checksum (rest.take len) ≠ loadU32 (bs.drop 4) then none
      else some (⟨kind,rest.take len⟩,rest.drop len)

@[simp] theorem encode_length (f : Frame) : (F.encode f).length = 9+f.body.length := by
  simp only [encode,List.length_append,storeU32_length,List.length_cons]
  omega

@[simp] theorem next_nil : F.next [] = none := rfl

theorem loadU32_take (bs : Bytes) {k : ℕ} (h : 4 ≤ k) : loadU32 (bs.take k) = loadU32 bs := by
  rw [loadU32,loadU32,List.take_take,Nat.min_eq_left h]

variable {F}

theorem length_word {f : Frame} (h : F.Fits f) :
    (UInt32.ofNat f.body.length).toNat = f.body.length := by
  have hb := F.bodyMax_lt
  have := h.2
  rw [UInt32.toNat_ofNat',Nat.mod_eq_of_lt (by omega)]

theorem next_encode {f : Frame} (h : F.Fits f) (rest : Bytes) :
    F.next (F.encode f++rest) = some (f,rest) := by
  have hlen : (loadU32 (F.encode f++rest)).toNat = f.body.length := by
    rw [encode,List.append_assoc,loadU32_store,length_word h]
  have hcrc : loadU32 ((F.encode f++rest).drop 4) = F.checksum f.body := by
    rw [encode,List.append_assoc,List.drop_left' (storeU32_length _),List.append_assoc,
      loadU32_store]
  have hdrop : (F.encode f++rest).drop 8 = f.kind::(f.body++rest) := by
    rw [encode,List.append_assoc,List.append_assoc,← List.append_assoc (storeU32 _)]
    exact List.drop_left' (by simp)
  have hne : f.body.length ≠ 0 := by simpa using h.1
  have hmax := h.2
  unfold next
  rw [hdrop]
  simp only [hlen,hcrc,List.take_left,List.drop_left,List.length_append]
  rw [if_neg (by omega),if_neg (by simp)]

/-- A frame that was cut short is no frame. -/
theorem next_torn {f : Frame} (h : F.Fits f) {k : ℕ} (hk : k < (F.encode f).length) :
    F.next ((F.encode f).take k) = none := by
  rw [encode_length] at hk
  unfold next
  rcases Nat.lt_or_ge k 9 with h9 | h9
  · have : ((F.encode f).take k).drop 8 = [] := by
      rw [List.drop_eq_nil_iff,List.length_take]
      omega
    rw [this]
  · have hlen : (loadU32 ((F.encode f).take k)).toNat = f.body.length := by
      rw [loadU32_take _ (by omega),encode,loadU32_store,length_word h]
    have hrest : (((F.encode f).take k).drop 8).length = k-8 := by
      rw [List.length_drop,List.length_take,encode_length]
      omega
    cases hd : ((F.encode f).take k).drop 8 with
    | nil => rfl
    | cons kind rest =>
        rw [hd,List.length_cons] at hrest
        simp only [hlen]
        rw [if_pos (by omega)]

/-- What is accepted is the encoding of a frame, with nothing else in front. -/
theorem next_exact {bs rest : Bytes} {f : Frame} (h : F.next bs = some (f,rest)) :
    F.Fits f ∧ bs = F.encode f++rest := by
  unfold next at h
  cases hd : bs.drop 8 with
  | nil => simp [hd] at h
  | cons kind tail =>
      have hl := congrArg List.length hd
      rw [List.length_drop,List.length_cons] at hl
      rw [hd] at h
      simp only at h
      split at h
      · cases h
      rename_i hbad
      simp only [not_or,Nat.not_lt] at hbad
      split at h
      · cases h
      rename_i hcrc
      rw [not_not] at hcrc
      obtain ⟨rfl,rfl⟩ := Prod.mk.inj (Option.some.inj h)
      have hbody : (tail.take (loadU32 bs).toNat).length = (loadU32 bs).toNat := by
        rw [List.length_take]
        omega
      refine ⟨⟨fun hnil => ?_,by rw [hbody]; omega⟩,?_⟩
      · exact hbad.1 (by rw [← hbody]; exact congrArg List.length hnil)
      · simp only [encode,hbody,hcrc,UInt32.ofNat_toNat]
        rw [storeU32_load (by omega),storeU32_load (by rw [List.length_drop]; omega),
          List.append_assoc,List.append_assoc,List.cons_append,List.take_append_drop,← hd,
          show bs.drop 8 = (bs.drop 4).drop 4 by rw [List.drop_drop],List.take_append_drop,
          List.take_append_drop]

theorem next_append {bs rest : Bytes} {f : Frame} (h : F.next bs = some (f,rest))
    (x : Bytes) : F.next (bs++x) = some (f,rest++x) := by
  obtain ⟨hf,rfl⟩ := next_exact h
  rw [List.append_assoc]
  exact next_encode hf _

theorem next_shorter {bs rest : Bytes} {f : Frame} (h : F.next bs = some (f,rest)) :
    rest.length < bs.length := by
  obtain ⟨-,rfl⟩ := next_exact h
  rw [List.length_append,encode_length]
  omega

/-! ## The scan -/

section Scan
variable {σ : Type*} (F) (apply : σ → Frame → Option σ)

def scanFuel : ℕ → σ → Bytes → σ×Bytes
  | 0, s, bs => (s,bs)
  | fuel+1, s, bs =>
      match F.next bs with
      | none => (s,bs)
      | some (f,rest) =>
          match apply s f with
          | none => (s,bs)
          | some s' => scanFuel fuel s' rest

/-- Each frame shortens the list, so its length is fuel enough. -/
def scan (s : σ) (bs : Bytes) : σ×Bytes := scanFuel F apply bs.length s bs

inductive Reads : σ → Bytes → σ → Bytes → Prop
  | done (s : σ) (bs : Bytes) : Reads s bs s bs
  | frame {s s' t : σ} {bs rest out : Bytes} {f : Frame} : F.next bs = some (f,rest) →
      apply s f = some s' → Reads s' rest t out → Reads s bs t out

def Stuck (s : σ) (bs : Bytes) : Prop :=
  ∀ f rest, F.next bs = some (f,rest) → apply s f = none

variable {F apply}

theorem scanFuel_reads (fuel : ℕ) (s : σ) (bs : Bytes) :
    Reads F apply s bs (scanFuel F apply fuel s bs).1 (scanFuel F apply fuel s bs).2 := by
  induction fuel generalizing s bs with
  | zero => exact .done s bs
  | succ fuel ih =>
      unfold scanFuel
      split
      · exact .done s bs
      · rename_i f rest hn
        split
        · exact .done s bs
        · rename_i s' ha
          exact .frame hn ha (ih s' rest)

theorem scanFuel_stuck {fuel : ℕ} {s : σ} {bs : Bytes} (h : bs.length ≤ fuel) :
    Stuck F apply (scanFuel F apply fuel s bs).1 (scanFuel F apply fuel s bs).2 := by
  induction fuel generalizing s bs with
  | zero =>
      obtain rfl := List.length_eq_zero_iff.mp (Nat.le_zero.mp h)
      intro f rest hn
      simp [scanFuel] at hn
  | succ fuel ih =>
      unfold scanFuel
      split
      · rename_i hn
        intro f rest h'
        simp [hn] at h'
      · rename_i f rest hn
        split
        · rename_i ha
          intro g r h'
          obtain ⟨rfl,-⟩ := Prod.mk.inj (Option.some.inj (hn.symm.trans h'))
          exact ha
        · have := next_shorter hn
          exact ih (by omega)

theorem Reads.stuck_unique {s t t' : σ} {bs out out' : Bytes} (h : Reads F apply s bs t out)
    (hs : Stuck F apply t out) (h' : Reads F apply s bs t' out')
    (hs' : Stuck F apply t' out') : t = t'∧out = out' := by
  induction h with
  | done s bs =>
      cases h' with
      | done => exact ⟨rfl,rfl⟩
      | frame hn ha _ => simp [hs _ _ hn] at ha
  | frame hn ha _ ih =>
      cases h' with
      | done => simp [hs' _ _ hn] at ha
      | frame hn' ha' h'' =>
          obtain ⟨rfl,rfl⟩ := Prod.mk.inj (Option.some.inj (hn.symm.trans hn'))
          obtain rfl := Option.some.inj (ha.symm.trans ha')
          exact ih hs h''

/-- The scan returns what reads as far as anything can. -/
theorem scan_eq_iff {s t : σ} {bs out : Bytes} :
    scan F apply s bs = (t,out) ↔ Reads F apply s bs t out∧Stuck F apply t out := by
  have hr : Reads F apply s bs (scan F apply s bs).1 (scan F apply s bs).2 :=
    scanFuel_reads _ _ _
  have hs : Stuck F apply (scan F apply s bs).1 (scan F apply s bs).2 := scanFuel_stuck le_rfl
  constructor
  · intro h
    rw [h] at hr hs
    exact ⟨hr,hs⟩
  · rintro ⟨hr',hs'⟩
    obtain ⟨h1,h2⟩ := hr.stuck_unique hs hr' hs'
    exact Prod.ext h1 h2

theorem stuck_nil (s : σ) : Stuck F apply s [] := by
  intro f rest h
  simp at h

theorem stuck_torn {f : Frame} (h : F.Fits f) {k : ℕ} (hk : k < (F.encode f).length) (s : σ) :
    Stuck F apply s ((F.encode f).take k) := by
  intro g rest hn
  simp [next_torn h hk] at hn

theorem scan_reads_all {s t : σ} {bs : Bytes} :
    scan F apply s bs = (t,[]) ↔ Reads F apply s bs t [] :=
  scan_eq_iff.trans (and_iff_left (stuck_nil t))

theorem Reads.trans {s t u : σ} {bs mid out : Bytes} (h : Reads F apply s bs t mid)
    (h' : Reads F apply t mid u out) : Reads F apply s bs u out := by
  induction h with
  | done => exact h'
  | frame hn ha _ ih => exact .frame hn ha (ih h')

theorem Reads.append {s t : σ} {bs out : Bytes} (h : Reads F apply s bs t out) (x : Bytes) :
    Reads F apply s (bs++x) t (out++x) := by
  induction h with
  | done s bs => exact .done s _
  | frame hn ha _ ih => exact .frame (next_append hn x) ha ih

/-- Behind a log that reads to its end, whatever follows is read next. -/
theorem Reads.behind {s t u : σ} {bs x out : Bytes} (h : Reads F apply s bs t [])
    (h' : Reads F apply t x u out) : Reads F apply s (bs++x) u out :=
  (h.append x).trans h'

/-- What was read stands in front of what was left, and reads alone as it did there. -/
theorem Reads.consumed {s t : σ} {bs out : Bytes} (h : Reads F apply s bs t out) :
    ∃ pre, bs = pre++out ∧ Reads F apply s pre t [] := by
  induction h with
  | done s bs => exact ⟨[],rfl,.done s []⟩
  | frame hn ha _ ih =>
      obtain ⟨pre,rfl,hr⟩ := ih
      obtain ⟨hf,rfl⟩ := next_exact hn
      exact ⟨F.encode _++pre,(List.append_assoc _ _ _).symm,.frame (next_encode hf pre) ha hr⟩

theorem reads_encode {f : Frame} (hf : F.Fits f) {s t : σ} (ha : apply s f = some t) :
    Reads F apply s (F.encode f) t [] := by
  have hn : F.next (F.encode f) = some (f,[]) := by simpa using next_encode hf []
  exact .frame hn ha (.done t [])

/-- An invariant that every accepted frame keeps holds of what a scan returns. -/
theorem Reads.invariant {P : σ → Prop} {s t : σ} {bs out : Bytes}
    (h : Reads F apply s bs t out) (hs : P s)
    (step : ∀ s f s', P s → apply s f = some s' → P s') : P t := by
  induction h with
  | done => exact hs
  | frame _ ha _ ih => exact ih (step _ _ _ hs ha)

end Scan
end Framing
end Atperson.Wire
