import Atperson.Protocol.Identifiers
import Atperson.Wire.Delimited

/-!
# The identifier grammar

The grammars of DIDs, handles, NSIDs, record keys and AT URIs, and what the scanners accept. They
meet the grammar on all texts but a few kinds: short DIDs, hyphens in a DID method or in the name
of an NSID, capitals in that name, a handle with a dot behind it, and URIs with such parts or with
a record key that is none.
-/
namespace Atperson.Protocol
open Wire
open Sync (isDid isDidByte isMethodByte)

/-! ## The grammar -/

structure Label (w : Bytes) : Prop where
  filled : w ≠ []
  bytes : ∀ c ∈ w, isLabelByte c = true
  first : w.head? ≠ some 45
  last : w.getLast? ≠ some 45

/-- `did:method:id`, where the method may have hyphens. -/
structure DidForm (v method id : Bytes) : Prop where
  spelled : v = utf8 "did:"++(method++58::id)
  methodFilled : method ≠ []
  methodBytes : ∀ c ∈ method, isMethodByte c = true
  idFilled : id ≠ []
  idBytes : ∀ c ∈ id, isDidByte c = true
  ending : id.getLast? ≠ some 58
  size : v.length ≤ 2048

def Did (v : Bytes) : Prop := ∃ method id, DidForm v method id ∧ 45 ∉ method

/-- Labels with a dot behind each, and a last part. -/
structure DottedForm (v : Bytes) (labels : List Bytes) (last : Bytes) : Prop where
  spelled : v = joined 46 labels last
  parts : ∀ w ∈ labels, Label w

def Handle (v : Bytes) : Prop :=
  ∃ labels last, DottedForm v labels last ∧ labels ≠ [] ∧ Label last

def isUpper (c : UInt8) : Bool := 65 ≤ c && c ≤ 90

/-- Two labels or more and a name, which may have hyphens within. -/
structure NsidForm (v : Bytes) (labels : List Bytes) (name : Bytes) : Prop
    extends DottedForm v labels name where
  segments : 2 ≤ labels.length
  filled : name ≠ []
  bytes : ∀ c ∈ name, isLabelByte c = true ∨ isUpper c = true
  first : name.head? ≠ some 45
  last : name.getLast? ≠ some 45

def Nsid (v : Bytes) : Prop := ∃ labels name, NsidForm v labels name ∧ 45 ∉ name

structure RecordKey (v : Bytes) : Prop where
  filled : v ≠ []
  size : v.length ≤ 512
  bytes : ∀ c ∈ v, isKeyByte c = true
  dot : v ≠ [46]
  dots : v ≠ [46,46]

/-- What a URI may end with when its record key is not looked at. -/
structure OpenKey (v : Bytes) : Prop where
  filled : v ≠ []
  slash : (47 : UInt8) ∉ v
  query : (63 : UInt8) ∉ v
  fragment : (35 : UInt8) ∉ v

/-! ## DIDs -/

theorem DidForm.unique {v method id method' id' : Bytes} (h : DidForm v method id)
    (h' : DidForm v method' id') : method = method' ∧ id = id' := by
  have hfree : ∀ {m i}, DidForm v m i → (58 : UInt8) ∉ m := fun h hmem =>
    absurd (h.methodBytes _ hmem) (by decide)
  exact delimited_inj (hfree h) (hfree h')
    (List.append_cancel_left (h.spelled.symm.trans h'.spelled))

theorem isDidByte_of_method {c : UInt8} (h : isMethodByte c = true) : isDidByte c = true := by
  simp only [isMethodByte,isDidByte,Bool.or_eq_true] at h ⊢
  tauto

theorem isDid_iff {v : Bytes} :
    isDid v = true ↔ ∃ method id, DidForm v method id ∧ 8 < v.length := by
  constructor
  · intro h
    simp only [isDid,Bool.and_eq_true,decide_eq_true_eq,List.isPrefixOf_iff_prefix] at h
    obtain ⟨⟨⟨⟨⟨⟨⟨⟨⟨rest,rfl⟩,hshort⟩,hlong⟩,hlast⟩,hbytes⟩,hcolon⟩,hmethod⟩,hid⟩,hmethodBytes⟩ := h
    rw [show List.drop 4 (utf8 "did:"++rest) = rest from rfl] at hcolon hmethod hid hmethodBytes
    obtain ⟨id,hsplit⟩ := delimited_of_mem (length_takeWhile_lt.mp hcolon)
    refine ⟨rest.takeWhile (· ≠ 58),id,⟨by rw [← hsplit],hmethod,List.all_eq_true.mp hmethodBytes,
      ?_,?_,?_,hlong⟩,hshort⟩
    · rintro rfl
      have hlength := congrArg List.length hsplit
      rw [List.length_append,List.length_singleton] at hlength
      omega
    · intro c hc
      refine List.all_eq_true.mp hbytes c (List.mem_append_right _ ?_)
      rw [hsplit]
      exact List.mem_append_right _ (List.mem_cons_of_mem _ hc)
    · have hid : id ≠ [] := by
        rintro rfl
        have hlength := congrArg List.length hsplit
        rw [List.length_append,List.length_singleton] at hlength
        omega
      rwa [hsplit,← List.append_assoc,List.getLast?_append_of_ne_nil _ (List.cons_ne_nil _ _),
        List.getLast?_cons_of_ne_nil hid] at hlast
  · rintro ⟨method,id,h,hshort⟩
    have hrest : v.drop 4 = method++58::id := by
      rw [h.spelled]
      rfl
    have hfree : (58 : UInt8) ∉ method := fun hmem => absurd (h.methodBytes _ hmem) (by decide)
    simp only [isDid,hrest,takeWhile_delimited hfree,Bool.and_eq_true,decide_eq_true_eq,
      List.isPrefixOf_iff_prefix,List.length_append,List.length_cons]
    have hpos : 0 < id.length := List.length_pos_iff.mpr h.idFilled
    refine ⟨⟨⟨⟨⟨⟨⟨⟨⟨_,h.spelled.symm⟩,hshort⟩,h.size⟩,?_⟩,?_⟩,by omega⟩,h.methodFilled⟩,by omega⟩,
      List.all_eq_true.mpr h.methodBytes⟩
    · rw [h.spelled,← List.append_assoc,List.getLast?_append_of_ne_nil _ (List.cons_ne_nil _ _),
        List.getLast?_cons_of_ne_nil h.idFilled]
      exact h.ending
    · refine List.all_eq_true.mpr fun c hc => ?_
      rw [h.spelled] at hc
      rcases List.mem_append.mp hc with hdid | hc
      · exact (show ∀ c ∈ utf8 "did:", isDidByte c = true by decide +kernel) c hdid
      · rcases List.mem_append.mp hc with hm | hc
        · exact isDidByte_of_method (h.methodBytes c hm)
        · rcases List.mem_cons.mp hc with rfl | hi
          · rfl
          · exact h.idBytes c hi

/-! ## Labels -/

/-- What the loops check of a label. -/
def isLabel (w : Bytes) : Bool := !badEdges w && w.all isLabelByte

theorem isLabel_iff {w : Bytes} : isLabel w = true ↔ Label w := by
  simp only [isLabel,badEdges,Bool.and_eq_true,Bool.not_eq_true',Bool.or_eq_false_iff,
    decide_eq_false_iff_not,List.all_eq_true]
  exact ⟨fun ⟨⟨⟨hfilled,hfirst⟩,hlast⟩,hbytes⟩ => ⟨hfilled,hbytes,hfirst,hlast⟩,
    fun h => ⟨⟨⟨h.filled,h.first⟩,h.last⟩,h.bytes⟩⟩

theorem free_of_bytes {w : Bytes} (h : ∀ c ∈ w, isLabelByte c = true) : (46 : UInt8) ∉ w :=
  fun hmem => absurd (h _ hmem) (by decide)

theorem nsidFrom_word {w : Bytes} (hw : (46 : UInt8) ∉ w) (label : Bytes) (n : ℕ) (rest : Bytes) :
    nsidFrom label n (w++rest) =
      if w.all isLabelByte then nsidFrom (label++w) n rest else none := by
  induction w generalizing label with
  | nil => rw [List.nil_append,List.append_nil]; rfl
  | cons c w ih =>
    rw [List.mem_cons,not_or] at hw
    rw [List.cons_append,nsidFrom,if_neg (Ne.symm hw.1),List.all_cons]
    cases isLabelByte c with
    | true => rw [if_pos rfl,ih hw.2,List.append_assoc,Bool.true_and]; rfl
    | false => rfl

/-- The loop over dotted words: the labels are counted, and the last word is left. -/
theorem nsidFrom_joined {labels : List Bytes} {last : Bytes}
    (hlabels : ∀ w ∈ labels, (46 : UInt8) ∉ w) (hlast : (46 : UInt8) ∉ last) (n : ℕ) :
    nsidFrom [] n (joined 46 labels last) =
      if labels.all isLabel && last.all isLabelByte then some (last,n+labels.length) else none := by
  induction labels generalizing n with
  | nil =>
    have h := nsidFrom_word hlast [] n []
    rw [List.append_nil,List.nil_append] at h
    rw [joined_nil,h]
    rfl
  | cons w labels ih =>
    rw [List.forall_mem_cons] at hlabels
    rw [joined_cons,nsidFrom_word hlabels.1,List.nil_append,List.all_cons,isLabel]
    cases w.all isLabelByte with
    | false => rw [Bool.and_false]; rfl
    | true =>
      rw [if_pos rfl,nsidFrom,if_pos rfl,Bool.and_true]
      cases badEdges w with
      | true => rfl
      | false =>
        rw [if_neg Bool.false_ne_true,ih hlabels.2,List.length_cons,Nat.add_right_comm]
        rfl

theorem handleFrom_joined {labels : List Bytes} {last : Bytes}
    (hlabels : ∀ w ∈ labels, (46 : UInt8) ∉ w) (hlast : (46 : UInt8) ∉ last) {n : ℕ}
    (hn : (joined 46 labels last).length ≤ n) :
    handleFrom n (joined 46 labels last) = (labels.all isLabel && (last = [] || isLabel last)) := by
  induction labels generalizing n with
  | nil =>
    rw [joined_nil] at hn ⊢
    cases n with
    | zero =>
      obtain rfl := List.eq_nil_of_length_eq_zero (Nat.le_zero.mp hn)
      rfl
    | succ n =>
      unfold handleFrom
      dsimp only
      rw [takeWhile_whole hlast]
      by_cases hnil : last = []
      · rw [if_pos hnil,hnil]
        rfl
      · rw [if_neg hnil,isLabel]
        simp only [hnil,decide_false,Bool.false_or,List.all_nil,Bool.true_and]
        cases badEdges last <;> cases last.all isLabelByte <;> rfl
  | cons w labels ih =>
    rw [List.forall_mem_cons] at hlabels
    rw [joined_cons] at hn ⊢
    rw [List.length_append,List.length_cons] at hn
    cases n with
    | zero => omega
    | succ n =>
      unfold handleFrom
      dsimp only
      have hdrop : (w++46::joined 46 labels last).drop (w.length+1) = joined 46 labels last := by
        rw [← List.drop_drop,List.drop_left]
        rfl
      have hmore : w.length ≠ (w++46::joined 46 labels last).length := by
        rw [List.length_append,List.length_cons]
        omega
      rw [takeWhile_delimited hlabels.1,if_neg (by simp),hdrop,ih hlabels.2 (by omega),
        if_neg hmore,List.all_cons]
      have hlabel : isLabel w = (!badEdges w && w.all isLabelByte) := rfl
      rw [hlabel]
      cases badEdges w <;> cases w.all isLabelByte <;> rfl

/-! ## Handles -/

theorem Label.free {w : Bytes} (h : Label w) : (46 : UInt8) ∉ w := free_of_bytes h.bytes

/-- The bytes of a handle are none that the scanner forbids. -/
theorem handle_bytes {labels : List Bytes} {last : Bytes} (hlabels : ∀ w ∈ labels, Label w)
    (hlast : last = [] ∨ Label last) {c : UInt8} (hc : c ∈ joined 46 labels last) :
    isLabelByte c = true ∨ c = 46 := by
  rcases mem_joined hc with ⟨w,hw,hc⟩ | hdot | hc
  · exact .inl ((hlabels w hw).bytes c hc)
  · exact .inr hdot
  · rcases hlast with rfl | hlast
    · cases hc
    · exact .inl (hlast.bytes c hc)

/-- The scanner takes two labels or more, and also labels with a dot behind the last. -/
theorem isHandle_iff {v : Bytes} : isHandle v = true ↔
    ∃ labels last, DottedForm v labels last ∧ labels ≠ [] ∧ (last = [] ∨ Label last) := by
  have hparts : ∀ {labels : List Bytes} {last : Bytes}, (labels.all isLabel &&
      (last = [] || isLabel last)) = true ↔ (∀ w ∈ labels, Label w) ∧ (last = [] ∨ Label last) := by
    intro labels last
    simp only [Bool.and_eq_true,List.all_eq_true,Bool.or_eq_true,decide_eq_true_eq,isLabel_iff]
  constructor
  · intro h
    simp only [isHandle,Bool.and_eq_true,List.contains_iff_mem] at h
    obtain ⟨⟨⟨-,hdot⟩,-⟩,hscan⟩ := h
    obtain ⟨labels,last,rfl,hfree,hlast⟩ := exists_joined 46 v
    rw [handleFrom_joined hfree hlast le_rfl,hparts] at hscan
    refine ⟨labels,last,⟨rfl,hscan.1⟩,?_,hscan.2⟩
    rintro rfl
    exact hlast hdot
  · rintro ⟨labels,last,⟨rfl,hlabels⟩,hsome,hlast⟩
    have hbytes := fun c hc => @handle_bytes labels last hlabels hlast c hc
    have hdot := delimiter_mem_joined 46 hsome last
    have hfree : (46 : UInt8) ∉ last := by
      rcases hlast with rfl | hlast
      · exact List.not_mem_nil
      · exact hlast.free
    simp only [isHandle,Bool.and_eq_true,List.contains_iff_mem,decide_eq_true_eq,
      handleFrom_joined (fun w hw => (hlabels w hw).free) hfree le_rfl,hparts,Bool.not_eq_true']
    refine ⟨⟨⟨⟨List.ne_nil_of_mem hdot,?_⟩,hdot⟩,?_⟩,hlabels,hlast⟩
    · rw [← Bool.not_eq_true,List.isPrefixOf_iff_prefix]
      intro hdid
      have hcolon : (58 : UInt8) ∈ utf8 "did:" := by decide +kernel
      rcases hbytes 58 (hdid.subset hcolon) with h | h
      · exact absurd h (by decide)
      · exact absurd h (by decide)
    · rw [← Bool.not_eq_true,List.any_eq_true]
      rintro ⟨c,hc,hbad⟩
      rw [List.contains_iff_mem] at hbad
      rcases hbytes c hc with h | rfl
      · have hnone : ∀ c ∈ utf8 " /?#:@", ¬isLabelByte c = true := by decide +kernel
        exact hnone c hbad h
      · exact absurd hbad (by decide +kernel)

example : isHandle (utf8 "alice.") = true := by decide +kernel

/-! ## NSIDs -/

theorem NsidForm.free {v name : Bytes} {labels : List Bytes} (h : NsidForm v labels name) :
    (46 : UInt8) ∉ name := by
  intro hmem
  rcases h.bytes _ hmem with h | h
  · exact absurd h (by decide)
  · exact absurd h (by decide)

theorem NsidForm.unique {v name name' : Bytes} {labels labels' : List Bytes}
    (h : NsidForm v labels name) (h' : NsidForm v labels' name') : name = name' :=
  (joined_inj (fun w hw => (h.parts w hw).free) h.free (fun w hw => (h'.parts w hw).free) h'.free
    (h.spelled.symm.trans h'.spelled)).2

theorem label_of_name {v name : Bytes} {labels : List Bytes} (h : NsidForm v labels name)
    (hlower : ∀ c ∈ name, isUpper c = false) : Label name where
  filled := h.filled
  bytes c hc := (h.bytes c hc).resolve_right (Bool.not_eq_true _ ▸ hlower c hc)
  first := h.first
  last := h.last

theorem isUpper_label {c : UInt8} (h : isLabelByte c = true) : isUpper c = false := by
  have hall : ∀ c, isLabelByte c = true → isUpper c = false := by decide +kernel
  exact hall c h

theorem getLast?_joined {d : UInt8} {last : Bytes} (h : last ≠ []) (labels : List Bytes) :
    (joined d labels last).getLast? = last.getLast? := by
  induction labels with
  | nil => rfl
  | cons w labels ih =>
    have hrest : joined d labels last ≠ [] := by
      intro hnil
      rw [hnil] at ih
      exact h (List.getLast?_eq_none_iff.mp ih.symm)
    rw [joined_cons,List.getLast?_append_of_ne_nil _ (List.cons_ne_nil _ _),
      List.getLast?_cons_of_ne_nil hrest,ih]

theorem isNsid_iff {v : Bytes} : isNsid v = true ↔
    ∃ labels name, NsidForm v labels name ∧ ∀ c ∈ name, isUpper c = false := by
  constructor
  · intro h
    obtain ⟨labels,last,rfl,hfree,hlast⟩ := exists_joined 46 v
    unfold isNsid at h
    split at h
    · cases h
    · rw [nsidFrom_joined hfree hlast] at h
      split at h
      · cases h
      · next last' n hscan =>
          split at hscan
          · next hparts =>
              cases hscan
              simp only [Bool.and_eq_true,Bool.not_eq_true',Bool.or_eq_false_iff,
                decide_eq_false_iff_not,decide_eq_true_eq,Nat.zero_add,List.all_eq_true,
                isLabel_iff] at h hparts
              obtain ⟨⟨⟨hfilled,hfirst⟩,hend⟩,hcount⟩ := h
              rw [getLast?_joined hfilled] at hend
              exact ⟨labels,last,⟨⟨rfl,hparts.1⟩,by omega,hfilled,fun c hc => .inl (hparts.2 c hc),
                hfirst,hend⟩,fun c hc => isUpper_label (hparts.2 c hc)⟩
          · cases hscan
  · rintro ⟨labels,name,h,hlower⟩
    have hname := label_of_name h hlower
    obtain rfl := h.spelled
    have hedges : ¬(joined 46 labels name = [] ∨ (joined 46 labels name).head? = some 46 ∨
        (joined 46 labels name).getLast? = some 46) := by
      rintro (hnil | hhead | hend)
      · rw [← List.getLast?_eq_none_iff,getLast?_joined h.filled,List.getLast?_eq_none_iff] at hnil
        exact h.filled hnil
      · cases hlabels : labels with
        | nil =>
          have hcount := h.segments
          rw [hlabels] at hcount
          exact absurd hcount (by decide)
        | cons w rest =>
          have hw := h.parts w (hlabels ▸ List.mem_cons_self)
          rw [hlabels,joined_cons,List.head?_append_of_ne_nil _ hw.filled] at hhead
          exact hw.free (List.mem_of_head? hhead)
      · rw [getLast?_joined h.filled] at hend
        exact h.free (List.mem_of_getLast? hend)
    have hparts : (labels.all isLabel && name.all isLabelByte) = true := by
      rw [Bool.and_eq_true,List.all_eq_true,List.all_eq_true]
      exact ⟨fun w hw => isLabel_iff.mpr (h.parts w hw),hname.bytes⟩
    have hcount := h.segments
    rw [isNsid,if_neg hedges,nsidFrom_joined (fun w hw => (h.parts w hw).free) h.free,if_pos hparts]
    simp only [getLast?_joined h.filled,h.filled,h.first,h.last,decide_false,Bool.or_false,
      Bool.not_false,Bool.true_and,decide_eq_true_eq]
    omega

/-! ## Record keys -/

theorem isRecordKey_iff {v : Bytes} : isRecordKey v = true ↔ RecordKey v := by
  simp only [isRecordKey,Bool.and_eq_true,decide_eq_true_eq,List.all_eq_true]
  exact ⟨fun ⟨⟨⟨⟨hfilled,hsize⟩,hdot⟩,hdots⟩,hbytes⟩ => ⟨hfilled,hsize,hbytes,hdot,hdots⟩,
    fun h => ⟨⟨⟨⟨h.filled,h.size⟩,h.dot⟩,h.dots⟩,h.bytes⟩⟩

theorem RecordKey.open {v : Bytes} (h : RecordKey v) : OpenKey v where
  filled := h.filled
  slash hmem := absurd (h.bytes _ hmem) (by decide)
  query hmem := absurd (h.bytes _ hmem) (by decide)
  fragment hmem := absurd (h.bytes _ hmem) (by decide)

/-! ## AT URIs -/

theorem did_bytes {v : Bytes} (h : isDid v = true) : ∀ c ∈ v, isDidByte c = true := by
  simp only [isDid,Bool.and_eq_true] at h
  exact List.all_eq_true.mp h.1.1.1.1.2

theorem nsid_bytes {v : Bytes} (h : isNsid v = true) : ∀ c ∈ v, isLabelByte c = true ∨ c = 46 := by
  obtain ⟨labels,name,h,hlower⟩ := isNsid_iff.mp h
  intro c hc
  rw [h.spelled] at hc
  exact handle_bytes h.parts (.inr (label_of_name h hlower)) hc

theorem drop_delimited {d : UInt8} (w rest : Bytes) : (w++d::rest).drop (w.length+1) = rest := by
  rw [← List.drop_drop,List.drop_left]
  rfl

/-- A first part before a slash, as the scanner cuts it. -/
theorem cut_slash {w : Bytes} (h : (w.takeWhile (· ≠ 47)).length ≠ w.length) :
    ∃ part rest, w = part++47::rest ∧ (47 : UInt8) ∉ part ∧ w.takeWhile (· ≠ 47) = part ∧
      w.drop (part.length+1) = rest := by
  have hmem : (47 : UInt8) ∈ w :=
    length_takeWhile_lt.mp (lt_of_le_of_ne (List.takeWhile_sublist _).length_le h)
  obtain ⟨rest,hsplit⟩ := delimited_of_mem hmem
  refine ⟨_,rest,hsplit,not_mem_takeWhile w,rfl,?_⟩
  conv_lhs => rw [hsplit]
  rw [takeWhile_delimited (not_mem_takeWhile w),drop_delimited]

/-- No byte of a URI of checked parts is `?` or `#`. -/
theorem print_plain {u : AtUri} (hdid : isDid u.did = true) (hnsid : isNsid u.collection = true)
    (hkey : OpenKey u.rkey) : ¬(u.print.any fun c => c = 63 || c = 35) = true := by
  have hscheme : ∀ c ∈ utf8 "at://", ¬(c = 63 ∨ c = 35) := by decide +kernel
  rw [List.any_eq_true]
  rintro ⟨c,hc,hbad⟩
  simp only [Bool.or_eq_true,decide_eq_true_eq] at hbad
  simp only [AtUri.print,List.mem_append,List.mem_cons] at hc
  rcases hc with ((hc | hc) | hc | hc) | hc | hc
  · exact hscheme c hc hbad
  · have hbyte := did_bytes hdid c hc
    rcases hbad with rfl | rfl
    · exact absurd hbyte (by decide)
    · exact absurd hbyte (by decide)
  · rw [hc] at hbad
    exact absurd hbad (by decide)
  · rcases nsid_bytes hnsid c hc with hbyte | hbyte
    · rcases hbad with rfl | rfl
      · exact absurd hbyte (by decide)
      · exact absurd hbyte (by decide)
    · rw [hbyte] at hbad
      exact absurd hbad (by decide)
  · rw [hc] at hbad
    exact absurd hbad (by decide)
  · rcases hbad with rfl | rfl
    · exact hkey.query hc
    · exact hkey.fragment hc

/-- Everything but the record key is checked. -/
theorem parseAtUri_iff {v : Bytes} {u : AtUri} : parseAtUri v = some u ↔
    v = u.print ∧ isDid u.did = true ∧ isNsid u.collection = true ∧ OpenKey u.rkey := by
  constructor
  · intro h
    unfold parseAtUri at h
    split at h
    · cases h
    · next hscheme =>
        rw [not_or,not_not,List.isPrefixOf_iff_prefix] at hscheme
        obtain ⟨⟨w,rfl⟩,hplain⟩ := hscheme
        dsimp only at h
        rw [show (utf8 "at://"++w).drop 5 = w from rfl] at h
        split at h
        · cases h
        · next hfirst =>
            rw [not_or] at hfirst
            obtain ⟨did,rest,rfl,hfree,htake,hdrop⟩ := cut_slash hfirst.1
            rw [htake,hdrop] at h
            split at h
            · cases h
            · next hsecond =>
                rw [not_or,not_or] at hsecond
                obtain ⟨collection,rkey,rfl,hfree',htake',hdrop'⟩ := cut_slash hsecond.1
                rw [htake',hdrop'] at h
                split at h
                · cases h
                · next hparts =>
                    cases h
                    simp only [not_or,not_not] at hparts
                    obtain ⟨hdid,hnsid,hslash⟩ := hparts
                    refine ⟨by simp [AtUri.print],hdid,hnsid,?_,hslash,?_,?_⟩
                    · rintro rfl
                      have hlength := hsecond.2.2
                      rw [htake',List.length_append,List.length_singleton] at hlength
                      exact hlength rfl
                    · intro hmem
                      exact hplain (List.any_eq_true.mpr ⟨63,by simp [hmem],rfl⟩)
                    · intro hmem
                      exact hplain (List.any_eq_true.mpr ⟨35,by simp [hmem],rfl⟩)
  · rintro ⟨rfl,hdid,hnsid,hkey⟩
    have hslash : (47 : UInt8) ∉ u.did := fun hmem => absurd (did_bytes hdid _ hmem) (by decide)
    have hslash' : (47 : UInt8) ∉ u.collection := by
      intro hmem
      rcases nsid_bytes hnsid _ hmem with h | h
      · exact absurd h (by decide)
      · exact absurd h (by decide)
    have hplain := print_plain hdid hnsid hkey
    have hprint : u.print = utf8 "at://"++(u.did++47::(u.collection++47::u.rkey)) :=
      List.append_assoc _ _ _
    have hscheme : (utf8 "at://").isPrefixOf u.print = true := by
      rw [List.isPrefixOf_iff_prefix,hprint]
      exact ⟨_,rfl⟩
    have hdrop : u.print.drop 5 = u.did++47::(u.collection++47::u.rkey) := by
      rw [hprint]
      rfl
    have hdidFilled : u.did ≠ [] := by
      intro hnil
      rw [hnil] at hdid
      cases hdid
    have hnsidFilled : u.collection ≠ [] := by
      intro hnil
      rw [hnil] at hnsid
      cases hnsid
    have hkeyLength : 0 < u.rkey.length := List.length_pos_iff.mpr hkey.filled
    rw [parseAtUri,if_neg (not_or.mpr ⟨not_not.mpr hscheme,hplain⟩)]
    dsimp only
    rw [hdrop,takeWhile_delimited hslash,drop_delimited,takeWhile_delimited hslash',drop_delimited,
      if_neg (by simp [hdidFilled]),if_neg (by simp [hnsidFilled,hkey.filled]),
      if_neg (by simp [hdid,hnsid,hkey.slash])]

example : (parseAtUri (utf8 "at://did:plc:abc/app.bsky.feed.post/a b")).isSome = true := by
  decide +kernel

/-! ## Where the scanners meet the grammar -/

/-- Every scanner tells by its answer whether the text is of its grammar. -/
structure Exact (v : Bytes) : Prop where
  did : isDid v = true ↔ Did v
  handle : isHandle v = true ↔ Handle v
  nsid : isNsid v = true ↔ Nsid v
  recordKey : isRecordKey v = true ↔ RecordKey v
  uri : ∀ u, parseAtUri v = some u ↔
    v = u.print ∧ Did u.did ∧ Nsid u.collection ∧ RecordKey u.rkey

/-- The kinds of texts that are taken against a grammar, or refused. -/
inductive Stray (v : Bytes) : Prop
  | shortDid {method id : Bytes} : DidForm v method id → 45 ∉ method → v.length ≤ 8 → Stray v
  | hyphenDid {method id : Bytes} : DidForm v method id → 45 ∈ method → 8 < v.length → Stray v
  | dottedHandle {labels : List Bytes} : DottedForm v labels [] → labels ≠ [] → Stray v
  | capitalNsid {labels : List Bytes} {name : Bytes} : NsidForm v labels name → 45 ∉ name →
      (∃ c ∈ name, isUpper c = true) → Stray v
  | hyphenNsid {labels : List Bytes} {name : Bytes} : NsidForm v labels name → 45 ∈ name →
      (∀ c ∈ name, isUpper c = false) → Stray v
  | refusedUri {u : AtUri} {method id name : Bytes} {labels : List Bytes} : v = u.print →
      DidForm u.did method id → NsidForm u.collection labels name → 45 ∉ method → 45 ∉ name →
      RecordKey u.rkey → u.did.length ≤ 8 ∨ (∃ c ∈ name, isUpper c = true) → Stray v
  | acceptedUri {u : AtUri} {method id name : Bytes} {labels : List Bytes} : v = u.print →
      DidForm u.did method id → NsidForm u.collection labels name → 8 < u.did.length →
      (∀ c ∈ name, isUpper c = false) → OpenKey u.rkey →
      45 ∈ method ∨ 45 ∈ name ∨ ¬RecordKey u.rkey → Stray v

theorem lower_or_upper (name : Bytes) :
    (∀ c ∈ name, isUpper c = false) ∨ ∃ c ∈ name, isUpper c = true := by
  by_cases h : ∃ c ∈ name, isUpper c = true
  · exact .inr h
  · exact .inl fun c hc => Bool.not_eq_true _ ▸ fun hup => h ⟨c,hc,hup⟩

theorem exact_of_plain {v : Bytes} (h : ¬Stray v) : Exact v where
  did := by
    rw [isDid_iff]
    constructor
    · rintro ⟨method,id,hform,hlong⟩
      exact ⟨method,id,hform,fun hhyphen => h (.hyphenDid hform hhyphen hlong)⟩
    · rintro ⟨method,id,hform,hplain⟩
      exact ⟨method,id,hform,not_le.mp fun hshort => h (.shortDid hform hplain hshort)⟩
  handle := by
    rw [isHandle_iff]
    constructor
    · rintro ⟨labels,last,hform,hsome,rfl | hlast⟩
      · exact absurd (.dottedHandle hform hsome) h
      · exact ⟨labels,last,hform,hsome,hlast⟩
    · rintro ⟨labels,last,hform,hsome,hlast⟩
      exact ⟨labels,last,hform,hsome,.inr hlast⟩
  nsid := by
    rw [isNsid_iff]
    constructor
    · rintro ⟨labels,name,hform,hlower⟩
      exact ⟨labels,name,hform,fun hhyphen => h (.hyphenNsid hform hhyphen hlower)⟩
    · rintro ⟨labels,name,hform,hplain⟩
      exact ⟨labels,name,hform,(lower_or_upper name).resolve_right fun hupper =>
        h (.capitalNsid hform hplain hupper)⟩
  recordKey := isRecordKey_iff
  uri u := by
    rw [parseAtUri_iff,isDid_iff,isNsid_iff]
    constructor
    · rintro ⟨hv,⟨method,id,hdid,hlong⟩,⟨labels,name,hnsid,hlower⟩,hkey⟩
      have hall : ¬(45 ∈ method ∨ 45 ∈ name ∨ ¬RecordKey u.rkey) := fun hbad =>
        h (.acceptedUri hv hdid hnsid hlong hlower hkey hbad)
      rw [not_or,not_or,not_not] at hall
      exact ⟨hv,⟨method,id,hdid,hall.1⟩,⟨labels,name,hnsid,hall.2.1⟩,hall.2.2⟩
    · rintro ⟨hv,⟨method,id,hdid,hmethod⟩,⟨labels,name,hnsid,hname⟩,hkey⟩
      have hall : ¬(u.did.length ≤ 8 ∨ ∃ c ∈ name, isUpper c = true) := fun hbad =>
        h (.refusedUri hv hdid hnsid hmethod hname hkey hbad)
      rw [not_or,not_le] at hall
      exact ⟨hv,⟨method,id,hdid,hall.1⟩,
        ⟨labels,name,hnsid,(lower_or_upper name).resolve_right hall.2⟩,hkey.open⟩

theorem Exact.plain {v : Bytes} (h : Exact v) : ¬Stray v := by
  have hraised : ∀ {name : Bytes}, (∀ c ∈ name, isUpper c = false) →
      ¬∃ c ∈ name, isUpper c = true := fun hlower ⟨c,hc,hupper⟩ =>
    Bool.false_ne_true ((hlower c hc).symm.trans hupper)
  rintro (⟨hform,hplain,hshort⟩ | ⟨hform,hhyphen,hlong⟩ | ⟨hform,hsome⟩ | ⟨hform,hplain,hupper⟩ |
    ⟨hform,hhyphen,hlower⟩ | ⟨hv,hdid,hnsid,hmethod,hname,hkey,hbad⟩ |
    ⟨hv,hdid,hnsid,hlong,hlower,hkey,hbad⟩)
  · obtain ⟨_,_,-,hlong⟩ := isDid_iff.mp (h.did.mpr ⟨_,_,hform,hplain⟩)
    omega
  · obtain ⟨_,_,hform',hplain⟩ := h.did.mp (isDid_iff.mpr ⟨_,_,hform,hlong⟩)
    exact hplain ((hform.unique hform').1 ▸ hhyphen)
  · obtain ⟨labels,last,hform',-,hlast⟩ := h.handle.mp (isHandle_iff.mpr ⟨_,_,hform,hsome,.inl rfl⟩)
    have hsame := joined_inj (fun w hw => (hform.parts w hw).free) List.not_mem_nil
      (fun w hw => (hform'.parts w hw).free) hlast.free (hform.spelled.symm.trans hform'.spelled)
    exact hlast.filled hsame.2.symm
  · obtain ⟨_,_,hform',hlower⟩ := isNsid_iff.mp (h.nsid.mpr ⟨_,_,hform,hplain⟩)
    exact hraised hlower (hform.unique hform' ▸ hupper)
  · obtain ⟨_,_,hform',hplain⟩ := h.nsid.mp (isNsid_iff.mpr ⟨_,_,hform,hlower⟩)
    exact hplain (hform.unique hform' ▸ hhyphen)
  · obtain ⟨-,hdid',hnsid',-⟩ := parseAtUri_iff.mp
      ((h.uri _).mpr ⟨hv,⟨_,_,hdid,hmethod⟩,⟨_,_,hnsid,hname⟩,hkey⟩)
    obtain ⟨_,_,-,hlong⟩ := isDid_iff.mp hdid'
    obtain ⟨_,_,hform',hlower⟩ := isNsid_iff.mp hnsid'
    rcases hbad with hshort | hupper
    · omega
    · exact hraised hlower (hnsid.unique hform' ▸ hupper)
  · obtain ⟨-,⟨_,_,hdid',hmethod⟩,⟨_,_,hnsid',hname⟩,hkey'⟩ := (h.uri _).mp (parseAtUri_iff.mpr
      ⟨hv,isDid_iff.mpr ⟨_,_,hdid,hlong⟩,isNsid_iff.mpr ⟨_,_,hnsid,hlower⟩,hkey⟩)
    rcases hbad with hhyphen | hhyphen | hnone
    · exact hmethod ((hdid.unique hdid').1 ▸ hhyphen)
    · exact hname (hnsid.unique hnsid' ▸ hhyphen)
    · exact hnone hkey'

/-- The scanners are exact on every text that is of none of these kinds, and on no other. -/
theorem scanners_exact (v : Bytes) : Exact v ↔ ¬Stray v := ⟨Exact.plain,exact_of_plain⟩

namespace Sample

/-- The name of a query of the application. -/
theorem query_refused : isNsid (utf8 "app.bsky.feed.getTimeline") = false ∧
    Nsid (utf8 "app.bsky.feed.getTimeline") ∧ ¬∀ v, Exact v := by
  have hrefused : isNsid (utf8 "app.bsky.feed.getTimeline") = false := by decide +kernel
  have hlabels : ∀ w ∈ [utf8 "app",utf8 "bsky",utf8 "feed"], isLabel w = true := by decide +kernel
  have hname : (∀ c ∈ utf8 "getTimeline", isLabelByte c = true ∨ isUpper c = true) ∧
      45 ∉ utf8 "getTimeline" := by decide +kernel
  have hnsid : Nsid (utf8 "app.bsky.feed.getTimeline") :=
    ⟨[utf8 "app",utf8 "bsky",utf8 "feed"],utf8 "getTimeline",
      ⟨⟨rfl,fun w hw => isLabel_iff.mp (hlabels w hw)⟩,by decide,by decide +kernel,hname.1,
        by decide +kernel,by decide +kernel⟩,hname.2⟩
  refine ⟨hrefused,hnsid,fun h => ?_⟩
  exact Bool.false_ne_true (hrefused.symm.trans ((h _).nsid.mpr hnsid))

end Sample

end Atperson.Protocol
