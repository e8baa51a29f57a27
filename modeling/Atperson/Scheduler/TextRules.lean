import Atperson.Runs.Filling
import Atperson.Scheduler.TextGuard
import Atperson.Wire.Utf8

/-!
# The rules of the output guard

Each scanner of the guard decides a rule that speaks of the text as a whole: it is the encoding
of so many characters, it is split by no forbidden shape, and its words in lower case are those of
no recent text.
-/
namespace Atperson.Scheduler
open Wire Runs
open Wire.Utf8 (tails tailCount leadMark leadRoom)
open Lock (isSpace)

/-! ## Codepoints -/

theorem leadByte_some {lead : UInt8} {length : ℕ} {code : UInt32}
    (h : leadByte lead = some (length,code)) : ∃ k ≤ 3, length = k+1 ∧
      lead.toNat = leadMark k+code.toNat ∧ code.toNat < leadRoom k := by
  have hall : ∀ lead : UInt8, (leadByte lead).all (fun p => 1 ≤ p.1 && p.1 ≤ 4 &&
      lead.toNat = leadMark (p.1-1)+p.2.toNat && p.2.toNat < leadRoom (p.1-1)) = true := by
    decide +kernel
  have hlead := hall lead
  rw [h] at hlead
  simp only [Option.all_some,Bool.and_eq_true,decide_eq_true_eq] at hlead
  obtain ⟨⟨⟨hone,hfour⟩,hvalue⟩,hroom⟩ := hlead
  exact ⟨length-1,by omega,by omega,hvalue,hroom⟩

theorem leadByte_mark {k n : ℕ} (hk : k ≤ 3) (hn : n < leadRoom k) :
    leadByte (UInt8.ofNat (leadMark k+n)) = some (k+1,UInt32.ofNat n) := by
  have hall : ∀ k ≤ 3, ∀ n < leadRoom k,
      leadByte (UInt8.ofNat (leadMark k+n)) = some (k+1,UInt32.ofNat n) := by
    decide +kernel
  exact hall k hk n hn

theorem continuation_byte (next : UInt8) :
    (next &&& 0xC0 = 0x80 ↔ next = UInt8.ofNat (0x80+next.toNat%64)) ∧
      (next &&& 0x3F).toUInt32.toNat = next.toNat%64 := by
  revert next
  decide +kernel

/-- A further digit goes behind the digits so far. -/
theorem shifted_toNat {code : UInt32} (next : UInt8) (h : code.toNat < 2^26) :
    (code <<< 6 ||| (next &&& 0x3F).toUInt32).toNat = code.toNat*64+next.toNat%64 := by
  rw [UInt32.toNat_or,UInt32.toNat_shiftLeft,(continuation_byte next).2]
  show code.toNat <<< 6%2^32 ||| next.toNat%64 = _
  rw [Nat.shiftLeft_eq,Nat.mod_eq_of_lt (by omega),mul_comm]
  exact (Nat.two_pow_add_eq_or_of_lt (i := 6) (Nat.mod_lt _ (by decide)) code.toNat).symm.trans
    (by rw [mul_comm])

theorem marked_inj {m n : ℕ} (hm : m < 64) (hn : n < 64)
    (h : UInt8.ofNat (0x80+m) = UInt8.ofNat (0x80+n)) : m = n := by
  have hnat := congrArg UInt8.toNat h
  rw [UInt8.toNat_ofNat_of_lt' (by show _ < 256; omega),
    UInt8.toNat_ofNat_of_lt' (by show _ < 256; omega)] at hnat
  omega

theorem continued_iff {code r : UInt32} {rest : Bytes} (h : (code.toNat+1)*64^rest.length ≤ 2^32) :
    continued code rest = some r ↔
      rest = tails rest.length r.toNat ∧ r.toNat/64^rest.length = code.toNat := by
  induction rest generalizing code with
  | nil =>
      rw [continued,List.length_nil,pow_zero,Nat.div_one,Option.some_inj]
      refine ⟨fun hr => ⟨rfl,congrArg UInt32.toNat hr.symm⟩,fun hr => UInt32.toNat_inj.mp hr.2.symm⟩
  | cons next rest ih =>
      have hpow : 1 ≤ 64^rest.length := Nat.one_le_two_pow.trans (Nat.pow_le_pow_left (by decide) _)
      have hdigit := Nat.mod_lt (r.toNat/64^rest.length) (show 0 < 64 by decide)
      have hmark := Nat.mod_lt next.toNat (show 0 < 64 by decide)
      have hsplit : r.toNat/64^(rest.length+1) = r.toNat/64^rest.length/64 := by
        rw [pow_succ,Nat.div_div_eq_div_mul]
      rw [List.length_cons,pow_succ] at h
      have hcode : (code.toNat+1)*64 ≤ 2^32 :=
        (Nat.le_mul_of_pos_right _ hpow).trans (by rwa [mul_assoc,mul_comm 64])
      rw [continued,List.length_cons,tails,List.cons.injEq,hsplit]
      by_cases hnext : next &&& 0xC0 = 0x80
      · have hshift := shifted_toNat next (show code.toNat < 2^26 by omega)
        have hbound : (code.toNat*64+next.toNat%64+1)*64^rest.length ≤ 2^32 := by
          refine (Nat.mul_le_mul_right _ (show _ ≤ (code.toNat+1)*64 by omega)).trans ?_
          rwa [mul_assoc,mul_comm 64]
        rw [if_neg (not_not.mpr hnext),ih (by rwa [hshift]),hshift]
        constructor
        · rintro ⟨hrest,hvalue⟩
          refine ⟨⟨?_,hrest⟩,by omega⟩
          rw [hvalue,show (code.toNat*64+next.toNat%64)%64 = next.toNat%64 by omega]
          exact (continuation_byte next).1.mp hnext
        · rintro ⟨⟨hfirst,hrest⟩,hvalue⟩
          have hlast : next.toNat%64 = r.toNat/64^rest.length%64 :=
            marked_inj hmark hdigit (((continuation_byte next).1.mp hnext).symm.trans hfirst)
          exact ⟨hrest,by omega⟩
      · rw [if_pos hnext]
        refine iff_of_false (Option.some_ne_none r).symm fun hr => hnext ((continuation_byte next).1.mpr ?_)
        have hlast : next.toNat%64 = r.toNat/64^rest.length%64 := by
          rw [hr.1.1,UInt8.toNat_ofNat_of_lt' (by show _ < 256; omega)]
          omega
        rw [hlast]
        exact hr.1.1

theorem misencoded_iff {k : ℕ} {r : UInt32} (hk : k ≤ 3) (h : r.toNat < leadRoom k*64^k) :
    misencoded (k+1) r = false ↔ tailCount r.toNat = k ∧ r.toNat.isValidChar := by
  unfold misencoded Nat.isValidChar tailCount
  simp only [Bool.or_eq_false_iff,Bool.and_eq_false_iff,decide_eq_false_iff_not,
    UInt32.lt_iff_toNat_lt,UInt32.le_iff_toNat_le,UInt32.reduceToNat]
  generalize r.toNat = v at *
  interval_cases k <;> simp only [leadRoom] at h <;> split_ifs <;> simp <;> omega

theorem room_le {k n : ℕ} (hk : k ≤ 3) (hn : n < leadRoom k) : (n+1)*64^k ≤ 2^32 := by
  refine (Nat.mul_le_mul_right _ hn).trans ?_
  interval_cases k <;> decide

/-- The sequence at the front is the encoding of a character. -/
theorem sequenceLength_iff {text : Bytes} {n : ℕ} : sequenceLength text = some n ↔
    ∃ c rest, text = String.utf8EncodeChar c++rest ∧ n = (String.utf8EncodeChar c).length := by
  constructor
  · intro h
    cases text with
    | nil => cases h
    | cons lead rest =>
        obtain ⟨⟨length,code⟩,hlead,h⟩ := Option.bind_eq_some_iff.mp h
        obtain ⟨k,hk,rfl,hvalue,hroom⟩ := leadByte_some hlead
        dsimp only at h
        split at h
        · cases h
        · next hlong =>
            rw [Nat.add_sub_cancel] at h
            obtain ⟨r,hr,h⟩ := Option.bind_eq_some_iff.mp h
            have hlength : (rest.take k).length = k := by
              rw [List.length_take]
              omega
            obtain ⟨htails,hhigh⟩ := (continued_iff (by rw [hlength]; exact room_le hk hroom)).mp hr
            rw [hlength] at htails hhigh
            split at h
            · cases h
            · next hgood =>
                have hr : r.toNat < leadRoom k*64^k := by
                  rw [← hhigh] at hroom
                  exact (Nat.div_lt_iff_lt_mul (by positivity)).mp hroom
                obtain ⟨hcount,hvalid⟩ := (misencoded_iff hk hr).mp (Bool.eq_false_iff.mpr hgood)
                have hchar : (Char.ofNat r.toNat).toNat = r.toNat := by
                  rw [Char.toNat_ofNat,if_pos hvalid]
                have hencoded : String.utf8EncodeChar (Char.ofNat r.toNat) = lead::rest.take k := by
                  rw [Utf8.utf8EncodeChar_eq,hchar,hcount,hhigh,← hvalue,UInt8.ofNat_toNat,htails]
                refine ⟨Char.ofNat r.toNat,rest.drop k,?_,?_⟩
                · rw [hencoded,List.cons_append,List.take_append_drop]
                · rw [hencoded,List.length_cons,hlength]
                  exact (Option.some.inj h).symm
  · rintro ⟨c,rest,rfl,rfl⟩
    have hlt := Utf8.toNat_lt c
    have hk := Utf8.tailCount_le c.toNat
    have hroom := Utf8.high_lt hlt
    have hvalid : c.toNat.isValidChar := c.valid
    have hsmall : (UInt32.ofNat c.toNat).toNat = c.toNat :=
      UInt32.toNat_ofNat_of_lt' (by show _ < 4294967296; omega)
    have hhigh : (UInt32.ofNat (c.toNat/64^tailCount c.toNat)).toNat =
        c.toNat/64^tailCount c.toNat :=
      UInt32.toNat_ofNat_of_lt' (by
        have hle := Nat.div_le_self c.toNat (64^tailCount c.toNat)
        show _ < 4294967296
        omega)
    have hcontinued : continued (UInt32.ofNat (c.toNat/64^tailCount c.toNat))
        (tails (tailCount c.toNat) c.toNat) = some (UInt32.ofNat c.toNat) := by
      rw [continued_iff,Utf8.length_tails,hsmall,hhigh]
      · exact ⟨rfl,rfl⟩
      · rw [Utf8.length_tails,hhigh]
        exact room_le hk hroom
    have hgood : misencoded (tailCount c.toNat+1) (UInt32.ofNat c.toNat) = false := by
      rw [misencoded_iff hk,hsmall]
      · exact ⟨rfl,hvalid⟩
      · rw [hsmall]
        exact (Nat.div_lt_iff_lt_mul (by positivity)).mp hroom
    rw [Utf8.utf8EncodeChar_eq,List.cons_append,sequenceLength,leadByte_mark hk hroom]
    simp only [Option.bind_eq_bind,Option.bind_some,List.length_append,Utf8.length_tails,
      Nat.add_sub_cancel,List.take_left' (Utf8.length_tails _ _),hcontinued,hgood,List.length_cons]
    rw [if_neg (by omega),if_neg Bool.false_ne_true]

theorem encode_eq_nil {cs : List Char} (h : Utf8.encode cs = []) : cs = [] := by
  cases cs with
  | nil => rfl
  | cons c cs =>
      rw [Utf8.encode_cons,List.append_eq_nil_iff] at h
      have hpos := Char.utf8Size_pos c
      rw [← String.length_utf8EncodeChar,h.1] at hpos
      cases hpos

/-- The bytes are valid, and so many codepoints, just if they encode so many characters. -/
theorem utf8Codepoints_iff {text : Bytes} {n : ℕ} : utf8Codepoints text = some n ↔
    ∃ cs, Utf8.encode cs = text ∧ cs.length = n := by
  have hcount (fuel : ℕ) : ∀ (text : Bytes) (n : ℕ), text.length ≤ fuel →
      (countSequences fuel text = some n ↔ ∃ cs, Utf8.encode cs = text ∧ cs.length = n) := by
    induction fuel with
    | zero =>
        intro text n hlength
        rw [List.eq_nil_of_length_eq_zero (Nat.le_zero.mp hlength),countSequences,Option.some_inj]
        refine ⟨fun hn => ⟨[],rfl,hn⟩,fun ⟨cs,hcs,hn⟩ => ?_⟩
        rw [encode_eq_nil hcs] at hn
        exact hn
    | succ fuel ih =>
        intro text n hlength
        cases text with
        | nil =>
            rw [countSequences,Option.some_inj]
            refine ⟨fun hn => ⟨[],rfl,hn⟩,fun ⟨cs,hcs,hn⟩ => ?_⟩
            rw [encode_eq_nil hcs] at hn
            exact hn
        | cons lead rest =>
            rw [countSequences]
            swap
            · exact nofun
            constructor
            · intro h
              obtain ⟨length,hsequence,h⟩ := Option.bind_eq_some_iff.mp h
              obtain ⟨m,hm,rfl⟩ := Option.map_eq_some_iff.mp h
              obtain ⟨c,tail,htext,rfl⟩ := sequenceLength_iff.mp hsequence
              rw [htext,List.drop_left] at hm
              have hpos := Char.utf8Size_pos c
              rw [htext,List.length_append,String.length_utf8EncodeChar] at hlength
              obtain ⟨cs,hcs,rfl⟩ := (ih tail m (by omega)).mp hm
              exact ⟨c::cs,by rw [Utf8.encode_cons,hcs,htext],rfl⟩
            · rintro ⟨cs,hcs,rfl⟩
              cases cs with
              | nil => cases hcs
              | cons c cs =>
                  rw [Utf8.encode_cons] at hcs
                  have hpos := Char.utf8Size_pos c
                  rw [← hcs,List.length_append,String.length_utf8EncodeChar] at hlength
                  have hsequence := sequenceLength_iff.mpr ⟨c,Utf8.encode cs,hcs.symm,rfl⟩
                  have hrest := (ih (Utf8.encode cs) cs.length (by omega)).mpr ⟨cs,rfl,rfl⟩
                  rw [hsequence,← hcs]
                  simp only [Option.bind_eq_bind,Option.bind_some,List.drop_left,hrest,
                    Option.map_some,List.length_cons]
  exact hcount _ text n le_rfl

/-! ## Case -/

/-- What lower case leaves as it is: classes of bytes, and all bytes of longer sequences. -/
theorem lowerByte_keeps (c : UInt8) : lowerByte (lowerByte c) = lowerByte c ∧
    isWordByte (lowerByte c) = isWordByte c ∧ isSpace (lowerByte c) = isSpace c ∧
    ((lowerByte c &&& 0xC0 = 0x80 ↔ c &&& 0xC0 = 0x80) ∧
      (c &&& 0xC0 = 0x80 → lowerByte c = c)) ∧
    (lowerByte c < 0x80 ↔ c < 0x80) ∧ (¬c < 0x80 → lowerByte c = c) := by
  revert c
  decide +kernel

example : lowerByte 90 = 122 ∧ lowerByte 91 = 91 := by decide +kernel

theorem lowerByte_lowerByte (c : UInt8) : lowerByte (lowerByte c) = lowerByte c :=
  (lowerByte_keeps c).1

theorem isWordByte_lowerByte (c : UInt8) : isWordByte (lowerByte c) = isWordByte c :=
  (lowerByte_keeps c).2.1

theorem lowerAscii_lowerAscii (text : Bytes) : lowerAscii (lowerAscii text) = lowerAscii text := by
  unfold lowerAscii
  rw [List.map_map]
  exact List.map_congr_left fun c _ => lowerByte_lowerByte c

/-! ## Words -/

/-- The words of a text, in lower case. -/
def wordRuns (text : Bytes) : List Bytes := (maximalRuns isWordByte text).map lowerAscii

theorem mem_wordRuns {text run : Bytes} (h : run ∈ wordRuns text) :
    run ≠ [] ∧ ∀ c ∈ run, isWordByte c = true := by
  obtain ⟨r,hr,rfl⟩ := List.mem_map.mp h
  obtain ⟨hne,-,hword⟩ := mem_maximalRuns hr
  refine ⟨fun hnil => hne (List.map_eq_nil_iff.mp hnil),fun c hc => ?_⟩
  obtain ⟨d,hd,rfl⟩ := List.mem_map.mp hc
  rw [isWordByte_lowerByte]
  exact hword d hd

/-- Words, each behind a blank. -/
def behindBlanks (runs : List Bytes) : Bytes := runs.flatMap fun run => 32::run

/-- Words with blanks between. -/
def joinRuns (runs : List Bytes) : Bytes := [32].intercalate runs

theorem joinRuns_cons (run : Bytes) (runs : List Bytes) :
    joinRuns (run::runs) = run++behindBlanks runs := by
  induction runs generalizing run with
  | nil => simp [joinRuns,behindBlanks]
  | cons next runs ih =>
      rw [behindBlanks,List.flatMap_cons,List.cons_append,← behindBlanks,← ih next]
      simp [joinRuns,List.intercalate_cons_cons]

section Normalize

/-- The words that the rest of a text adds, the first of which may go on with a word that began. -/
def restWords (run : Bytes) (runs : List Bytes) : Bytes :=
  lowerAscii run++behindBlanks ((runs.filter fun r => !r.isEmpty).map lowerAscii)

theorem restWords_empty (runs : List Bytes) : restWords [] ([]::runs) = restWords [] runs := rfl

theorem restWords_word (c : UInt8) (run : Bytes) (runs : List Bytes) :
    restWords (c::run) runs = lowerByte c::restWords run runs := rfl

theorem restWords_behind (c : UInt8) (run : Bytes) (runs : List Bytes) :
    restWords [] ((c::run)::runs) = 32::restWords (c::run) runs := rfl

/-- From any state, the rest of a text adds its words. -/
theorem normalize_rest (text : Bytes) : ∀ run runs,
    text.splitOnP (fun c => !isWordByte c) = run::runs →
      (∀ out, out ≠ [] →
        (text.foldl normalizeStep (out,false)).1 = out++restWords run runs ∧
        (text.foldl normalizeStep (out,true)).1 = out++restWords [] (run::runs)) ∧
      ∀ pending, (text.foldl normalizeStep ([],pending)).1 =
        joinRuns (((run::runs).filter fun r => !r.isEmpty).map lowerAscii) := by
  induction text with
  | nil =>
      intro run runs h
      obtain ⟨rfl,rfl⟩ : [] = run ∧ [] = runs := by simpa using h
      exact ⟨fun out _ => ⟨(List.append_nil out).symm,(List.append_nil out).symm⟩,fun _ => rfl⟩
  | cons c rest ih =>
      intro run runs h
      obtain ⟨next,others,hnext⟩ := List.exists_cons_of_ne_nil
        (List.splitOnP_ne_nil (fun c => !isWordByte c) rest)
      obtain ⟨hinside,hstart⟩ := ih next others hnext
      rw [List.splitOnP_cons_eq_if_modifyHead,hnext] at h
      cases hc : isWordByte c with
      | true =>
          obtain ⟨rfl,rfl⟩ : c::next = run ∧ others = runs := by simpa [hc] using h
          have hstep (out : Bytes) (pending : Bool) : normalizeStep (out,pending) c =
              ((if pending ∧ out ≠ [] then out++[32] else out)++[lowerByte c],false) := if_pos hc
          refine ⟨fun out hout => ⟨?_,?_⟩,fun pending => ?_⟩
          · rw [List.foldl_cons,hstep,if_neg fun h => Bool.false_ne_true h.1,(hinside _ (by simp)).1,
              restWords_word,List.append_assoc,List.singleton_append]
          · rw [List.foldl_cons,hstep,if_pos ⟨rfl,hout⟩,(hinside _ (by simp)).1,restWords_behind,
              restWords_word,List.append_assoc,List.append_assoc,List.singleton_append,
              List.singleton_append]
          · rw [List.foldl_cons,hstep,if_neg fun h => h.2 rfl,(hinside _ (by simp)).1,
              List.filter_cons_of_pos (by rfl),List.map_cons,joinRuns_cons,List.nil_append]
            rfl
      | false =>
          obtain ⟨rfl,rfl⟩ : [] = run ∧ next::others = runs := by simpa [hc] using h
          have hstep (out : Bytes) (pending : Bool) : normalizeStep (out,pending) c = (out,true) :=
            if_neg (by rw [hc]; exact Bool.false_ne_true)
          refine ⟨fun out hout => ⟨?_,?_⟩,fun pending => ?_⟩
          · rw [List.foldl_cons,hstep,(hinside out hout).2]
          · rw [List.foldl_cons,hstep,(hinside out hout).2,restWords_empty]
          · rw [List.foldl_cons,hstep,hstart true]
            rfl

end Normalize

theorem normalizeForRepeat_eq (text : Bytes) :
    normalizeForRepeat text = joinRuns (wordRuns text) := by
  obtain ⟨run,runs,h⟩ := List.exists_cons_of_ne_nil
    (List.splitOnP_ne_nil (fun c => !isWordByte c) text)
  rw [normalizeForRepeat,(normalize_rest text run runs h).2 false,wordRuns,maximalRuns,h]

theorem blank_not_word {run : Bytes} (h : ∀ c ∈ run, isWordByte c = true) : 32 ∉ run :=
  fun hmem => absurd (h 32 hmem) (by decide)

/-- Words that are joined are split again. -/
theorem joinRuns_injective {as bs : List Bytes} (has : ∀ run ∈ as, run ≠ [] ∧ 32 ∉ run)
    (hbs : ∀ run ∈ bs, run ≠ [] ∧ 32 ∉ run) (h : joinRuns as = joinRuns bs) : as = bs := by
  have hnil (cs : List Bytes) (hcs : ∀ run ∈ cs, run ≠ [] ∧ 32 ∉ run) (hempty : joinRuns cs = []) :
      cs = [] := by
    cases cs with
    | nil => rfl
    | cons run cs =>
        rw [joinRuns_cons,List.append_eq_nil_iff] at hempty
        exact absurd hempty.1 (hcs run List.mem_cons_self).1
  by_cases hempty : as = []
  · subst hempty
    exact (hnil bs hbs h.symm).symm
  · have hne : bs ≠ [] := fun hb => hempty (hnil as has (by rw [h,hb]; rfl))
    rw [← List.splitOn_intercalate 32 (fun run hrun => (has run hrun).2) hempty,
      ← List.splitOn_intercalate 32 (fun run hrun => (hbs run hrun).2) hne]
    exact congrArg (List.splitOn 32) h

theorem normalizeForRepeat_inj {a b : Bytes} :
    normalizeForRepeat a = normalizeForRepeat b ↔ wordRuns a = wordRuns b := by
  rw [normalizeForRepeat_eq,normalizeForRepeat_eq]
  refine ⟨fun h => joinRuns_injective ?_ ?_ h,fun h => congrArg joinRuns h⟩
  · exact fun run hrun => ⟨(mem_wordRuns hrun).1,blank_not_word (mem_wordRuns hrun).2⟩
  · exact fun run hrun => ⟨(mem_wordRuns hrun).1,blank_not_word (mem_wordRuns hrun).2⟩

/-- The words of words that are joined. -/
theorem maximalRuns_joinRuns {runs : List Bytes}
    (h : ∀ run ∈ runs, run ≠ [] ∧ ∀ c ∈ run, isWordByte c = true) :
    maximalRuns isWordByte (joinRuns runs) = runs := by
  cases runs with
  | nil => rfl
  | cons run runs =>
      rw [joinRuns_cons]
      induction runs generalizing run with
      | nil =>
          have hrun := h run List.mem_cons_self
          rw [behindBlanks,List.flatMap_nil,List.append_nil]
          exact maximalRuns_all hrun.1 hrun.2
      | cons next runs ih =>
          have hrun := h run List.mem_cons_self
          have hrest := ih next fun r hr => h r (List.mem_cons_of_mem _ hr)
          have hblank : (!isWordByte 32) = true := by decide
          rw [behindBlanks,List.flatMap_cons,← behindBlanks,List.cons_append,maximalRuns,
            List.splitOnP_append_cons_of_forall_mem
              (fun c hc => by rw [hrun.2 c hc]; rfl) 32 hblank,
            List.filter_cons_of_pos (by simpa using hrun.1),← maximalRuns,hrest]

theorem normalizeForRepeat_normalizeForRepeat (text : Bytes) :
    normalizeForRepeat (normalizeForRepeat text) = normalizeForRepeat text := by
  have hruns : wordRuns (joinRuns (wordRuns text)) = wordRuns text := by
    rw [wordRuns,maximalRuns_joinRuns fun run hrun => mem_wordRuns hrun,wordRuns,List.map_map]
    exact List.map_congr_left fun run _ => lowerAscii_lowerAscii run
  rw [normalizeForRepeat_eq,normalizeForRepeat_eq,hruns]

/-! ## Shapes -/

/-- The word stands in the text with no word byte beside it. -/
def WholeWord (text word : Bytes) : Prop := ∃ before after, before++word++after = text ∧
  (∀ c ∈ before.getLast?, isWordByte c = false) ∧ ∀ c ∈ after.head?, isWordByte c = false

/-- A label's last byte, a dot, and two letters or more that end the word. -/
def DomainShape (text : Bytes) : Prop := ∃ before c tld after, before++c::46::tld++after = text ∧
  (isAlnum c = true ∨ c = 45) ∧ 2 ≤ tld.length ∧ (∀ d ∈ tld, isAlpha d = true) ∧
  ∀ d ∈ after.head?, isWordByte d = false

/-- The marker stands right before a word byte. -/
def Marked (text : Bytes) (marker : UInt8) : Prop :=
  ∃ before c after, before++marker::c::after = text ∧ isWordByte c = true

/-- A term of word bytes occurs as a word, another one anywhere. -/
def Mentions (text term : Bytes) : Prop :=
  if ∀ c ∈ term, isWordByte c = true then WholeWord text term else term <:+: text

theorem wordAt_behind (before after : Bytes) : wordAt (before++after) before.length = false ↔
    ∀ c ∈ after.head?, isWordByte c = false := by
  unfold wordAt
  rw [List.getElem?_append_right (Nat.le_refl _),Nat.sub_self]
  cases after with
  | nil => simp
  | cons c after => simp

theorem wordAt_last {before : Bytes} (after : Bytes) (h : before ≠ []) :
    wordAt (before++after) (before.length-1) = false ↔
      ∀ c ∈ before.getLast?, isWordByte c = false := by
  have hpos := List.length_pos_of_ne_nil h
  unfold wordAt
  rw [List.getElem?_append_left (by omega),← List.getLast?_eq_getElem?,
    List.getLast?_eq_getLast_of_ne_nil h]
  simp

theorem containsWord_iff {text word : Bytes} :
    containsWord text word = true ↔ word ≠ [] ∧ WholeWord text word := by
  unfold containsWord
  rw [Bool.and_eq_true,decide_eq_true_eq,matchesAny_iff]
  refine and_congr_right fun _ => exists₂_congr fun before after => and_congr_right ?_
  rintro rfl
  unfold hasWordAt
  have hright := wordAt_behind (before++word) after
  rw [List.length_append] at hright
  rw [Bool.and_eq_true,Bool.not_eq_true',hright]
  refine and_congr_left fun _ => ?_
  rw [List.append_assoc]
  by_cases hbefore : before = []
  · subst hbefore
    simp
  · have hpos := List.length_pos_of_ne_nil hbefore
    rw [Bool.or_eq_true,Bool.not_eq_true',wordAt_last _ hbefore,decide_eq_true_eq]
    exact or_iff_right (by omega)

theorem followedByWord_iff {text : Bytes} {marker : UInt8} :
    followedByWord text marker = true ↔ Marked text marker := by
  unfold followedByWord
  rw [matchesAny_iff]
  constructor
  · rintro ⟨before,after,rfl,hword⟩
    have hnext := wordAt_behind (before++[marker]) after
    rw [List.length_append,List.length_singleton] at hnext
    cases after with
    | nil =>
        rw [hnext.mpr (by simp)] at hword
        cases hword
    | cons c after =>
        refine ⟨before,c,after,by simp,?_⟩
        by_contra hc
        rw [hnext.mpr (by simpa using hc)] at hword
        cases hword
  · rintro ⟨before,c,after,rfl,hc⟩
    refine ⟨before,c::after,by simp,?_⟩
    unfold wordAt
    rw [List.getElem?_append_right (by omega),Nat.add_sub_cancel_left]
    exact hc

theorem termMatches_iff {text term : Bytes} (h : term ≠ []) :
    termMatches text term = true ↔ Mentions text term := by
  unfold termMatches Mentions
  simp only [List.all_eq_true]
  split
  · rw [containsWord_iff]
    exact and_iff_right h
  · rw [Option.isSome_iff_ne_none,find_ne_none_iff]

theorem isWordByte_of_isAlpha {c : UInt8} (h : isAlpha c = true) : isWordByte c = true := by
  unfold isWordByte isAlnum
  rw [h]
  rfl

theorem domainAt_iff (before : Bytes) (c : UInt8) (rest : Bytes) :
    domainAt (before++c::46::rest) (before.length+1) = true ↔
      (isAlnum c = true ∨ c = 45) ∧ 2 ≤ (rest.takeWhile isAlpha).length ∧
        ∀ d ∈ (rest.dropWhile isAlpha).head?, isWordByte d = false := by
  have hbefore : (before++c::46::rest)[before.length+1-1]? = some c := by
    rw [Nat.add_sub_cancel,List.getElem?_append_right (Nat.le_refl _),Nat.sub_self]
    rfl
  have hrest : (before++c::46::rest).drop (before.length+1+1) = rest := by
    rw [show before++c::46::rest = (before++[c,46])++rest by simp]
    exact List.drop_left' (by simp)
  have hend := wordAt_behind (before++c::46::rest.takeWhile isAlpha) (rest.dropWhile isAlpha)
  rw [List.append_assoc,List.cons_append,List.cons_append,List.takeWhile_append_dropWhile,
    List.length_append,List.length_cons,List.length_cons] at hend
  unfold domainAt
  simp only [hbefore,hrest,Option.map_some,Option.getD_some,Bool.and_eq_true,Bool.or_eq_true,
    decide_eq_true_eq,Bool.not_eq_true']
  rw [show before.length+1+1+(rest.takeWhile isAlpha).length =
    before.length+((rest.takeWhile isAlpha).length+1+1) by omega,hend]
  constructor
  · rintro ⟨⟨-,hc⟩,htwo,hafter⟩
    exact ⟨hc,htwo,hafter⟩
  · rintro ⟨hc,htwo,hafter⟩
    refine ⟨⟨⟨Nat.succ_ne_zero _,?_⟩,hc⟩,htwo,hafter⟩
    have hle := (List.takeWhile_sublist isAlpha (l := rest)).length_le
    simp only [List.length_append,List.length_cons]
    omega

/-- Letters before what begins with no word byte are a maximal run of letters. -/
theorem takeWhile_letters {tld after : Bytes} (h : ∀ d ∈ tld, isAlpha d = true)
    (hend : ∀ d ∈ after.head?, isWordByte d = false) :
    (tld++after).takeWhile isAlpha = tld ∧ (tld++after).dropWhile isAlpha = after := by
  have hstop : after.takeWhile isAlpha = [] ∧ after.dropWhile isAlpha = after := by
    cases after with
    | nil => exact ⟨rfl,rfl⟩
    | cons d after =>
        have hd : isAlpha d = false := by
          by_contra hletter
          have hword := isWordByte_of_isAlpha (Bool.eq_true_of_not_eq_false hletter)
          rw [hend d rfl] at hword
          cases hword
        exact ⟨List.takeWhile_cons_of_neg (by rw [hd]; exact Bool.false_ne_true),
          List.dropWhile_cons_of_neg (by rw [hd]; exact Bool.false_ne_true)⟩
  rw [List.takeWhile_append_of_pos h,List.dropWhile_append_of_pos h,hstop.1,hstop.2,List.append_nil]
  exact ⟨rfl,rfl⟩

theorem hasDomainShape_iff {text : Bytes} : hasDomainShape text = true ↔ DomainShape text := by
  unfold hasDomainShape
  rw [matchesAny_iff]
  constructor
  · rintro ⟨front,rest,rfl,h⟩
    rcases List.eq_nil_or_concat front with rfl | ⟨before,c,rfl⟩
    · cases h
    · rw [List.concat_eq_append,List.append_assoc,List.append_assoc,List.length_append] at *
      obtain ⟨hc,htwo,hend⟩ := (domainAt_iff before c rest).mp h
      refine ⟨before,c,rest.takeWhile isAlpha,rest.dropWhile isAlpha,?_,hc,htwo,
        fun d hd => List.mem_takeWhile_imp hd,hend⟩
      simp
  · rintro ⟨before,c,tld,after,rfl,hc,htwo,hletters,hend⟩
    obtain ⟨htake,hdrop⟩ := takeWhile_letters hletters hend
    refine ⟨before++[c],tld++after,by simp,?_⟩
    have hdomain := (domainAt_iff before c (tld++after)).mpr
      ⟨hc,by rwa [htake],by rwa [hdrop]⟩
    simpa using hdomain

/-! ## The case of letters does not matter -/

theorem isSpace_lowerByte (c : UInt8) : isSpace (lowerByte c) = isSpace c := (lowerByte_keeps c).2.2.1

/-- No byte becomes or ceases to be one of a sequence of several bytes. -/
theorem lowerByte_continuation (c : UInt8) : (lowerByte c &&& 0xC0 = 0x80 ↔ c &&& 0xC0 = 0x80) ∧
    (c &&& 0xC0 = 0x80 → lowerByte c = c) := (lowerByte_keeps c).2.2.2.1

theorem lowerByte_lead (c : UInt8) :
    (lowerByte c < 0x80 ↔ c < 0x80) ∧ (¬c < 0x80 → lowerByte c = c) := (lowerByte_keeps c).2.2.2.2

theorem continued_lowerAscii (code : UInt32) (rest : Bytes) :
    continued code (lowerAscii rest) = continued code rest := by
  induction rest generalizing code with
  | nil => rfl
  | cons next rest ih =>
      obtain ⟨hmark,hsame⟩ := lowerByte_continuation next
      rw [lowerAscii,List.map_cons,continued,continued]
      by_cases hnext : next &&& 0xC0 = 0x80
      · rw [if_neg (not_not.mpr (hmark.mpr hnext)),if_neg (not_not.mpr hnext),hsame hnext]
        exact ih _
      · rw [if_pos (fun h => hnext (hmark.mp h)),if_pos hnext]

theorem sequenceLength_ascii {lead : UInt8} (h : lead < 0x80) (rest : Bytes) :
    sequenceLength (lead::rest) = some 1 := by
  have hgood : ∀ lead : UInt8, lead < 0x80 → misencoded 1 lead.toUInt32 = false := by
    decide +kernel
  have hlead : leadByte lead = some (1,lead.toUInt32) := if_pos h
  rw [sequenceLength,hlead]
  simp only [Option.bind_eq_bind,Option.bind_some,Nat.sub_self,List.take_zero,continued,hgood lead h]
  rw [if_neg (by omega),if_neg Bool.false_ne_true]

theorem sequenceLength_lowerAscii (text : Bytes) :
    sequenceLength (lowerAscii text) = sequenceLength text := by
  cases text with
  | nil => rfl
  | cons lead rest =>
      obtain ⟨hascii,hsame⟩ := lowerByte_lead lead
      rw [lowerAscii,List.map_cons]
      by_cases hlead : lead < 0x80
      · rw [sequenceLength_ascii hlead,sequenceLength_ascii (hascii.mpr hlead)]
      · have htake (n : ℕ) : (rest.map lowerByte).take n = lowerAscii (rest.take n) :=
          List.map_take.symm
        rw [hsame hlead,sequenceLength,sequenceLength]
        simp only [List.length_map,htake,continued_lowerAscii]

theorem countSequences_lowerAscii (fuel : ℕ) (text : Bytes) :
    countSequences fuel (lowerAscii text) = countSequences fuel text := by
  induction fuel generalizing text with
  | zero => cases text <;> rfl
  | succ fuel ih =>
      cases text with
      | nil => rfl
      | cons lead rest =>
          have hdrop (n : ℕ) : (lowerAscii (lead::rest)).drop n = lowerAscii ((lead::rest).drop n) :=
            List.map_drop.symm
          have hlength := sequenceLength_lowerAscii (lead::rest)
          show (sequenceLength (lowerAscii (lead::rest))).bind _ = (sequenceLength (lead::rest)).bind _
          rw [hlength]
          exact congrArg _ (funext fun n => congrArg (Option.map (·+1)) ((congrArg _ (hdrop n)).trans
            (ih _)))

theorem utf8Codepoints_lowerAscii (text : Bytes) :
    utf8Codepoints (lowerAscii text) = utf8Codepoints text := by
  rw [utf8Codepoints,utf8Codepoints,countSequences_lowerAscii,lowerAscii,List.length_map]

theorem normalizeForRepeat_lowerAscii (text : Bytes) :
    normalizeForRepeat (lowerAscii text) = normalizeForRepeat text := by
  have hstep (s : Bytes×Bool) (c : UInt8) : normalizeStep s (lowerByte c) = normalizeStep s c := by
    unfold normalizeStep
    rw [isWordByte_lowerByte,lowerByte_lowerByte]
  rw [normalizeForRepeat,normalizeForRepeat,lowerAscii,List.foldl_map]
  simp only [hstep]

theorem marked_lowerAscii {text : Bytes} {marker : UInt8}
    (h : ∀ c, lowerByte c = marker ↔ c = marker) :
    Marked (lowerAscii text) marker ↔ Marked text marker := by
  constructor
  · rintro ⟨before,c,after,htext,hc⟩
    obtain ⟨pre,rest,rfl,-,hrest⟩ := List.map_eq_append_iff.mp htext.symm
    obtain ⟨m,rest,rfl,hm,hrest⟩ := List.map_eq_cons_iff.mp hrest
    obtain ⟨d,post,rfl,rfl,-⟩ := List.map_eq_cons_iff.mp hrest
    refine ⟨pre,d,post,by rw [(h m).mp hm],?_⟩
    rwa [isWordByte_lowerByte] at hc
  · rintro ⟨before,c,after,rfl,hc⟩
    refine ⟨lowerAscii before,lowerByte c,lowerAscii after,?_,by rwa [isWordByte_lowerByte]⟩
    rw [lowerAscii,lowerAscii,lowerAscii,List.map_append,List.map_cons,List.map_cons,
      (h marker).mpr rfl]

theorem followedByWord_lowerAscii (text : Bytes) {marker : UInt8}
    (h : ∀ c, lowerByte c = marker ↔ c = marker) :
    followedByWord (lowerAscii text) marker = followedByWord text marker := by
  rw [Bool.eq_iff_iff,followedByWord_iff,followedByWord_iff,marked_lowerAscii h]

theorem checkOutputText_lowerAscii (text : Bytes) (config : TextGuardConfig)
    (recent : List RecentText) (now : ℤ) :
    checkOutputText (lowerAscii text) config recent now = checkOutputText text config recent now := by
  have hspace : (lowerAscii text).all isSpace = text.all isSpace := by
    rw [lowerAscii,List.all_map]
    exact congrArg text.all (funext isSpace_lowerByte)
  have hmention : followedByWord (lowerAscii text) 64 = followedByWord text 64 :=
    followedByWord_lowerAscii text (by decide +kernel)
  have hashtag : followedByWord (lowerAscii text) 35 = followedByWord text 35 :=
    followedByWord_lowerAscii text (by decide +kernel)
  unfold checkOutputText hasMention isRepeat
  rw [hspace,utf8Codepoints_lowerAscii,lowerAscii_lowerAscii,hmention,hashtag,
    normalizeForRepeat_lowerAscii]

/-! ## The verdict -/

/-- What a text must meet to be published. -/
structure Sayable (text : Bytes) (config : TextGuardConfig) (recent : List RecentText) (now : ℤ) :
    Prop where
  said : ∃ c ∈ text, isSpace c = false
  encoded : ∃ cs, Utf8.encode cs = text ∧ cs.length ≤ config.maxCodepoints
  noScheme : ¬utf8 "://" <:+: lowerAscii text ∧ ¬WholeWord (lowerAscii text) (utf8 "http") ∧
    ¬WholeWord (lowerAscii text) (utf8 "https")
  noWww : ¬utf8 "www." <:+: lowerAscii text ∧ ¬WholeWord (lowerAscii text) (utf8 "www")
  noDomain : ¬DomainShape (lowerAscii text)
  noMention : ¬Marked text 64 ∧ ¬utf8 "did:" <:+: lowerAscii text
  noHashtag : ¬Marked text 35
  noDenied : ∀ term ∈ config.deniedTerms, term ≠ [] → ¬Mentions (lowerAscii text) term
  fresh : 0 < config.repeatWindowSeconds → ∀ earlier ∈ recent,
    now-earlier.atEpoch ≤ config.repeatWindowSeconds → wordRuns earlier.text ≠ wordRuns text

section Verdict
variable {text : Bytes} {config : TextGuardConfig} {recent : List RecentText} {now : ℤ}

theorem find_isSome_iff {pattern : Bytes} : (find text pattern).isSome = true ↔ pattern <:+: text := by
  rw [Option.isSome_iff_ne_none,find_ne_none_iff]

theorem hasUrl_iff : hasUrl text = true ↔
    utf8 "://" <:+: text ∨ utf8 "www." <:+: text ∨ WholeWord text (utf8 "http") ∨
      WholeWord text (utf8 "https") ∨ WholeWord text (utf8 "www") ∨ DomainShape text := by
  have hhttp : utf8 "http" ≠ [] := by decide
  have hhttps : utf8 "https" ≠ [] := by decide
  have hwww : utf8 "www" ≠ [] := by decide
  unfold hasUrl
  simp only [Bool.or_eq_true,find_isSome_iff,containsWord_iff,hasDomainShape_iff,ne_eq,hhttp,hhttps,
    hwww,not_false_eq_true,true_and,or_assoc]

theorem deniedTerm_none_iff : deniedTerm config text = none ↔
    ∀ term ∈ config.deniedTerms, term ≠ [] → ¬Mentions text term := by
  unfold deniedTerm
  rw [List.find?_eq_none]
  refine forall₂_congr fun term _ => ?_
  rw [Bool.and_eq_true,decide_eq_true_eq,not_and]
  exact forall_congr' fun hne => by rw [termMatches_iff hne]

theorem isRepeat_iff : isRepeat text config recent now = true ↔
    0 < config.repeatWindowSeconds ∧ ∃ earlier ∈ recent,
      now-earlier.atEpoch ≤ config.repeatWindowSeconds ∧ wordRuns earlier.text = wordRuns text := by
  unfold isRepeat
  simp only [Bool.and_eq_true,decide_eq_true_eq,List.any_eq_true,normalizeForRepeat_inj]

theorem checkOutputText_allowed :
    (checkOutputText text config recent now).allowed = true ↔ Sayable text config recent now := by
  have hrefuse {reason : TextRefusal} {detail : Bytes} (hreason : reason ≠ .none)
      (h : ¬Sayable text config recent now) :
      (TextVerdict.mk reason detail).allowed = true ↔ Sayable text config recent now :=
    iff_of_false (fun hallowed => hreason (of_decide_eq_true hallowed)) h
  unfold checkOutputText
  by_cases hblank : text.all isSpace = true
  · rw [if_pos hblank]
    refine hrefuse nofun fun h => ?_
    obtain ⟨c,hc,hsaid⟩ := h.said
    rw [List.all_eq_true.mp hblank c hc] at hsaid
    cases hsaid
  rw [if_neg hblank]
  cases hcount : utf8Codepoints text with
  | none =>
      refine hrefuse nofun fun h => ?_
      obtain ⟨cs,hcs,-⟩ := h.encoded
      rw [utf8Codepoints_iff.mpr ⟨cs,hcs,rfl⟩] at hcount
      cases hcount
  | some n =>
      dsimp only
      by_cases hlong : config.maxCodepoints < n
      · rw [if_pos hlong]
        refine hrefuse nofun fun h => ?_
        obtain ⟨cs,hcs,hle⟩ := h.encoded
        rw [utf8Codepoints_iff.mpr ⟨cs,hcs,rfl⟩] at hcount
        have hn := Option.some.inj hcount
        omega
      rw [if_neg hlong]
      by_cases hurl : hasUrl (lowerAscii text) = true
      · rw [if_pos hurl]
        refine hrefuse nofun fun h => ?_
        rcases hasUrl_iff.mp hurl with hurl | hurl | hurl | hurl | hurl | hurl
        · exact h.noScheme.1 hurl
        · exact h.noWww.1 hurl
        · exact h.noScheme.2.1 hurl
        · exact h.noScheme.2.2 hurl
        · exact h.noWww.2 hurl
        · exact h.noDomain hurl
      rw [if_neg hurl]
      by_cases hmention : hasMention text (lowerAscii text) = true
      · rw [if_pos hmention]
        refine hrefuse nofun fun h => ?_
        rcases Bool.or_eq_true_iff.mp hmention with hmention | hmention
        · exact h.noMention.1 (followedByWord_iff.mp hmention)
        · exact h.noMention.2 (find_isSome_iff.mp hmention)
      rw [if_neg hmention]
      by_cases hhashtag : followedByWord text 35 = true
      · rw [if_pos hhashtag]
        exact hrefuse nofun fun h => h.noHashtag (followedByWord_iff.mp hhashtag)
      rw [if_neg hhashtag]
      cases hdenied : deniedTerm config (lowerAscii text) with
      | some term =>
          refine hrefuse nofun fun h => ?_
          rw [deniedTerm_none_iff.mpr h.noDenied] at hdenied
          cases hdenied
      | none =>
          dsimp only
          by_cases hrepeat : isRepeat text config recent now = true
          · rw [if_pos hrepeat]
            refine hrefuse nofun fun h => ?_
            obtain ⟨hwindow,earlier,hmem,hinside,hsame⟩ := isRepeat_iff.mp hrepeat
            exact h.fresh hwindow earlier hmem hinside hsame
          rw [if_neg hrepeat]
          refine iff_of_true rfl ?_
          simp only [hasUrl_iff,not_or] at hurl
          obtain ⟨cs,hcs,hlength⟩ := utf8Codepoints_iff.mp hcount
          refine ⟨?_,⟨cs,hcs,by omega⟩,⟨hurl.1,hurl.2.2.1,hurl.2.2.2.1⟩,⟨hurl.2.1,hurl.2.2.2.2.1⟩,
            hurl.2.2.2.2.2,⟨fun h => ?_,fun h => ?_⟩,fun h => ?_,deniedTerm_none_iff.mp hdenied,
            fun hwindow earlier hmem hinside hsame => ?_⟩
          · simpa using hblank
          · exact hmention (Bool.or_eq_true_iff.mpr (Or.inl (followedByWord_iff.mpr h)))
          · exact hmention (Bool.or_eq_true_iff.mpr (Or.inr (find_isSome_iff.mpr h)))
          · exact hhashtag (followedByWord_iff.mpr h)
          · exact hrepeat (isRepeat_iff.mpr ⟨hwindow,earlier,hmem,hinside,hsame⟩)

end Verdict

/-- The guard allows a text just if it meets the rules, whatever the case of its letters; and two
texts are a repeat of each other just if their words are the same. -/
theorem text_guard_decides (text : Bytes) (config : TextGuardConfig) (recent : List RecentText)
    (now : ℤ) :
    ((checkOutputText text config recent now).allowed = true ↔ Sayable text config recent now) ∧
    (∀ other, lowerAscii other = lowerAscii text →
      checkOutputText other config recent now = checkOutputText text config recent now) ∧
    normalizeForRepeat (normalizeForRepeat text) = normalizeForRepeat text ∧
    ∀ other, normalizeForRepeat text = normalizeForRepeat other ↔ wordRuns text = wordRuns other := by
  refine ⟨checkOutputText_allowed,fun other h => ?_,normalizeForRepeat_normalizeForRepeat text,
    fun other => normalizeForRepeat_inj⟩
  rw [← checkOutputText_lowerAscii other,h,checkOutputText_lowerAscii]

end Atperson.Scheduler
