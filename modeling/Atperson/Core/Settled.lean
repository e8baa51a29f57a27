import Atperson.Core.Plans
import Atperson.Core.Truncation

/-!
# Settled tokens

A plan reads a stored token as a text again. That gives the token back where its bytes are
whole codepoints that tokens are made of and the Unicode library leaves them as they are.
The byte scanner keeps what it finds, so its tokens need not be like that. The Unicode scanner
keeps a stretch of what the library made of the text, unless it passes over a codepoint at the
end of the buffer and goes on.
-/
namespace Atperson.Core
open Wire Runs

/-- What is documented of the normalization: it gives codepoints, and it leaves every stretch
of what it gives as it is. -/
structure Steady (U : Utf8proc) : Prop where
  encoded : ∀ (text : Text) (normalized : Bytes),
    U.map (sanitizeUtf8 U text.bytes.length text.bytes) = some normalized →
      ∃ cs : List (Codepoint U), (CString.ofRaw normalized).bytes = spell cs
  closed : ∀ (text : Text) (cs part : List (Codepoint U)), Normalizes U text cs → part <:+: cs →
    U.map (spell part) = some (spell part)

/-- Codepoints of a token that the library leaves as they are. -/
def Settled (U : Utf8proc) (bs : Bytes) : Prop :=
  U.map bs = some bs ∧
    ∃ cs : List (Codepoint U), cs ≠ [] ∧ bs = spell cs ∧ ∀ c ∈ cs, c.isToken = true

/-- What the scanners keep of a text is settled: under schema 1, the lowered bytes of each run
that fit; under schema 2, what fits of each run, be it that nothing behind the cut fits. -/
def Retold (U : Utf8proc) (schema : UInt32) (text : Text) : Prop :=
  if schema ≤ 1 then
    ∀ run ∈ maximalRuns legacyTokenByte text.bytes, Settled U ((run.take tokenRoom).map legacyLower)
  else ∀ cs : List (Codepoint U), Normalizes U text cs → ∀ run ∈ maximalRuns Codepoint.isToken cs,
    Sealed run ∨ U.map (spell (filled Codepoint.size tokenRoom run)) =
      some (spell (filled Codepoint.size tokenRoom run))

section Settled
variable {U : Utf8proc}

/-- Sanitizing leaves codepoints as they are. -/
theorem sanitize_spell (cs : List (Codepoint U)) {fuel : ℕ} (hfuel : (spell cs).length ≤ fuel) :
    sanitizeUtf8 U fuel (spell cs) = spell cs := by
  induction cs generalizing fuel with
  | nil => cases fuel <;> rfl
  | cons c cs ih =>
      have hpos := c.size_pos
      have hvalid := c.valid
      rw [Codepoint.size] at hpos
      rw [spell_cons,List.length_append] at hfuel
      obtain ⟨fuel,rfl⟩ := Nat.exists_eq_succ_of_ne_zero (by omega : fuel ≠ 0)
      have hne : c.bytes++spell cs ≠ [] := List.append_ne_nil_of_left_ne_nil c.nonempty _
      have hstep : ¬((c.bytes.length : ℤ) < 1 ∨ c.code < 0) := by omega
      rw [spell_cons,sanitizeUtf8.eq_3 U _ fuel hne]
      simp only [c.decodes,if_neg hstep,Int.toNat_natCast,List.take_left,List.drop_left]
      rw [ih (by omega)]

/-- A settled token, read as a text, is the one token of it. -/
theorem retokenize {t : Token} (h : Settled U t.bytes) : tokenize U schemaVersion t.text = [t] := by
  obtain ⟨hmap,cs,hne,hbytes,htoken⟩ := h
  have hnormalizes : Normalizes U t.text cs := by
    refine ⟨t.bytes,?_,?_⟩
    · show U.map (sanitizeUtf8 U t.bytes.length t.bytes) = some t.bytes
      rw [hbytes,sanitize_spell cs le_rfl,← hbytes]
      exact hmap
    · rw [← hbytes]
      exact congrArg CString.bytes (CString.ofRaw_bytes ⟨t.bytes,t.noNul⟩)
  have hfits : total Codepoint.size cs ≤ tokenRoom := by
    rw [← spell_length,← hbytes]
    exact Nat.le_of_lt_succ t.fits
  have hbuffer : Token.ofBuffer (spell cs) = t :=
    CText.ext (by rw [ofBuffer_spell hfits,hbytes])
  rw [tokenize_unicode (by decide) hnormalizes,maximalRuns_all hne htoken,List.map_singleton,
    filled_all hfits,hbuffer]

theorem retold_legacy {schema : UInt32} (hschema : schema ≤ 1) {text : Text}
    (h : Retold U schema text) {t : Token} (ht : t ∈ tokenize U schema text) :
    Settled U t.bytes := by
  rw [Retold,if_pos hschema] at h
  rw [tokenize_legacy hschema] at ht
  obtain ⟨run,hrun,rfl⟩ := List.mem_map.mp ht
  have hsettled := h run hrun
  obtain ⟨-,cs,-,hbytes,-⟩ := hsettled
  have hlength : ((run.take tokenRoom).map legacyLower).length ≤ tokenRoom := by
    rw [List.length_map]
    exact List.length_take_le ..
  rw [legacyCut,ofBuffer_bytes hlength (hbytes ▸ spell_noNul cs)]
  exact h run hrun

theorem retold_unicode (hU : Steady U) {schema : UInt32} (hschema : ¬schema ≤ 1) {text : Text}
    (h : Retold U schema text) {t : Token} (ht : t ∈ tokenize U schema text) :
    Settled U t.bytes := by
  rw [Retold,if_neg hschema] at h
  cases hmap : U.map (sanitizeUtf8 U text.bytes.length text.bytes) with
  | none =>
      rw [tokenize,if_neg hschema,tokenizeUnicode,hmap] at ht
      cases ht
  | some normalized =>
      obtain ⟨cs,hcs⟩ := hU.encoded text normalized hmap
      have hnormalizes : Normalizes U text cs := ⟨normalized,hmap,hcs⟩
      rw [tokenize_unicode (UInt32.not_le.mp hschema) hnormalizes] at ht
      obtain ⟨run,hrun,rfl⟩ := List.mem_map.mp ht
      obtain ⟨hne,hstretch,htoken⟩ := mem_maximalRuns hrun
      have hfits : total Codepoint.size (filled Codepoint.size tokenRoom run) ≤ tokenRoom :=
        total_filled tokenRoom run
      have hbytes := ofBuffer_spell hfits
      refine ⟨?_,filled Codepoint.size tokenRoom run,filled_ne_nil Codepoint.size_fits hne,hbytes,
        fun c hc => htoken c (mem_filled hc)⟩
      rw [hbytes]
      rcases h cs hnormalizes run hrun with hsealed | hfixed
      · rw [filled_eq_within.mpr hsealed]
        exact hU.closed text cs _ hnormalizes
          (List.IsInfix.trans (List.IsPrefix.isInfix <| within_prefix tokenRoom run) hstretch)
      · exact hfixed

/-- Every token of such a text is settled. -/
theorem Retold.settled (hU : Steady U) {schema : UInt32} {text : Text} (h : Retold U schema text)
    {t : Token} (ht : t ∈ tokenize U schema text) : Settled U t.bytes := by
  by_cases hschema : schema ≤ 1
  · exact retold_legacy hschema h ht
  · exact retold_unicode hU hschema h ht

/-- A run that fits has nothing behind the cut. -/
theorem sealed_of_fits {run : List (Codepoint U)} (h : total Codepoint.size run ≤ tokenRoom) :
    Sealed run := by
  have hall : run <+: within Codepoint.size tokenRoom run := within_longest List.prefix_rfl h
  intro c hc
  rw [List.drop_eq_nil_of_le hall.length_le] at hc
  cases hc

/-- Under schema 2, a text that fits one token is retold. -/
theorem retold_brief {schema : UInt32} (hschema : ¬schema ≤ 1) {text : Text}
    (h : ∀ cs : List (Codepoint U), Normalizes U text cs → (spell cs).length ≤ tokenRoom) :
    Retold U schema text := by
  rw [Retold,if_neg hschema]
  intro cs hcs run hrun
  obtain ⟨before,after,rfl⟩ := (mem_maximalRuns hrun).2.1
  have hlength := h _ hcs
  rw [spell_length,total_append,total_append] at hlength
  exact .inl (sealed_of_fits (by omega))

end Settled

/-! ## The plain library -/

/-- A sequence as the plain library decodes it. -/
structure Sequence (bs : Bytes) : Prop where
  shape : ∃ b tail, bs = b::tail ∧ b ≠ 0 ∧ tail.length+1 = utf8Length b ∧
    ∀ c ∈ tail, 0x80 ≤ c ∧ c < 0xC0

theorem utf8Length_le (b : UInt8) : utf8Length b ≤ 4 := by
  unfold utf8Length
  split_ifs <;> decide

theorem legacyLower_keeps (b : UInt8) : utf8Length (legacyLower b) = utf8Length b ∧
    (b ≠ 0 → legacyLower b ≠ 0) ∧ (0x80 ≤ b → legacyLower b = b) ∧
    legacyLower (legacyLower b) = legacyLower b := by
  revert b
  decide +kernel

theorem legacyLower_length (b : UInt8) : utf8Length (legacyLower b) = utf8Length b :=
  (legacyLower_keeps b).1

theorem legacyLower_ne {b : UInt8} : b ≠ 0 → legacyLower b ≠ 0 := (legacyLower_keeps b).2.1

theorem legacyLower_wide {b : UInt8} : 0x80 ≤ b → legacyLower b = b := (legacyLower_keeps b).2.2.1

theorem legacyLower_idem (b : UInt8) : legacyLower (legacyLower b) = legacyLower b :=
  (legacyLower_keeps b).2.2.2

namespace Sequence

theorem lowered {bs : Bytes} (h : Sequence bs) : Sequence (bs.map legacyLower) := by
  obtain ⟨b,tail,rfl,hb,hlength,htail⟩ := h.shape
  have hsame : tail.map legacyLower = tail :=
    (List.map_congr_left fun c hc => legacyLower_wide (htail c hc).1).trans (List.map_id' tail)
  exact ⟨legacyLower b,tail,by rw [List.map_cons,hsame],legacyLower_ne hb,
    hlength.trans (legacyLower_length b).symm,htail⟩

/-- The library decodes a sequence back, whatever follows. -/
theorem codepoint {bs : Bytes} (h : Sequence bs) : ∃ c : Codepoint .plain, c.bytes = bs := by
  obtain ⟨b,tail,rfl,hb,hlength,htail⟩ := h.shape
  have hdecodes : ∃ code : ℕ, ∀ rest,
      utf8Iterate (b::tail++rest) = (((b::tail).length : ℤ),(code : ℤ)) := by
    refine ⟨tail.foldl (fun code c => code*64+c.toNat%64)
      (if utf8Length b = 1 then b.toNat else b.toNat%2^(7-utf8Length b)),fun rest => ?_⟩
    have htake : (tail++rest).take (utf8Length b-1) = tail := by
      rw [← hlength,Nat.add_sub_cancel,List.take_left]
    have hvalid : ¬(utf8Length b = 0 ∨ tail.length+1 < utf8Length b ∨
        tail.any (fun c => c < 0x80 || 0xC0 ≤ c) = true) := by
      rintro (hzero | hshort | hany)
      · omega
      · omega
      · obtain ⟨c,hc,hbad⟩ := List.any_eq_true.mp hany
        obtain ⟨hlow,hhigh⟩ := htail c hc
        rcases Bool.or_eq_true_iff.mp hbad with hbad | hbad
        · exact absurd (of_decide_eq_true hbad) (UInt8.not_lt.mpr hlow)
        · exact absurd (of_decide_eq_true hbad) (UInt8.not_le.mpr hhigh)
    rw [List.cons_append,utf8Iterate]
    simp only [htake,if_neg hvalid]
    rw [List.length_cons,hlength]
  obtain ⟨code,hcode⟩ := hdecodes
  refine ⟨⟨b::tail,code,List.cons_ne_nil _ _,?_,?_,Int.natCast_nonneg _,hcode⟩,rfl⟩
  · rw [List.length_cons,hlength]
    exact utf8Length_le b
  · intro hzero
    rcases List.mem_cons.mp hzero with hzero | hzero
    · exact hb hzero.symm
    · exact absurd (htail 0 hzero).1 (by decide)

end Sequence

/-- Sanitized text is made of sequences. -/
theorem sanitize_sequences (fuel : ℕ) (bs : Bytes) (hnul : (0 : UInt8) ∉ bs) :
    ∃ parts : List Bytes, sanitizeUtf8 .plain fuel bs = parts.flatten ∧ ∀ p ∈ parts, Sequence p := by
  induction fuel generalizing bs with
  | zero => exact ⟨[],by rw [sanitizeUtf8]; rfl,fun p hp => absurd hp List.not_mem_nil⟩
  | succ fuel ih =>
      cases bs with
      | nil => exact ⟨[],rfl,fun p hp => absurd hp List.not_mem_nil⟩
      | cons b rest =>
          have hextend : ∀ (first : Bytes) (n : ℕ), Sequence first →
              ∃ parts : List Bytes, first++sanitizeUtf8 .plain fuel ((b::rest).drop n) =
                parts.flatten ∧ ∀ p ∈ parts, Sequence p := by
            intro first n hfirst
            obtain ⟨parts,heq,hparts⟩ :=
              ih ((b::rest).drop n) fun hzero => hnul (List.mem_of_mem_drop hzero)
            exact ⟨first::parts,by rw [heq,List.flatten_cons],
              fun p hp => (List.mem_cons.mp hp).elim (fun heq => heq ▸ hfirst) (hparts p)⟩
          have hreplacement : Sequence replacement :=
            ⟨0xEF,[0xBF,0xBD],rfl,by decide +kernel,by decide +kernel,by decide +kernel⟩
          rw [sanitizeUtf8.eq_3 _ _ fuel (List.cons_ne_nil b rest)]
          show ∃ parts : List Bytes, (if (utf8Iterate (b::rest)).1 < 1 ∨ (utf8Iterate (b::rest)).2 < 0
            then replacement++sanitizeUtf8 .plain fuel ((b::rest).drop 1)
            else (b::rest).take (utf8Iterate (b::rest)).1.toNat++
              sanitizeUtf8 .plain fuel ((b::rest).drop (utf8Iterate (b::rest)).1.toNat)) =
            parts.flatten ∧ ∀ p ∈ parts, Sequence p
          split
          · exact hextend replacement 1 hreplacement
          · next hvalid =>
              refine hextend _ _ ?_
              rw [utf8Iterate] at hvalid ⊢
              simp only at hvalid ⊢
              split at hvalid
              · exact absurd (.inl (by decide)) hvalid
              · next hsequence =>
                  rw [if_neg hsequence]
                  simp only [not_or,not_lt] at hsequence
                  obtain ⟨hzero,hlong,htail⟩ := hsequence
                  have htake : (rest.take (utf8Length b-1)).length ≤ utf8Length b-1 :=
                    List.length_take_le ..
                  obtain ⟨n,hn⟩ := Nat.exists_eq_succ_of_ne_zero hzero
                  refine ⟨b,rest.take (utf8Length b-1),?_,
                    fun heq => hnul (heq ▸ List.mem_cons_self),by omega,fun c hc => ?_⟩
                  · rw [Int.toNat_natCast,hn,List.take_succ_cons,Nat.succ_sub_one]
                  · have hgood := fun hbad => htail (List.any_eq_true.mpr ⟨c,hc,hbad⟩)
                    simpa using hgood

theorem spelled_sequences {parts : List Bytes} (h : ∀ p ∈ parts, Sequence p) :
    ∃ cs : List (Codepoint .plain), spell cs = parts.flatten := by
  induction parts with
  | nil => exact ⟨[],rfl⟩
  | cons p parts ih =>
      obtain ⟨c,hc⟩ := (h p List.mem_cons_self).codepoint
      obtain ⟨cs,hcs⟩ := ih fun q hq => h q (List.mem_cons_of_mem _ hq)
      exact ⟨c::cs,by rw [spell_cons,hc,hcs,List.flatten_cons]⟩

theorem steady_plain : Steady .plain where
  encoded := by
    intro text normalized hmap
    obtain rfl := Option.some.inj hmap
    obtain ⟨parts,heq,hparts⟩ := sanitize_sequences text.bytes.length text.bytes text.noNul
    have hlowered : ∀ p ∈ parts.map (List.map legacyLower), Sequence p := by
      intro p hp
      obtain ⟨q,hq,rfl⟩ := List.mem_map.mp hp
      exact (hparts q hq).lowered
    obtain ⟨cs,hcs⟩ := spelled_sequences hlowered
    refine ⟨cs,?_⟩
    rw [heq,List.map_flatten,← hcs]
    exact congrArg CString.bytes (CString.ofRaw_bytes ⟨spell cs,spell_noNul cs⟩)
  closed := by
    rintro text cs part ⟨normalized,hmap,hspell⟩ hpart
    obtain rfl := Option.some.inj hmap
    refine congrArg some ?_
    refine (List.map_congr_left fun b hb => ?_).trans (List.map_id' _)
    obtain ⟨c,hc,hb⟩ := List.mem_flatMap.mp hb
    have hmem : b ∈ spell cs := List.mem_flatMap.mpr ⟨c,hpart.subset hc,hb⟩
    rw [← hspell] at hmem
    obtain ⟨d,-,rfl⟩ := List.mem_map.mp ((List.takeWhile_prefix _).subset hmem)
    exact legacyLower_idem d

end Atperson.Core
