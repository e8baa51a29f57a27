import Atperson.Core.Tokenize
import Atperson.Runs.Filling

/-!
# Truncation

Both scanners fill the token buffer for each maximal run of token symbols: a symbol that
does not fit is passed over, and the scan goes on to the end of the run. Bytes have one
size, so a long run of schema 1 is cut after its first bytes. Codepoints have several: one
that is refused may leave room for a narrower one behind it.

What the Unicode library makes of a text is taken as a codepoint sequence: it decodes each
codepoint back from its bytes, whatever follows.
-/
namespace Atperson.Core
open Wire Runs

/-- The bytes of a token: the buffer less its terminator. -/
def tokenRoom : ℕ := tokenBytes-1

/-! ## Schema 1 -/

/-- The lowered bytes of a run that fit. -/
def legacyCut (run : Bytes) : Token := Token.ofBuffer ((run.take tokenRoom).map legacyLower)

theorem total_one (bs : Bytes) : total (fun _ => 1) bs = bs.length := by
  induction bs with
  | nil => rfl
  | cons b rest ih => rw [total_cons,ih,List.length_cons,Nat.add_comm]

theorem legacyScan_runs (bs : Bytes) : ∀ kept : Bytes,
    legacyScan (kept.map legacyLower) bs =
      (scanRuns legacyTokenByte (fun _ => 1) tokenRoom kept bs).map
        fun kept => Token.ofBuffer (kept.map legacyLower) := by
  induction bs with
  | nil =>
      intro kept
      cases kept <;> simp [legacyScan,scanRuns]
  | cons b rest ih =>
      intro kept
      unfold legacyScan scanRuns
      by_cases hb : legacyTokenByte b
      · have hkept : (if (kept.map legacyLower).length+1 < tokenBytes
            then kept.map legacyLower++[legacyLower b] else kept.map legacyLower) =
            (kept++filled (fun _ => 1) (tokenRoom-total (fun _ => 1) kept) [b]).map legacyLower := by
          rw [total_one]
          by_cases hroom : kept.length+1 < tokenBytes
          · rw [if_pos (by simpa using hroom),filled_fit (by simp only [tokenRoom]; omega)]
            simp [filled]
          · rw [if_neg (by simpa using hroom),filled_unfit (by simp only [tokenRoom]; omega)]
            simp [filled]
        rw [if_pos hb,if_pos hb,hkept,ih]
      · rw [if_neg hb,if_neg hb]
        cases kept with
        | nil => simpa using ih []
        | cons k ks => simpa using ih []

theorem legacyScan_cut (bs : Bytes) :
    legacyScan [] bs = (maximalRuns legacyTokenByte bs).map legacyCut := by
  have h := legacyScan_runs bs []
  rw [List.map_nil,scanRuns_nil (fun _ => by decide),List.map_map] at h
  rw [h]
  refine List.map_congr_left fun run _ => ?_
  rw [Function.comp_apply,filled_unit fun _ => rfl,legacyCut]

/-! ## Schema 2 -/

section Unicode
variable {U : Utf8proc}

/-- A codepoint in its sequence, as the library decodes it. -/
structure Codepoint (U : Utf8proc) where
  bytes : Bytes
  code : ℤ
  nonempty : bytes ≠ []
  narrow : bytes.length ≤ 4
  noNul : 0 ∉ bytes
  valid : 0 ≤ code
  decodes : ∀ rest, U.iterate (bytes++rest) = ((bytes.length : ℤ),code)

namespace Codepoint

def size (c : Codepoint U) : ℕ := c.bytes.length

/-- The codepoints tokens are made of. -/
def isToken (c : Codepoint U) : Bool :=
  codepointIsToken U c.code ∨ c.code = 95 ∨ c.code = 39 ∨ c.code = 45

theorem size_pos (c : Codepoint U) : 0 < c.size := List.length_pos_iff.mpr c.nonempty

theorem size_fits (c : Codepoint U) : c.size ≤ tokenRoom := c.narrow.trans (by decide)

end Codepoint

/-- The text of a codepoint sequence. -/
def spell (cs : List (Codepoint U)) : Bytes := cs.flatMap Codepoint.bytes

@[simp] theorem spell_cons (c : Codepoint U) (cs : List (Codepoint U)) :
    spell (c::cs) = c.bytes++spell cs := rfl

@[simp] theorem spell_append (cs ds : List (Codepoint U)) : spell (cs++ds) = spell cs++spell ds :=
  List.flatMap_append

theorem spell_length (cs : List (Codepoint U)) : (spell cs).length = total Codepoint.size cs := by
  induction cs with
  | nil => rfl
  | cons c cs ih => rw [spell_cons,List.length_append,total_cons,ih,Codepoint.size]

theorem spell_eq_nil {cs : List (Codepoint U)} : spell cs = [] ↔ cs = [] := by
  cases cs with
  | nil => simp [spell]
  | cons c cs => simp [c.nonempty]

theorem spell_noNul (cs : List (Codepoint U)) : (0 : UInt8) ∉ spell cs := by
  intro h
  obtain ⟨c,_,hc⟩ := List.mem_flatMap.mp h
  exact c.noNul hc

/-- The longest prefix of whole codepoints of a run that fits. -/
def unicodeCut (run : List (Codepoint U)) : Token :=
  Token.ofBuffer (spell (within Codepoint.size tokenRoom run))

theorem Codepoint.unicodeScan_step (c : Codepoint U) (fuel : ℕ) (token rest : Bytes) :
    unicodeScan U (fuel+1) token (c.bytes++rest) =
      if c.isToken then
        unicodeScan U fuel (if token.length+c.size < tokenBytes then token++c.bytes else token) rest
      else if token = [] then unicodeScan U fuel [] rest
      else Token.ofBuffer token::unicodeScan U fuel [] rest := by
  have hstep : ¬ ((c.bytes.length : ℤ) < 1 ∨ c.code = -1) := by
    have hpos := c.size_pos
    have hvalid := c.valid
    rw [Codepoint.size] at hpos
    omega
  have hne : c.bytes++rest ≠ [] := List.append_ne_nil_of_left_ne_nil c.nonempty rest
  rw [unicodeScan.eq_3 U token _ fuel hne]
  simp only [c.decodes,if_neg hstep,Int.toNat_natCast,List.take_left,List.drop_left]
  by_cases hc : codepointIsToken U c.code ∨ c.code = 95 ∨ c.code = 39 ∨ c.code = 45
  · have htoken : c.isToken = true := decide_eq_true hc
    rw [if_pos hc,if_pos htoken,Codepoint.size]
  · have htoken : ¬ c.isToken = true := fun h => hc (of_decide_eq_true h)
    rw [if_neg hc,if_neg htoken]

theorem unicodeScan_runs (cs : List (Codepoint U)) : ∀ (fuel : ℕ) (kept : List (Codepoint U)),
    (spell cs).length ≤ fuel → unicodeScan U fuel (spell kept) (spell cs) =
      (scanRuns Codepoint.isToken Codepoint.size tokenRoom kept cs).map
        fun kept => Token.ofBuffer (spell kept) := by
  induction cs with
  | nil =>
      intro fuel kept _
      cases fuel <;> cases kept <;> simp [unicodeScan,scanRuns,Codepoint.nonempty,spell]
  | cons c cs ih =>
      intro fuel kept hfuel
      have hpos := c.size_pos
      rw [spell_cons,List.length_append] at hfuel
      change c.size+_ ≤ _ at hfuel
      obtain ⟨fuel,rfl⟩ := Nat.exists_eq_succ_of_ne_zero (by omega : fuel ≠ 0)
      have hrest : (spell cs).length ≤ fuel := by omega
      rw [spell_cons,c.unicodeScan_step]
      unfold scanRuns
      cases hc : c.isToken with
      | true =>
          have hkept : (if (spell kept).length+c.size < tokenBytes then spell kept++c.bytes
              else spell kept) =
              spell (kept++filled Codepoint.size (tokenRoom-total Codepoint.size kept) [c]) := by
            rw [spell_length]
            by_cases hroom : total Codepoint.size kept+c.size < tokenBytes
            · rw [if_pos hroom,filled_fit (by simp only [tokenRoom]; omega)]
              simp [filled,spell]
            · rw [if_neg hroom,filled_unfit (by simp only [tokenRoom]; omega)]
              simp [filled]
          rw [if_pos rfl,if_pos rfl,hkept,ih _ _ hrest]
      | false =>
          rw [if_neg Bool.false_ne_true,if_neg Bool.false_ne_true]
          have hnext := ih fuel [] hrest
          cases kept with
          | nil => simpa [spell] using hnext
          | cons k ks =>
              rw [if_neg (spell_eq_nil.not.mpr (List.cons_ne_nil k ks)),if_neg (List.cons_ne_nil k ks),
                List.map_cons]
              exact congrArg _ hnext

/-- The scanner fills the buffer with each maximal run of token codepoints. -/
theorem tokenizeUnicode_runs (fuel : ℕ) (cs : List (Codepoint U)) (h : (spell cs).length ≤ fuel) :
    unicodeScan U fuel [] (spell cs) = (maximalRuns Codepoint.isToken cs).map
      fun run => Token.ofBuffer (spell (filled Codepoint.size tokenRoom run)) := by
  have hscan := unicodeScan_runs cs fuel [] h
  rw [scanRuns_nil Codepoint.size_fits,List.map_map] at hscan
  exact hscan

/-! ## The cut -/

/-- What the Unicode library makes of a text is a codepoint sequence. -/
def Normalizes (U : Utf8proc) (text : Text) (cs : List (Codepoint U)) : Prop :=
  ∃ normalized, U.map (sanitizeUtf8 U text.bytes.length text.bytes) = some normalized ∧
    (CString.ofRaw normalized).bytes = spell cs

/-- No codepoint behind the cut fits in what the cut leaves free. -/
def Sealed (run : List (Codepoint U)) : Prop :=
  ∀ c ∈ run.drop (within Codepoint.size tokenRoom run).length,
    tokenRoom-total Codepoint.size (within Codepoint.size tokenRoom run) < c.size

theorem ofBuffer_bytes {buffer : Bytes} (hlen : buffer.length ≤ tokenRoom)
    (hnul : (0 : UInt8) ∉ buffer) : (Token.ofBuffer buffer).bytes = buffer := by
  have hraw := congrArg CString.bytes (CString.ofRaw_bytes ⟨buffer,hnul⟩)
  exact (congrArg (List.take tokenRoom) hraw).trans (List.take_of_length_le hlen)

theorem ofBuffer_spell {cs : List (Codepoint U)} (h : total Codepoint.size cs ≤ tokenRoom) :
    (Token.ofBuffer (spell cs)).bytes = spell cs :=
  ofBuffer_bytes (by rwa [spell_length]) (spell_noNul cs)

theorem filled_cut {run : List (Codepoint U)} :
    Token.ofBuffer (spell (filled Codepoint.size tokenRoom run)) = unicodeCut run ↔ Sealed run := by
  refine ⟨fun h => filled_eq_within.mp ?_,fun h => by rw [filled_eq_within.mpr h,unicodeCut]⟩
  have hbytes := congrArg CText.bytes h
  rw [unicodeCut,ofBuffer_spell (total_filled _ _),ofBuffer_spell (total_within _ _),filled_split,
    spell_append,List.append_right_eq_self,spell_eq_nil] at hbytes
  rw [filled_split,hbytes,List.append_nil]

theorem tokenize_legacy {schema : UInt32} (h : schema ≤ 1) (text : Text) :
    tokenize U schema text = (maximalRuns legacyTokenByte text.bytes).map legacyCut := by
  rw [tokenize,if_pos h,legacyScan_cut]

theorem tokenize_unicode {schema : UInt32} (h : 1 < schema) {text : Text} {cs : List (Codepoint U)}
    (htext : Normalizes U text cs) :
    tokenize U schema text = (maximalRuns Codepoint.isToken cs).map
      fun run => Token.ofBuffer (spell (filled Codepoint.size tokenRoom run)) := by
  obtain ⟨normalized,hmap,hnormalized⟩ := htext
  rw [tokenize,if_neg (UInt32.not_le.mpr h),tokenizeUnicode,hmap]
  simp only [hnormalized]
  exact tokenizeUnicode_runs _ cs le_rfl

/-- Schema 1 always gives the first bytes of each maximal run. Schema 2 gives the longest
prefixes of the runs exactly when no run has a codepoint behind the cut that still fits. -/
theorem tokens_longest_prefix (U : Utf8proc) (text : Text) (cs : List (Codepoint U))
    (htext : Normalizes U text cs) :
    ((∀ schema : UInt32, schema ≤ 1 →
        tokenize U schema text = (maximalRuns legacyTokenByte text.bytes).map legacyCut) ∧
      ∀ schema : UInt32, 1 < schema →
        tokenize U schema text = (maximalRuns Codepoint.isToken cs).map unicodeCut) ↔
      ∀ run ∈ maximalRuns Codepoint.isToken cs, Sealed run := by
  constructor
  · rintro ⟨_,h⟩ run hrun
    have htokens := h 2 (by decide)
    rw [tokenize_unicode (by decide) htext,List.map_inj_left] at htokens
    exact filled_cut.mp (htokens run hrun)
  · intro h
    refine ⟨fun schema hschema => tokenize_legacy hschema text,fun schema hschema => ?_⟩
    rw [tokenize_unicode hschema htext]
    exact List.map_congr_left fun run hrun => filled_cut.mpr (h run hrun)

end Unicode

/-! ## Samples -/

/-- The library where é is a letter too. -/
def Utf8proc.accented : Utf8proc where
  iterate := utf8Iterate
  map := Utf8proc.plain.map
  classOf codepoint := if codepoint = 233 then some .letter else Utf8proc.plain.classOf codepoint

namespace Sample

theorem utf8Iterate_ascii {b : UInt8} (h : b < 0x80) (rest : Bytes) :
    utf8Iterate (b::rest) = (1,(b.toNat : ℤ)) := by
  have hlength : utf8Length b = 1 := if_pos h
  simp [utf8Iterate,hlength]

def ascii (b : UInt8) (h : b < 0x80) (hb : b ≠ 0) : Codepoint .accented where
  bytes := [b]
  code := b.toNat
  nonempty := List.cons_ne_nil _ _
  narrow := by simp
  noNul := by simpa using hb.symm
  valid := Int.natCast_nonneg _
  decodes := utf8Iterate_ascii h

def acute : Codepoint .accented where
  bytes := [0xC3,0xA9]
  code := 233
  nonempty := List.cons_ne_nil _ _
  narrow := by decide
  noNul := by decide
  valid := by decide
  decodes _ := rfl

/-- 94 letters, then one of two bytes and one of one byte. -/
def crowded : List (Codepoint .accented) :=
  List.replicate 94 (ascii 97 (by decide) (by decide))++[acute,ascii 98 (by decide) (by decide)]

def crowdedText : Text := ⟨spell crowded,by decide,spell_noNul crowded⟩

/-- The last letter follows the 94, over the one that did not fit. -/
theorem truncation_skips :
    Normalizes .accented crowdedText crowded ∧
      tokenize .accented 2 crowdedText ≠ (maximalRuns Codepoint.isToken crowded).map unicodeCut ∧
      (tokenize .accented 2 crowdedText).map CText.bytes = [List.replicate 94 97++[98]] :=
  ⟨⟨spell crowded,by decide +kernel,by decide +kernel⟩,by decide +kernel,by decide +kernel⟩

def plainText : Text := ⟨[72,105,32,97],by decide,by decide⟩

def plainCodepoints : List (Codepoint .accented) :=
  [ascii 104 (by decide) (by decide),ascii 105 (by decide) (by decide),
    ascii 32 (by decide) (by decide),ascii 97 (by decide) (by decide)]

theorem tokens_longest_prefix_plain :
    Normalizes .accented plainText plainCodepoints ∧
      (((∀ schema : UInt32, schema ≤ 1 → tokenize .accented schema plainText =
          (maximalRuns legacyTokenByte plainText.bytes).map legacyCut) ∧
        ∀ schema : UInt32, 1 < schema → tokenize .accented schema plainText =
          (maximalRuns Codepoint.isToken plainCodepoints).map unicodeCut) ↔
        ∀ run ∈ maximalRuns Codepoint.isToken plainCodepoints, Sealed run) := by
  have h : Normalizes .accented plainText plainCodepoints := ⟨[104,105,32,97],by decide,by decide⟩
  exact ⟨h, tokens_longest_prefix .accented plainText plainCodepoints h⟩

end Sample
end Atperson.Core
