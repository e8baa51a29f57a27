import Atperson.Wire.Search
import Atperson.Outbound.Spool

/-!
# The text of a spool entry

One object with the sequence number, the escaped document and the time, written by hand and read
by searching for the keys. A quote inside the escaped document stands behind a backslash, so no
key is found in it; what is lost is a control byte written as `\u00xx`, which the reader does not
decode.
-/
namespace Atperson.Outbound.SpoolText
open Wire

/-- An entry with its 64-bit sequence number. -/
structure Entry where
  seq : Int64
  actionJson : Bytes
  spooledAt : Bytes
  deriving DecidableEq

def keyPattern (key : Bytes) : Bytes := quote::(key++[quote,58])

def seqKey : Bytes := [115,101,113]
def actionKey : Bytes := [97,99,116,105,111,110]
def spooledAtKey : Bytes := [115,112,111,111,108,101,100,95,97,116]

/-- `json_string_value`. -/
def stringAt (json key : Bytes) : Except String Bytes :=
  match find json (keyPattern key) with
  | none => .error ("spool: entry missing "++text key)
  | some keyAt =>
      match (json.drop (keyAt+(keyPattern key).length)).dropWhile (· ≠ quote) with
      | [] => .error ("spool: entry "++text key++" not a string")
      | _::rest =>
          match jsonStringValue rest with
          | none => .error ("spool: entry "++text key++" unterminated")
          | some value => .ok value

def parse (json : Bytes) : Except String Entry :=
  match find json (keyPattern seqKey) with
  | none => .error "spool: entry missing seq"
  | some seqAt => do
      let seq ← stoll (json.drop (seqAt+(keyPattern seqKey).length))
      let actionJson ← stringAt json actionKey
      let spooledAt ← stringAt json spooledAtKey
      pure ⟨seq,actionJson,spooledAt⟩

def serialise (entry : Entry) : Bytes :=
  123::(keyPattern seqKey++(intString entry.seq++44::(keyPattern actionKey++quote::
    (escape entry.actionJson++quote::44::(keyPattern spooledAtKey++quote::
      (entry.spooledAt++[quote,125]))))))

/-! ## Keys -/

theorem intString_plain (n : Int64) : quote ∉ intString n := by
  intro h
  rw [intString,formatPadded] at h
  have hdigit {width m : ℕ} (h : quote ∈ paddedDecimal width m) : False :=
    absurd (digit_of_mem_paddedDecimal h).1 (by decide)
  split at h
  · rcases List.mem_cons.mp h with h | h
    · exact absurd h (by decide)
    · exact hdigit h
  · exact hdigit h

theorem hexDigit_plain {n : ℕ} (h : n < 16) : hexDigit n ≠ quote ∧ hexDigit n ≠ backslash := by
  interval_cases n <;> decide

theorem hexDigits_plain (c : UInt8) :
    (hexDigit (c.toNat/16) ≠ quote ∧ hexDigit (c.toNat/16) ≠ backslash) ∧
      hexDigit (c.toNat%16) ≠ quote ∧ hexDigit (c.toNat%16) ≠ backslash := by
  have hlt := c.toNat_lt
  exact ⟨hexDigit_plain (by omega),hexDigit_plain (by omega)⟩

/-- An escaped byte is a backslash and what follows, or itself. -/
theorem escapeByte_shape (c : UInt8) : escapeByte c = [backslash,quote] ∨
    (∃ rest, escapeByte c = backslash::rest ∧ quote ∉ rest) ∨
    (escapeByte c = [c] ∧ c ≠ quote ∧ c ≠ backslash) := by
  unfold escapeByte
  split_ifs with hn ht hr hq hb hlow
  · exact .inr (.inl ⟨_,rfl,by decide⟩)
  · exact .inr (.inl ⟨_,rfl,by decide⟩)
  · exact .inr (.inl ⟨_,rfl,by decide⟩)
  · exact .inl rfl
  · exact .inr (.inl ⟨_,rfl,by decide⟩)
  · refine .inr (.inl ⟨_,rfl,?_⟩)
    obtain ⟨hhigh,hlow⟩ := hexDigits_plain c
    simp only [List.mem_cons,not_or,List.not_mem_nil,not_false_eq_true,and_true]
    exact ⟨by decide,by decide,by decide,hhigh.1.symm,hlow.1.symm⟩
  · exact .inr (.inr ⟨rfl,hq,hb⟩)

def PlainKey (name : Bytes) : Prop := ∀ c ∈ name, c ≠ quote ∧ c ≠ backslash ∧ c ≠ 44

instance (name : Bytes) : Decidable (PlainKey name) :=
  inferInstanceAs (Decidable (∀ c ∈ name, _))

theorem PlainKey.tail {n : UInt8} {name : Bytes} (h : PlainKey (n::name)) : PlainKey name :=
  fun c hc => h c (List.mem_cons_of_mem _ hc)

theorem escape_cons (c : UInt8) (raw : Bytes) : escape (c::raw) = escapeByte c++escape raw :=
  List.flatMap_cons

/-- No name with its closing quote and colon begins inside escaped text. -/
theorem escaped_unlike_key {name : Bytes} (hname : PlainKey name) (raw rest : Bytes) :
    (name++[quote,58]).isPrefixOf (escape raw++quote::44::rest) = false := by
  induction name generalizing raw with
  | nil =>
      cases raw with
      | nil => rfl
      | cons c raw =>
          rw [escape_cons]
          rcases escapeByte_shape c with he | ⟨tail,he,-⟩ | ⟨he,hq,-⟩
          · rw [he]
            rfl
          · rw [he]
            rfl
          · simp [he,List.isPrefixOf,hq.symm]
  | cons n name ih =>
      obtain ⟨hnq,hnb,-⟩ := hname n List.mem_cons_self
      cases raw with
      | nil => simp [escape,List.isPrefixOf,hnq]
      | cons c raw =>
          rw [escape_cons]
          rcases escapeByte_shape c with he | ⟨tail,he,-⟩ | ⟨he,-,-⟩
          · simp [he,List.isPrefixOf,hnb]
          · simp [he,List.isPrefixOf,hnb]
          · have hih := ih hname.tail raw
            simp only [he,List.cons_append,List.nil_append,List.isPrefixOf,Bool.and_eq_false_iff]
            exact .inr hih

theorem keyPattern_cons {name json : Bytes} (h : (name++[quote,58]).isPrefixOf json = false) :
    (keyPattern name).isPrefixOf (quote::json) = false := by
  simp [keyPattern,h]

/-- A search for a key passes over escaped text and its closing quote. -/
theorem found_behind_escape {name rest result : Bytes} (hname : PlainKey name)
    (h : Found rest (keyPattern name) result) (raw : Bytes) :
    Found (escape raw++quote::44::rest) (keyPattern name) result := by
  induction raw with
  | nil =>
      have hcomma : (name++[quote,58]).isPrefixOf (44::rest) = false := by
        cases name with
        | nil => rfl
        | cons n name => simp [List.isPrefixOf,(hname n List.mem_cons_self).2.2]
      exact Found.step (keyPattern_cons hcomma) (Found.step rfl h)
  | cons c raw ih =>
      rw [escape_cons,List.append_assoc]
      rcases escapeByte_shape c with he | ⟨tail,he,htail⟩ | ⟨he,hq,-⟩
      · rw [he]
        exact Found.step rfl (Found.step (keyPattern_cons (escaped_unlike_key hname raw rest)) ih)
      · rw [he]
        exact Found.step rfl (Found.skip htail ih)
      · rw [he]
        exact Found.skip (by simpa using hq.symm) ih

/-! ## The document -/

/-- What the reader makes of a byte that was escaped. -/
def decodedByte (c : UInt8) : Bytes :=
  if 32 ≤ c ∨ c = 10 ∨ c = 9 ∨ c = 13 then [c]
  else [117,48,48,hexDigit (c.toNat/16),hexDigit (c.toNat%16)]

def decoded (raw : Bytes) : Bytes := raw.flatMap decodedByte

theorem jsonStringValue_escapeByte (c : UInt8) (rest : Bytes) :
    jsonStringValue (escapeByte c++rest) = (jsonStringValue rest).map (decodedByte c++·) := by
  have hsome : ∀ o : Option Bytes, o = o.map ([]++·) := by simp
  unfold escapeByte
  split_ifs with hn ht hr hq hb hlow
  · subst hn
    exact jsonStringValue_escaped 110 rest
  · subst ht
    exact jsonStringValue_escaped 116 rest
  · subst hr
    exact jsonStringValue_escaped 114 rest
  · subst hq
    exact jsonStringValue_escaped quote rest
  · subst hb
    exact jsonStringValue_escaped backslash rest
  · have hdecoded : decodedByte c = [117,48,48,hexDigit (c.toNat/16),hexDigit (c.toNat%16)] := by
      rw [decodedByte,if_neg]
      rintro (h | h | h | h)
      · exact absurd hlow (UInt8.not_lt.mpr h)
      · exact hn h
      · exact ht h
      · exact hr h
    obtain ⟨hhigh,hlow⟩ := hexDigits_plain c
    rw [hdecoded]
    simp only [List.cons_append,List.nil_append]
    rw [jsonStringValue_escaped,jsonStringValue_plain (by decide) (by decide),
      jsonStringValue_plain (by decide) (by decide),jsonStringValue_plain hhigh.2 hhigh.1,
      jsonStringValue_plain hlow.2 hlow.1]
    simp only [Option.map_map]
    rfl
  · have hdecoded : decodedByte c = [c] := by
      rw [decodedByte,if_pos (.inl (UInt8.not_lt.mp hlow))]
    rw [hdecoded,List.singleton_append,jsonStringValue_plain hb hq]
    rfl

theorem jsonStringValue_quote (rest : Bytes) : jsonStringValue (quote::rest) = some [] := by
  rw [jsonStringValue.eq_def]
  rfl

theorem jsonStringValue_decoded (raw rest : Bytes) :
    jsonStringValue (escape raw++quote::rest) = some (decoded raw) := by
  induction raw with
  | nil => exact jsonStringValue_quote rest
  | cons c raw ih =>
      rw [escape_cons,List.append_assoc,jsonStringValue_escapeByte,ih]
      rfl

theorem decoded_length (raw : Bytes) : raw.length ≤ (decoded raw).length := by
  induction raw with
  | nil => exact le_rfl
  | cons c raw ih =>
      have hbyte : 1 ≤ (decodedByte c).length := by
        rw [decodedByte]
        split
        · exact le_rfl
        · exact Nat.le_add_left 1 4
      rw [decoded,List.flatMap_cons,List.length_append,List.length_cons]
      rw [decoded] at ih
      omega

/-- What is read back is what was written exactly when nothing had to be written in hexadecimal. -/
theorem decoded_iff (raw : Bytes) : decoded raw = raw ↔ PlainDocument raw := by
  induction raw with
  | nil => simp [decoded,PlainDocument]
  | cons c raw ih =>
      have hcons : decoded (c::raw) = decodedByte c++decoded raw := List.flatMap_cons
      by_cases hc : 32 ≤ c ∨ c = 10 ∨ c = 9 ∨ c = 13
      · rw [hcons,decodedByte,if_pos hc,List.singleton_append,List.cons_inj_right,ih]
        simp only [PlainDocument,List.forall_mem_cons,hc,true_and]
      · refine iff_of_false (fun h => ?_) (fun h => hc (h c List.mem_cons_self))
        have hlen := decoded_length raw
        have heq := congrArg List.length h
        rw [hcons,decodedByte,if_neg hc,List.length_append] at heq
        simp only [List.length_cons,List.length_nil] at heq
        omega

theorem jsonStringValue_plainTime {raw : Bytes} (h : PlainTime raw) (rest : Bytes) :
    jsonStringValue (raw++quote::rest) = some raw := by
  induction raw with
  | nil => exact jsonStringValue_quote rest
  | cons c raw ih =>
      obtain ⟨hq,hb⟩ := h c List.mem_cons_self
      rw [List.cons_append,jsonStringValue_plain hb hq,ih (fun d hd => h d (List.mem_cons_of_mem _ hd))]
      rfl

/-! ## An entry -/

theorem stringAt_found {json key rest value : Bytes} (h : Found json (keyPattern key) (quote::rest))
    (hvalue : jsonStringValue rest = some value) : stringAt json key = .ok value := by
  obtain ⟨at_,hfind,hrest⟩ := h
  have hdrop : (quote::rest).dropWhile (· ≠ quote) = quote::rest := by simp
  simp only [stringAt,hfind,hrest,hdrop,hvalue]

theorem keyPattern_ne (key : Bytes) : keyPattern key ≠ [] := List.cons_ne_nil _ _

theorem past_key {key other json result : Bytes} (hother : quote ∉ other)
    (hfirst : (keyPattern key).isPrefixOf (keyPattern other++json) = false)
    (hsecond : (key++[quote,58]).isPrefixOf (58::json) = false)
    (h : Found json (keyPattern key) result) :
    Found (keyPattern other++json) (keyPattern key) result := by
  have hshape : keyPattern other++json = quote::(other++quote::58::json) := by simp [keyPattern]
  rw [hshape] at hfirst ⊢
  exact Found.step hfirst (Found.skip hother (Found.step (keyPattern_cons hsecond)
    (Found.step rfl h)))

theorem seq_found (entry : Entry) : ∃ rest, Found (serialise entry) (keyPattern seqKey)
    (intString entry.seq++44::rest) :=
  ⟨_,Found.step rfl (Found.here (keyPattern_ne _) _)⟩

theorem action_found (entry : Entry) : ∃ rest, Found (serialise entry) (keyPattern actionKey)
    (quote::(escape entry.actionJson++quote::rest)) :=
  ⟨_,Found.step rfl (past_key (by decide) rfl rfl (Found.skip (intString_plain _)
    (Found.step rfl (Found.here (keyPattern_ne _) _))))⟩

theorem spooledAt_found (entry : Entry) : ∃ rest, Found (serialise entry)
    (keyPattern spooledAtKey) (quote::(entry.spooledAt++quote::rest)) := by
  have hplain : PlainKey spooledAtKey := by decide +kernel
  have hopening := keyPattern_cons (escaped_unlike_key hplain entry.actionJson
    (keyPattern spooledAtKey++quote::(entry.spooledAt++[quote,125])))
  exact ⟨_,Found.step rfl (past_key (by decide) rfl rfl (Found.skip (intString_plain _)
    (Found.step rfl (past_key (by decide) rfl rfl (Found.step hopening
      (found_behind_escape hplain (Found.here (keyPattern_ne _) _) _))))))⟩

/-- Reading what was written gives the number, the time, and the document as decoded. -/
theorem parse_serialise {entry : Entry} (htime : PlainTime entry.spooledAt) :
    parse (serialise entry) = .ok {entry with actionJson := decoded entry.actionJson} := by
  obtain ⟨seqRest,seqAt,hfind,hdrop⟩ := seq_found entry
  obtain ⟨actionRest,haction⟩ := action_found entry
  obtain ⟨timeRest,htimeFound⟩ := spooledAt_found entry
  have hseq := stoll_intString entry.seq (show isDigit 44 = false by decide) seqRest
  have hdoc := stringAt_found haction (jsonStringValue_decoded _ _)
  have hat := stringAt_found htimeFound (jsonStringValue_plainTime htime _)
  simp only [parse,hfind,hdrop,hseq,hdoc,hat]
  rfl

/-- The codec gives back the entry exactly when the document has no control byte but newline, tab
and return. -/
theorem spool_entry_round_trip (entry : Entry) (htime : PlainTime entry.spooledAt) :
    parse (serialise entry) = .ok entry ↔ PlainDocument entry.actionJson := by
  rw [parse_serialise htime,← decoded_iff]
  obtain ⟨seq,actionJson,spooledAt⟩ := entry
  simp

theorem plainTime_append {a b : Bytes} (ha : PlainTime a) (hb : PlainTime b) : PlainTime (a++b) :=
  fun c hc => (List.mem_append.mp hc).elim (ha c) (hb c)

theorem plainTime_digits {ds : Bytes} (h : ∀ c ∈ ds, isDigit c = true) : PlainTime ds := by
  intro c hc
  have hdigit := h c hc
  refine ⟨?_,?_⟩
  · rintro rfl
    exact absurd hdigit (by decide)
  · rintro rfl
    exact absurd hdigit (by decide)

theorem plainTime_cons {c : UInt8} {rest : Bytes} (hc : c ≠ quote ∧ c ≠ backslash)
    (h : PlainTime rest) : PlainTime (c::rest) :=
  List.forall_mem_cons.mpr ⟨hc,h⟩

theorem plainTime_nil : PlainTime [] := List.forall_mem_nil _

theorem plainTime_padded (width n : ℕ) : PlainTime (paddedDecimal width n) :=
  plainTime_digits fun _ hc => isDigit_of_mem hc

theorem plainTime_zone {zone : Bytes} {offset : ℤ} (h : Zone zone offset) : PlainTime zone := by
  cases h with
  | absent => exact plainTime_nil
  | utc => exact plainTime_cons (by decide) plainTime_nil
  | lower => exact plainTime_cons (by decide) plainTime_nil
  | east hh hm =>
      exact plainTime_cons (by decide) (plainTime_append (plainTime_padded _ _)
        (plainTime_cons (by decide) (plainTime_padded _ _)))
  | west hh hm =>
      exact plainTime_cons (by decide) (plainTime_append (plainTime_padded _ _)
        (plainTime_cons (by decide) (plainTime_padded _ _)))

/-- An RFC 3339 time has neither quotes nor backslashes. -/
theorem plainTime_of_denotes {value : Bytes} {i : Instant} (h : Denotes value i) :
    PlainTime value := by
  obtain ⟨rest,rfl,fraction,zone,rfl,hfraction,hzone⟩ := h.spelled
  refine plainTime_append ?_ (plainTime_append ?_ (plainTime_zone hzone))
  · have hpart (width n : ℕ) {c : UInt8} {tail : Bytes} (hc : c ≠ quote ∧ c ≠ backslash)
        (h : PlainTime tail) : PlainTime (paddedDecimal width n++c::tail) :=
      plainTime_append (plainTime_padded _ _) (plainTime_cons hc h)
    exact hpart 4 _ (by decide) (hpart 2 _ (by decide) (hpart 2 _ (by decide)
      (hpart 2 _ (by decide) (hpart 2 _ (by decide) (plainTime_padded 2 _)))))
  · cases hfraction with
    | absent => exact plainTime_nil
    | digits _ hds => exact plainTime_cons (by decide) (plainTime_digits hds)

theorem spool_entry_round_trip_sample :
    parse (serialise ⟨7,[34,92,10],[50]⟩) = .ok ⟨7,[34,92,10],[50]⟩ ↔ PlainDocument [34,92,10] :=
  spool_entry_round_trip ⟨7,[34,92,10],[50]⟩ (plainTime_cons (by decide) plainTime_nil)

/-- A byte `0x01` comes back as the letters `u0001`. -/
theorem control_byte_lost : parse (serialise ⟨1,[1],[50]⟩) = .ok ⟨1,[117,48,48,48,49],[50]⟩ ∧
    ¬∀ entry, PlainTime entry.spooledAt → parse (serialise entry) = .ok entry := by
  have hread : parse (serialise ⟨1,[1],[50]⟩) = .ok ⟨1,[117,48,48,48,49],[50]⟩ := by
    decide +kernel
  refine ⟨hread,fun h => ?_⟩
  have hsame := h ⟨1,[1],[50]⟩ (plainTime_cons (by decide) plainTime_nil)
  rw [hread] at hsame
  injection hsame with hsame
  exact absurd (congrArg Entry.actionJson hsame) (by decide)

/-- The files of the directory model are these texts. -/
def ofSpoolEntry (entry : SpoolEntry) : Entry :=
  ⟨Int64.ofNat entry.seq,entry.actionJson,entry.spooledAt⟩

theorem parse_ofSpoolEntry {entry : SpoolEntry} (htime : PlainTime entry.spooledAt) :
    parse (serialise (ofSpoolEntry entry)) =
      (parseSpoolEntry (serialiseSpoolEntry entry)).map ofSpoolEntry := by
  have hdoc : jsonStringValue (escape entry.actionJson++[quote]) = some (decoded entry.actionJson) :=
    jsonStringValue_decoded _ _
  have htext : PlainTime (ofSpoolEntry entry).spooledAt := htime
  simp only [parse_serialise htext,parseSpoolEntry,serialiseSpoolEntry,hdoc,jsonStringValue_time htime]
  rfl

end Atperson.Outbound.SpoolText
