import Atperson.Control.Envelope
import Atperson.Runs.Fallible

/-!
# Saving an envelope

The document written for an envelope, its numbers as the text that is printed: integers in full,
floors with six decimal places. What the JSON parser makes of a number's text is a parameter.
-/
namespace Atperson.Envelope
open Wire Outbound Runs

/-- `std::to_string` of a double. -/
def fixedSix : Double → Bytes
  | .finite q =>
      let n := (roundEven (|q| * 10^6)).toNat
      (if q < 0 then [45] else [])++decimalString (n/10^6)++46::paddedDecimal 6 n
  | .infinite negative => if negative then utf8 "-inf" else utf8 "inf"
  | .nan => utf8 "nan"

/-- How the JSON parser reads the text of a number, if it does: integers up to `2^53` exactly, and
none that is not positive as one or more. -/
structure Numerals where
  read : Bytes → Option Double
  exact : ∀ n : ℤ, |n| ≤ 2^53 → read (formatPadded 1 n) = some (.finite n)
  below : ∀ n : ℤ, n < 1 → ∀ v, read (formatPadded 1 n) = some v → v.lt (.finite 1) = true

section Reading
variable (numerals : Numerals)

mutual
/-- A document with its numbers read; none when one of them is no number. -/
def readJson : Json Bytes → Option (Json Double)
  | .null => some .null
  | .bool b => some (.bool b)
  | .number n => (numerals.read n).map .number
  | .string s => some (.string s)
  | .array items => (readItems items).map .array
  | .object members => (readMembers members).map .object

def readItems : List (Json Bytes) → Option (List (Json Double))
  | [] => some []
  | item::items => do
      let item ← readJson item
      let items ← readItems items
      pure (item::items)

def readMembers : List (String × Json Bytes) → Option (List (String × Json Double))
  | [] => some []
  | (name,member)::members => do
      let member ← readJson member
      let members ← readMembers members
      pure ((name,member)::members)
end

def serialiseRule (rule : EnvelopeKindRule) : Json Bytes :=
  .object
    [("kind",.string (utf8 (outboundKindName rule.kind))),
      ("max_in_window",.number (decimalString rule.maxInWindow)),
      ("window_seconds",.number (formatPadded 1 rule.windowSeconds)),
      ("min_plan_score",.number (fixedSix rule.minPlanScore)),
      ("min_support_score",.number (fixedSix rule.minSupportScore))]

def optionalJson {N : Type} (value : Option Bytes) : Json N :=
  match value with
  | some s => .ofCString s
  | none => .null

/-- An empty note is saved as none. -/
def noteJson {N : Type} (note : Bytes) : Json N :=
  if note = [] then .null else .ofCString note

def serialiseAuthorizationEnvelope (e : AuthorizationEnvelope) : Json Bytes :=
  .object
    [("format",.string kAuthorizationEnvelopeFormat),
      ("version",.number (decimalString e.version)),
      ("id",.ofCString e.id),
      ("created_at",.ofCString e.createdAt),
      ("expires_at",optionalJson e.expiresAt),
      ("scope_terms",.array (e.scopeTerms.map .ofCString)),
      ("kinds",.array (e.kinds.map serialiseRule)),
      ("note",noteJson e.note)]

variable (casts : Casts)

/-- The saved document as it is parsed again. -/
def reparse (e : AuthorizationEnvelope) (policy : OutboundPolicy) (source : String) :
    Except String AuthorizationEnvelope :=
  parseAuthorizationEnvelope casts (readJson numerals (serialiseAuthorizationEnvelope e)) policy source

/-! ## What parsing establishes -/

/-- A string as a document can hold it. -/
def Filled (value : Bytes) : Prop := value ≠ [] ∧ (0 : UInt8) ∉ value

structure EnvelopeKindRule.Valid (policy : OutboundPolicy) (rule : EnvelopeKindRule) : Prop where
  word : rule.maxInWindow < 2^32
  longest : rule.windowSeconds ≤ kMaxOutboundWindowSeconds
  policy : withinPolicy policy (utf8 (outboundKindName rule.kind)) rule = .ok ()

structure AuthorizationEnvelope.Valid (policy : OutboundPolicy) (e : AuthorizationEnvelope) :
    Prop where
  version : e.version = kAuthorizationEnvelopeVersion
  id : isEnvelopeId e.id = true ∧ Filled e.id
  expires : ∀ value ∈ e.expiresAt, Filled value ∧ requireInstant "expires_at" value = .ok ()
  created : Filled e.createdAt ∧ requireInstant "created_at" e.createdAt = .ok ()
  note : e.note = [] ∨ Filled e.note
  scope : ∀ term ∈ e.scopeTerms, Filled term
  kinds : requireKinds e.kinds = .ok () ∧ ∀ rule ∈ e.kinds, rule.Valid policy

variable {numerals casts}

theorem filled_of_filledString {member : Option (Json Double)} {value : Bytes}
    (h : filledString member = some value) : Filled value := by
  unfold filledString at h
  split at h
  · split_ifs at h with hempty
    rw [← Option.some.inj h]
    exact ⟨hempty,(CString.ofRaw _).noNul⟩
  · cases h

theorem filledString_ofCString {value : Bytes} (h : Filled value) :
    filledString (some (.string (CString.ofRaw value).bytes)) = some value := by
  simp only [filledString,ofRaw_bytes_of_noNul h.2,if_neg h.1]

theorem requireString_filled {object : Json Double} {key : String} {value : Bytes}
    (h : requireString object key = .ok value) : Filled value := by
  unfold requireString at h
  split at h
  · next hfilled =>
      rw [← Except.ok.inj h]
      exact filled_of_filledString hfilled
  · cases h

theorem optionalString_filled {object : Json Double} {key : String} {value : Option Bytes}
    (h : optionalString object key = .ok value) : ∀ v ∈ value, Filled v := by
  unfold optionalString at h
  split at h
  · cases h
    simp
  · cases h
    simp
  · split at h
    · next hfilled =>
        rw [← Except.ok.inj h]
        intro v hv
        rw [← Option.some.inj hv]
        exact filled_of_filledString hfilled
    · cases h

theorem scopeTerm_filled {member : Json Double} {value : Bytes} (h : scopeTerm member = .ok value) :
    Filled value := by
  unfold scopeTerm at h
  split at h
  · next hfilled =>
      rw [← Except.ok.inj h]
      exact filled_of_filledString hfilled
  · cases h

theorem parseKindName_name {name : Bytes} {kind : OutboundActionKind}
    (h : parseKindName name = some kind) : name = utf8 (outboundKindName kind) := by
  have hfound := List.find?_some h
  exact (beq_iff_eq.mp hfound).symm

theorem parseKindRule_valid {policy : OutboundPolicy} {entry : Json Double}
    {rule : EnvelopeKindRule} (h : parseKindRule casts policy entry = .ok rule) :
    rule.Valid policy := by
  obtain ⟨_,-,h⟩ := bind_ok.mp h
  obtain ⟨name,-,h⟩ := bind_ok.mp h
  obtain ⟨kind,hkind,h⟩ := bind_ok.mp h
  obtain ⟨ceiling,-,h⟩ := bind_ok.mp h
  obtain ⟨window,-,h⟩ := bind_ok.mp h
  obtain ⟨_,hwindow,h⟩ := bind_ok.mp h
  obtain ⟨plan,-,h⟩ := bind_ok.mp h
  obtain ⟨support,-,h⟩ := bind_ok.mp h
  obtain ⟨_,hpolicy,h⟩ := bind_ok.mp h
  cases h
  have hname : name = utf8 (outboundKindName kind) := by
    unfold requireKind at hkind
    split at hkind
    · next hparse =>
        rw [← Except.ok.inj hkind]
        exact parseKindName_name hparse
    · cases hkind
  subst hname
  refine ⟨casts.word_lt _,?_,hpolicy⟩
  unfold requireWindow at hwindow
  split_ifs at hwindow with hlong
  · cases hwindow
  · exact Int.not_lt.mp hlong

theorem mapM_forall {α β : Type} {f : α → Except String β} {P : β → Prop}
    (hf : ∀ x y, f x = .ok y → P y) {xs : List α} {ys : List β} (h : xs.mapM f = .ok ys) :
    ∀ y ∈ ys, P y := by
  induction xs generalizing ys with
  | nil =>
      cases h
      simp
  | cons x xs ih =>
      rw [List.mapM_cons] at h
      obtain ⟨y,hy,h⟩ := bind_ok.mp h
      obtain ⟨rest,hrest,h⟩ := bind_ok.mp h
      cases h
      exact List.forall_mem_cons.mpr ⟨hf x y hy,ih hrest⟩

theorem requireId_ok {id : Bytes} (h : requireId id = .ok ()) : isEnvelopeId id = true := by
  unfold requireId at h
  split_ifs at h with hid
  · exact hid
  · cases h

theorem requireVersion_ok {root : Json Double} {version : ℕ}
    (h : requireVersion casts root = .ok version) : version = kAuthorizationEnvelopeVersion := by
  unfold requireVersion at h
  split at h
  · split_ifs at h with hversion
    · cases h
    · rw [← Except.ok.inj h]
      exact not_not.mp hversion
  · cases h

/-- What parses is a valid envelope. -/
theorem parse_valid {document : Option (Json Double)} {policy : OutboundPolicy} {source : String}
    {e : AuthorizationEnvelope} (h : parseAuthorizationEnvelope casts document policy source = .ok e) :
    e.Valid policy := by
  unfold parseAuthorizationEnvelope at h
  split at h
  · obtain ⟨format,-,h⟩ := bind_ok.mp h
    obtain ⟨_,-,h⟩ := bind_ok.mp h
    obtain ⟨version,hversion,h⟩ := bind_ok.mp h
    obtain ⟨id,hfilled,h⟩ := bind_ok.mp h
    obtain ⟨_,hid,h⟩ := bind_ok.mp h
    obtain ⟨expiresAt,hexpires,h⟩ := bind_ok.mp h
    obtain ⟨_,hinstant,h⟩ := bind_ok.mp h
    obtain ⟨createdAt,hcreated,h⟩ := bind_ok.mp h
    obtain ⟨_,hcreatedAt,h⟩ := bind_ok.mp h
    obtain ⟨note,hnote,h⟩ := bind_ok.mp h
    obtain ⟨scope,-,h⟩ := bind_ok.mp h
    obtain ⟨scopeTerms,hscope,h⟩ := bind_ok.mp h
    obtain ⟨entries,-,h⟩ := bind_ok.mp h
    obtain ⟨kinds,hkinds,h⟩ := bind_ok.mp h
    obtain ⟨_,hsome,h⟩ := bind_ok.mp h
    cases h
    refine ⟨requireVersion_ok hversion,⟨requireId_ok hid,requireString_filled hfilled⟩,?_,
      ⟨requireString_filled hcreated,hcreatedAt⟩,?_,mapM_forall (fun _ _ => scopeTerm_filled) hscope,
      hsome,mapM_forall (fun _ _ => parseKindRule_valid) hkinds⟩
    · rintro value hvalue
      rw [Option.mem_def] at hvalue
      subst hvalue
      exact ⟨optionalString_filled hexpires value rfl,hinstant⟩
    · cases note with
      | none => exact .inl rfl
      | some note => exact .inr (optionalString_filled hnote note rfl)
  · cases h

/-! ## What is read back -/

/-- A rule whose numbers survive their text. -/
structure Kept (numerals : Numerals) (rule : EnvelopeKindRule) : Prop where
  ceiling : 1 ≤ rule.maxInWindow
  window : 1 ≤ rule.windowSeconds
  plan : numerals.read (fixedSix rule.minPlanScore) = some rule.minPlanScore
  support : numerals.read (fixedSix rule.minSupportScore) = some rule.minSupportScore

theorem parseKindName_of (kind : OutboundActionKind) :
    parseKindName (utf8 (outboundKindName kind)) = some kind := by
  cases kind <;> decide +kernel

example : parseKindName (utf8 "posts") = none := by decide +kernel

theorem kindName_filled (kind : OutboundActionKind) : Filled (utf8 (outboundKindName kind)) := by
  cases kind <;> exact ⟨by decide +kernel,by decide +kernel⟩

/-- The numbers of a saved rule as they are read. -/
def readRule (rule : EnvelopeKindRule) (ceiling window plan support : Double) : Json Double :=
  .object
    [("kind",.string (utf8 (outboundKindName rule.kind))),("max_in_window",.number ceiling),
      ("window_seconds",.number window),("min_plan_score",.number plan),
      ("min_support_score",.number support)]

theorem readJson_rule {rule : EnvelopeKindRule} {j : Json Double} :
    readJson numerals (serialiseRule rule) = some j ↔
      ∃ ceiling window plan support, numerals.read (decimalString rule.maxInWindow) = some ceiling ∧
        numerals.read (formatPadded 1 rule.windowSeconds) = some window ∧
        numerals.read (fixedSix rule.minPlanScore) = some plan ∧
        numerals.read (fixedSix rule.minSupportScore) = some support ∧
        j = readRule rule ceiling window plan support := by
  simp only [serialiseRule,readJson,readMembers]
  cases numerals.read (decimalString rule.maxInWindow) <;>
    cases numerals.read (formatPadded 1 rule.windowSeconds) <;>
    cases numerals.read (fixedSix rule.minPlanScore) <;>
    cases numerals.read (fixedSix rule.minSupportScore) <;>
    simp [readRule,eq_comm]

theorem requireString_kind (rule : EnvelopeKindRule) (ceiling window plan support : Double) :
    requireString (readRule rule ceiling window plan support) "kind" =
      .ok (utf8 (outboundKindName rule.kind)) := by
  have hfilled := kindName_filled rule.kind
  have hstring := filledString_ofCString hfilled
  rw [ofRaw_bytes_of_noNul hfilled.2] at hstring
  simp only [requireString,readRule,Json.get?,List.find?_cons,beq_self_eq_true,Option.map_some,hstring]

theorem numberFromOne_ceiling (rule : EnvelopeKindRule) (ceiling window plan support : Double) :
    numberFromOne (readRule rule ceiling window plan support) "max_in_window" =
      if ceiling.lt (.finite 1) then invalid "field 'max_in_window' must be a number >= 1"
      else .ok ceiling := rfl

theorem numberFromOne_window (rule : EnvelopeKindRule) (ceiling window plan support : Double) :
    numberFromOne (readRule rule ceiling window plan support) "window_seconds" =
      if window.lt (.finite 1) then invalid "field 'window_seconds' must be a number >= 1"
      else .ok window := rfl

theorem scoreFloor_plan (rule : EnvelopeKindRule) (ceiling window plan support : Double) :
    scoreFloor (readRule rule ceiling window plan support) "min_plan_score" = .ok plan := rfl

theorem scoreFloor_support (rule : EnvelopeKindRule) (ceiling window plan support : Double) :
    scoreFloor (readRule rule ceiling window plan support) "min_support_score" = .ok support := rfl

theorem word_nat (casts : Casts) {n : ℕ} (h : n < 2^32) : casts.word (.finite ((n : ℤ) : ℚ)) = n := by
  have hlow : (0 : ℚ) ≤ ((n : ℤ) : ℚ) := by exact_mod_cast Nat.zero_le n
  have hhigh : ((n : ℤ) : ℚ) < 2^32 := by exact_mod_cast h
  have hexact := casts.word_exact _ hlow hhigh
  rw [Int.floor_intCast] at hexact
  exact_mod_cast hexact

theorem seconds_int (casts : Casts) {n : ℤ} (hlow : 1 ≤ n) (hhigh : n ≤ kMaxOutboundWindowSeconds) :
    casts.seconds (.finite (n : ℚ)) = n := by
  have hmax : kMaxOutboundWindowSeconds < 2^63 := by decide
  have hnonneg : (0 : ℚ) ≤ (n : ℚ) := by exact_mod_cast (by omega : (0 : ℤ) ≤ n)
  have hlt : (n : ℚ) < 2^63 := by exact_mod_cast lt_of_le_of_lt hhigh hmax
  rw [casts.seconds_exact _ hnonneg hlt,Int.floor_intCast]

theorem not_below {n : ℤ} (h : 1 ≤ n) : (Double.finite (n : ℚ)).lt (.finite 1) = false := by
  have hle : (1 : ℚ) ≤ (n : ℚ) := by exact_mod_cast h
  simpa [Double.lt] using hle

theorem requireKind_name (kind : OutboundActionKind) :
    requireKind (utf8 (outboundKindName kind)) = .ok kind := by
  simp only [requireKind,parseKindName_of]

/-- A rule that keeps its numbers is read back. -/
theorem parse_kept (casts : Casts) {policy : OutboundPolicy} {rule : EnvelopeKindRule} (hvalid : rule.Valid policy)
    (hkept : Kept numerals rule) : ∃ j, readJson numerals (serialiseRule rule) = some j ∧
      parseKindRule casts policy j = .ok rule := by
  have hmax : kMaxOutboundWindowSeconds ≤ 2^53 := by decide
  have hword := hvalid.word
  have hceiling : numerals.read (decimalString rule.maxInWindow) =
      some (.finite ((rule.maxInWindow : ℤ) : ℚ)) :=
    numerals.exact rule.maxInWindow (by rw [abs_of_nonneg (by omega)]; omega)
  have hwindow := numerals.exact rule.windowSeconds (by
    have hlow := hkept.window
    have hhigh := hvalid.longest
    rw [abs_of_nonneg (by omega)]
    omega)
  refine ⟨_,readJson_rule.mpr ⟨_,_,_,_,hceiling,hwindow,hkept.plan,hkept.support,rfl⟩,?_⟩
  have hone : (1 : ℤ) ≤ rule.maxInWindow := by exact_mod_cast hkept.ceiling
  have hcast := word_nat casts hvalid.word
  have hseconds := seconds_int casts hkept.window hvalid.longest
  have hlong : requireWindow rule.windowSeconds = .ok () := by
    rw [requireWindow,if_neg (not_lt.mpr hvalid.longest)]
  have hpolicy := hvalid.policy
  unfold parseKindRule
  rw [requireString_kind,numberFromOne_ceiling,numberFromOne_window,not_below hone,
    not_below hkept.window,scoreFloor_plan,scoreFloor_support]
  simp only [readRule,requireObject,Bool.false_eq_true,if_false,bind,Except.bind,requireKind_name,
    hseconds,hlong,hcast,hpolicy,pure,Except.pure]

/-- A rule that is read back kept its numbers. -/
theorem kept_of_parse {policy : OutboundPolicy} {rule : EnvelopeKindRule} {j : Json Double}
    (hread : readJson numerals (serialiseRule rule) = some j)
    (hparse : parseKindRule casts policy j = .ok rule) : Kept numerals rule := by
  obtain ⟨ceiling,window,plan,support,hceiling,hwindow,hplan,hsupport,rfl⟩ := readJson_rule.mp hread
  unfold parseKindRule at hparse
  obtain ⟨_,-,h⟩ := bind_ok.mp hparse
  obtain ⟨name,-,h⟩ := bind_ok.mp h
  obtain ⟨kind,-,h⟩ := bind_ok.mp h
  obtain ⟨ceiling',hc,h⟩ := bind_ok.mp h
  obtain ⟨window',hw,h⟩ := bind_ok.mp h
  obtain ⟨_,-,h⟩ := bind_ok.mp h
  obtain ⟨plan',hp,h⟩ := bind_ok.mp h
  obtain ⟨support',hs,h⟩ := bind_ok.mp h
  obtain ⟨_,-,h⟩ := bind_ok.mp h
  rw [scoreFloor_plan] at hp
  rw [scoreFloor_support] at hs
  rw [numberFromOne_ceiling] at hc
  rw [numberFromOne_window] at hw
  have hbelow {n : ℤ} {v : Double} (hn : numerals.read (formatPadded 1 n) = some v)
      (hv : ¬v.lt (.finite 1) = true) : 1 ≤ n := by
    by_contra hlt
    exact hv (numerals.below n (by omega) v hn)
  refine ⟨?_,?_,?_,?_⟩
  · split_ifs at hc with hlt
    · cases hc
    · exact_mod_cast hbelow hceiling hlt
  · split_ifs at hw with hlt
    · cases hw
    · exact hbelow hwindow hlt
  · rw [hplan,Except.ok.inj hp]
    exact congrArg (fun r => some (EnvelopeKindRule.minPlanScore r)) (Except.ok.inj h)
  · rw [hsupport,Except.ok.inj hs]
    exact congrArg (fun r => some (EnvelopeKindRule.minSupportScore r)) (Except.ok.inj h)

/-! ## The whole document -/

theorem readJson_ofCString (s : Bytes) : readJson numerals (.ofCString s) = some (.ofCString s) := by
  rw [Json.ofCString,readJson]
  rfl

theorem readItems_strings (terms : List Bytes) :
    readItems numerals (terms.map .ofCString) = some (terms.map .ofCString) := by
  induction terms with
  | nil => simp [readItems]
  | cons term terms ih => simp [readItems,readJson_ofCString,ih]

theorem readJson_optional (value : Option Bytes) :
    readJson numerals (optionalJson value) = some (optionalJson value) := by
  cases value with
  | none => simp [optionalJson,readJson]
  | some s => exact readJson_ofCString s

theorem readJson_note (note : Bytes) : readJson numerals (noteJson note) = some (noteJson note) := by
  unfold noteJson
  split
  · simp [readJson]
  · exact readJson_ofCString note

def readRoot (e : AuthorizationEnvelope) (version : Double) (kinds : List (Json Double)) :
    List (String × Json Double) :=
  [("format",.string kAuthorizationEnvelopeFormat),("version",.number version),
    ("id",.ofCString e.id),("created_at",.ofCString e.createdAt),
    ("expires_at",optionalJson e.expiresAt),("scope_terms",.array (e.scopeTerms.map .ofCString)),
    ("kinds",.array kinds),("note",noteJson e.note)]

theorem readJson_envelope {e : AuthorizationEnvelope} {version : Double}
    (hversion : numerals.read (decimalString e.version) = some version) :
    readJson numerals (serialiseAuthorizationEnvelope e) =
      (readItems numerals (e.kinds.map serialiseRule)).map fun kinds =>
        .object (readRoot e version kinds) := by
  simp only [serialiseAuthorizationEnvelope,readJson,readMembers,readJson_ofCString,
    readJson_optional,readJson_note,readItems_strings,hversion,readRoot]
  cases readItems numerals (e.kinds.map serialiseRule) with
  | none => rfl
  | some kinds => rfl

theorem requireString_root {members : List (String × Json Double)} {key : String} {value : Bytes}
    (hget : (Json.object members).get? key = some (.ofCString value)) (h : Filled value) :
    requireString (.object members) key = .ok value := by
  simp only [requireString,hget,Json.ofCString,filledString_ofCString h]

theorem optionalString_root {members : List (String × Json Double)} {key : String}
    {value : Option Bytes} (hget : (Json.object members).get? key = some (optionalJson value))
    (h : ∀ v ∈ value, Filled v) : optionalString (.object members) key = .ok value := by
  cases value with
  | none => simp only [optionalString,hget,optionalJson]
  | some v =>
      simp only [optionalString,hget,optionalJson,Json.ofCString,filledString_ofCString (h v rfl)]

/-- What is left of a document once all but its rules is read. -/
def finishRoot (casts : Casts) (policy : OutboundPolicy) (e : AuthorizationEnvelope)
    (kinds : List (Json Double)) : Except String AuthorizationEnvelope := do
  let kinds ← kinds.mapM (parseKindRule casts policy)
  requireKinds kinds
  pure {e with kinds := kinds}

theorem format_filled : Filled kAuthorizationEnvelopeFormat := ⟨by decide +kernel,by decide +kernel⟩

theorem scopeTerms_read {terms : List Bytes} (h : ∀ term ∈ terms, Filled term) :
    (terms.map .ofCString).mapM scopeTerm = .ok terms :=
  mapM_write fun term hterm => by
    simp only [scopeTerm,Json.ofCString,filledString_ofCString (h term hterm)]

theorem expires_read {policy : OutboundPolicy} {e : AuthorizationEnvelope} (h : e.Valid policy) :
    e.expiresAt.forM (requireInstant "expires_at") = .ok () := by
  have hexpires := h.expires
  cases hvalue : e.expiresAt with
  | none => rfl
  | some value =>
      rw [hvalue] at hexpires
      exact (hexpires value rfl).2

theorem note_read {policy : OutboundPolicy} {e : AuthorizationEnvelope} (h : e.Valid policy) :
    ∃ note, noteJson (N := Double) e.note = optionalJson note ∧ (∀ v ∈ note, Filled v) ∧
      note.getD [] = e.note := by
  unfold noteJson
  split
  · next hempty => exact ⟨none,rfl,by simp,hempty.symm⟩
  · next hne =>
      refine ⟨some e.note,rfl,fun v hv => ?_,rfl⟩
      rw [← Option.some.inj hv]
      exact h.note.resolve_left hne

/-- Over a valid envelope only the rules are left to be read back. -/
theorem parseRoot_readRoot {policy : OutboundPolicy} {e : AuthorizationEnvelope}
    (h : e.Valid policy) {version : Double} (hversion : casts.word version = 1)
    (kinds : List (Json Double)) :
    parseRoot casts (.object (readRoot e version kinds)) policy = finishRoot casts policy e kinds := by
  obtain ⟨note,hnote,hfilled,hnoteEq⟩ := note_read h
  have hformatCut : (CString.ofRaw kAuthorizationEnvelopeFormat).bytes = kAuthorizationEnvelopeFormat :=
    ofRaw_bytes_of_noNul format_filled.2
  have hformat : requireString (.object (readRoot e version kinds)) "format" =
      .ok kAuthorizationEnvelopeFormat :=
    requireString_root (by rw [Json.ofCString,hformatCut]; rfl) format_filled
  have hversionRead : requireVersion casts (.object (readRoot e version kinds)) = .ok 1 := by
    have hget : (Json.object (readRoot e version kinds)).get? "version" = some (.number version) := rfl
    simp only [requireVersion,hget,hversion,kAuthorizationEnvelopeVersion,ne_eq,not_true_eq_false,
      if_false]
  have hid : requireString (.object (readRoot e version kinds)) "id" = .ok e.id :=
    requireString_root rfl h.id.2
  have hexpires : optionalString (.object (readRoot e version kinds)) "expires_at" =
      .ok e.expiresAt := optionalString_root rfl fun v hv => (h.expires v hv).1
  have hcreated : requireString (.object (readRoot e version kinds)) "created_at" =
      .ok e.createdAt := requireString_root rfl h.created.1
  have hnoteRead : optionalString (.object (readRoot e version kinds)) "note" = .ok note :=
    optionalString_root (by rw [← hnote]; rfl) hfilled
  have hscope : requireArray (.object (readRoot e version kinds)) "scope_terms" =
      .ok (e.scopeTerms.map .ofCString) := rfl
  have hkinds : requireArray (.object (readRoot e version kinds)) "kinds" = .ok kinds := rfl
  have hfmt : requireFormat kAuthorizationEnvelopeFormat = .ok () := by simp [requireFormat]
  have hidOk : requireId e.id = .ok () := by rw [requireId,if_pos h.id.1]
  simp only [parseRoot,finishRoot,hformat,hfmt,hversionRead,hid,hidOk,hexpires,expires_read h,hcreated,
    h.created.2,hnoteRead,hscope,scopeTerms_read h.scope,hkinds,hnoteEq,bind,Except.bind]
  have hv : e.version = 1 := h.version
  obtain ⟨_,_,_,_,_,_,_⟩ := e
  subst hv
  rfl

/-- The rules are read back as they were exactly when each keeps its numbers. -/
theorem kinds_kept (casts : Casts) {policy : OutboundPolicy} {rules : List EnvelopeKindRule}
    (hvalid : ∀ rule ∈ rules, rule.Valid policy) :
    (∃ js, readItems numerals (rules.map serialiseRule) = some js ∧
      js.mapM (parseKindRule casts policy) = .ok rules) ↔ ∀ rule ∈ rules, Kept numerals rule := by
  induction rules with
  | nil => simp [readItems,pure,Except.pure]
  | cons rule rules ih =>
      have hrest := ih fun r hr => hvalid r (List.mem_cons_of_mem _ hr)
      rw [List.forall_mem_cons,← hrest]
      constructor
      · rintro ⟨js,hread,hparse⟩
        rw [List.map_cons,readItems] at hread
        obtain ⟨j,hj,hread⟩ := Option.bind_eq_some_iff.mp hread
        obtain ⟨rest,hjs,hread⟩ := Option.bind_eq_some_iff.mp hread
        cases hread
        rw [List.mapM_cons] at hparse
        obtain ⟨first,hfirst,hparse⟩ := bind_ok.mp hparse
        obtain ⟨others,hothers,hparse⟩ := bind_ok.mp hparse
        cases hparse
        exact ⟨kept_of_parse hj hfirst,rest,hjs,hothers⟩
      · rintro ⟨hkept,rest,hjs,hothers⟩
        obtain ⟨j,hj,hfirst⟩ := parse_kept casts (hvalid rule List.mem_cons_self) hkept
        refine ⟨j::rest,?_,?_⟩
        · simp [readItems,hj,hjs]
        · rw [List.mapM_cons,hfirst,hothers]
          rfl

/-- The same standing: nothing a verdict looks at differs. -/
structure SameStanding (a b : AuthorizationEnvelope) : Prop where
  id : a.id = b.id
  expires : a.expiresAt = b.expiresAt
  created : a.createdAt = b.createdAt
  scope : a.scopeTerms = b.scopeTerms
  kinds : a.kinds = b.kinds

/-- A saved envelope parses again to one of the same standing exactly when each of its rules keeps
its numbers. -/
theorem save_keeps_standing (numerals : Numerals) (casts : Casts) (policy : OutboundPolicy)
    (document : Option (Json Double)) (source source' : String) (e : AuthorizationEnvelope)
    (h : parseAuthorizationEnvelope casts document policy source = .ok e) :
    (∃ e', reparse numerals casts e policy source' = .ok e' ∧ SameStanding e' e ∧
      ∀ kind content evidence usage now, coversAction e' kind content evidence usage now =
        coversAction e kind content evidence usage now) ↔
    ∀ rule ∈ e.kinds, Kept numerals rule := by
  have hvalid := parse_valid h
  have hone : numerals.read (decimalString e.version) = some (.finite ((1 : ℕ) : ℤ)) := by
    rw [hvalid.version]
    exact numerals.exact 1 (by decide)
  have hversion : casts.word (.finite (((1 : ℕ) : ℤ) : ℚ)) = 1 := word_nat casts (by decide)
  have hreparse : ∀ js, readItems numerals (e.kinds.map serialiseRule) = some js →
      reparse numerals casts e policy source' = finishRoot casts policy e js := by
    intro js hjs
    rw [reparse,readJson_envelope hone,hjs]
    exact parseRoot_readRoot hvalid hversion js
  rw [← kinds_kept casts hvalid.kinds.2]
  constructor
  · rintro ⟨e',he',hsame,-⟩
    cases hjs : readItems numerals (e.kinds.map serialiseRule) with
    | none =>
        rw [reparse,readJson_envelope hone,hjs] at he'
        cases he'
    | some js =>
        rw [hreparse js hjs] at he'
        obtain ⟨kinds,hkinds,he'⟩ := bind_ok.mp he'
        obtain ⟨_,-,he'⟩ := bind_ok.mp he'
        have hk : kinds = e.kinds := by
          rw [← hsame.kinds,← Except.ok.inj he']
        exact ⟨js,rfl,hk ▸ hkinds⟩
  · rintro ⟨js,hjs,hkinds⟩
    have hsome := hvalid.kinds.1
    refine ⟨e,?_,⟨rfl,rfl,rfl,rfl,rfl⟩,fun _ _ _ _ _ => rfl⟩
    rw [hreparse js hjs]
    simp only [finishRoot,hkinds,hsome,bind,Except.bind]
    rfl

end Reading

namespace Sample

/-- Decimal text read exactly. -/
def readDecimal (s : Bytes) : Option Double :=
  let negative := s.head? = some 45
  let body := if negative then s.tail else s
  let whole := body.takeWhile isDigit
  let sign : ℚ := if negative then -1 else 1
  match body.dropWhile isDigit with
  | [] => some (.finite (sign*decimalValue whole))
  | 46::fraction =>
      some (.finite (sign*(decimalValue whole+decimalValue fraction/10^fraction.length)))
  | _ => none

theorem readDecimal_digits {ds : Bytes} (hne : ds ≠ []) (hds : ∀ c ∈ ds, isDigit c = true) :
    readDecimal ds = some (.finite (decimalValue ds)) ∧
      readDecimal (45::ds) = some (.finite (-decimalValue ds)) := by
  have htake : ds.takeWhile isDigit = ds := List.takeWhile_eq_self_iff.mpr hds
  have hdrop : ds.dropWhile isDigit = [] := List.dropWhile_eq_nil_iff.mpr hds
  obtain ⟨d,tail,rfl⟩ := List.exists_cons_of_ne_nil hne
  have hminus : d ≠ 45 := (digit_plain (hds d List.mem_cons_self)).2.1
  constructor
  · simp [readDecimal,hminus,htake,hdrop]
  · simp [readDecimal,htake,hdrop]

theorem readDecimal_int (n : ℤ) : readDecimal (formatPadded 1 n) = some (.finite n) := by
  obtain ⟨ds,hne,hds,hvalue,hprinted⟩ := formatPadded_one n
  rw [hprinted]
  split
  · next hneg =>
      have hn : n = -(n.natAbs : ℤ) := by omega
      rw [(readDecimal_digits hne hds).2,hvalue,hn]
      simp
  · next hneg =>
      have hn : n = (n.natAbs : ℤ) := by omega
      rw [(readDecimal_digits hne hds).1,hvalue,hn]
      simp

theorem readDecimal_below (n : ℤ) (h : n < 1) (v : Double)
    (hv : readDecimal (formatPadded 1 n) = some v) : v.lt (.finite 1) = true := by
  rw [readDecimal_int] at hv
  rw [← Option.some.inj hv]
  have hlt : (n : ℚ) < 1 := by exact_mod_cast h
  simpa [Double.lt] using hlt

def numerals : Numerals where
  read := readDecimal
  exact n _ := readDecimal_int n
  below := readDecimal_below

/-- An envelope for posts with a floor on the plan score. -/
def floored (minimum : ℚ) : Json Double :=
  .object [("format",.string kAuthorizationEnvelopeFormat),("version",.number (.finite 1)),
    ("id",.string (utf8 "b")),("created_at",.string (utf8 "2026-01-01T00:00:00Z")),
    ("scope_terms",.array []),
    ("kinds",.array [.object [("kind",.string (utf8 "post")),("max_in_window",.number (.finite 1)),
      ("window_seconds",.number (.finite 3600)),("min_plan_score",.number (.finite minimum))]])]

def policy : OutboundPolicy := {budgets := fun _ => {enabled := true}}

def parsed (minimum : ℚ) : AuthorizationEnvelope :=
  ⟨1,utf8 "b",none,[],[⟨.post,1,3600,.finite minimum,.finite 0⟩],[],utf8 "2026-01-01T00:00:00Z"⟩

/-- A floor of a quarter survives. -/
theorem save_keeps_standing_sample :
    (∃ e', reparse numerals plainCasts (parsed (1/4)) policy "b" = .ok e' ∧
      SameStanding e' (parsed (1/4)) ∧
      ∀ kind content evidence usage now, coversAction e' kind content evidence usage now =
        coversAction (parsed (1/4)) kind content evidence usage now) ↔
    ∀ rule ∈ (parsed (1/4)).kinds, Kept numerals rule :=
  save_keeps_standing numerals plainCasts policy (some (floored (1/4))) "b" "b" (parsed (1/4))
    (by decide +kernel)

/-- Saved with a floor of `2^-24` and read again, the envelope has none, and covers a post that it
refused. -/
theorem small_floor_lost :
    (parseAuthorizationEnvelope plainCasts (some (floored (1/2^24))) policy "b" =
        .ok (parsed (1/2^24)) ∧
      reparse numerals plainCasts (parsed (1/2^24)) policy "b" = .ok (parsed 0) ∧
      (coversAction (parsed (1/2^24)) .post [] ⟨none,none⟩ {} 0).covered = false ∧
      (coversAction (parsed 0) .post [] ⟨none,none⟩ {} 0).covered = true) ∧
    ¬∀ numerals casts policy document source e,
      parseAuthorizationEnvelope casts document policy source = .ok e →
      ∃ e', reparse numerals casts e policy source = .ok e' ∧ SameStanding e' e := by
  have hparse : parseAuthorizationEnvelope plainCasts (some (floored (1/2^24))) policy "b" =
      .ok (parsed (1/2^24)) := by decide +kernel
  have hreparse : reparse numerals plainCasts (parsed (1/2^24)) policy "b" = .ok (parsed 0) := by
    decide +kernel
  refine ⟨⟨hparse,hreparse,by decide +kernel,by decide +kernel⟩,fun h => ?_⟩
  obtain ⟨e',he',hsame⟩ := h numerals plainCasts policy _ "b" _ hparse
  rw [hreparse] at he'
  have hkinds := hsame.kinds
  rw [← Except.ok.inj he'] at hkinds
  exact absurd hkinds (by decide +kernel)

end Sample

end Atperson.Envelope
