import Atperson.Outbound.Budget
import Atperson.Runs.Fallible

/-!
# Reading back a saved budget state

A loaded state is the saved one when its numbers are doubles and no identity holds a NUL.
Negative times load as an error.
-/
namespace Atperson.Outbound
open Wire Runs

/-- The number and string conversions of the file lose nothing of the state. -/
structure Representable (state : OutboundBudgetState) : Prop where
  saved : ∀ t ∈ state.savedAt, nearestDouble t = t
  last : ∀ kind, ∀ t ∈ (state.usage kind).lastActionAt, nearestDouble t = t
  actions : ∀ kind, ∀ t ∈ (state.usage kind).recentActions, nearestDouble t = t
  duplicates : ∀ kind, ∀ record ∈ (state.usage kind).recentDuplicates,
    nearestDouble record.atTime = record.atTime ∧ (0 : UInt8) ∉ record.key

instance (state : OutboundBudgetState) : Decidable (Representable state) :=
  decidable_of_iff ((∀ t ∈ state.savedAt, nearestDouble t = t) ∧
    (∀ kind, ∀ t ∈ (state.usage kind).lastActionAt, nearestDouble t = t) ∧
    (∀ kind, ∀ t ∈ (state.usage kind).recentActions, nearestDouble t = t) ∧
    (∀ kind, ∀ record ∈ (state.usage kind).recentDuplicates,
      nearestDouble record.atTime = record.atTime ∧ (0 : UInt8) ∉ record.key))
    ⟨fun h => ⟨h.1,h.2.1,h.2.2.1,h.2.2.2⟩,fun h => ⟨h.1,h.2,h.3,h.4⟩⟩

theorem requireTimestamp_number {t t' : ℤ} {what : String} (ht : nearestDouble t = t)
    (h : requireTimestamp (some (.number t)) what = .ok t') : t' = t := by
  simp only [requireTimestamp] at h
  split at h
  · cases h
  · rw [← Except.ok.inj h,ht]

theorem parseOptionalTime_optionalTime {t t' : Option ℤ} {what : String}
    (ht : ∀ x ∈ t, nearestDouble x = x)
    (h : parseOptionalTime (some (optionalTime t)) what = .ok t') : t' = t := by
  cases t with
  | none => exact (Except.ok.inj h).symm
  | some x =>
      obtain ⟨y,hy,rfl⟩ := map_ok.mp h
      rw [requireTimestamp_number (ht x rfl) hy]

theorem parseDuplicate_duplicateJson {record record' : OutboundDuplicateRecord}
    {kind : String} (ht : nearestDouble record.atTime = record.atTime)
    (hkey : (0 : UInt8) ∉ record.key)
    (h : parseDuplicate (duplicateJson record) kind = .ok record') : record' = record := by
  have hcut := ofRaw_bytes_of_noNul hkey
  have hraw : (CString.ofRaw (CString.ofRaw record.key).bytes).bytes = record.key := by
    rw [hcut,hcut]
  simp only [parseDuplicate,duplicateJson,Json.get?,Json.ofCString] at h
  simp only [List.find?_cons,beq_self_eq_true,Option.map_some,hraw] at h
  split at h
  · cases h
  · obtain ⟨t,ht',rfl⟩ := map_ok.mp h
    have hfind : ("key" == "at") = false := by decide
    simp only [hfind,Option.map_some] at ht'
    rw [requireTimestamp_number ht ht']

theorem parseUsage_usageJson {usage usage' : OutboundKindUsage} {kind : String}
    (hlast : ∀ t ∈ usage.lastActionAt, nearestDouble t = t)
    (hactions : ∀ t ∈ usage.recentActions, nearestDouble t = t)
    (hduplicates : ∀ record ∈ usage.recentDuplicates,
      nearestDouble record.atTime = record.atTime ∧ (0 : UInt8) ∉ record.key)
    (h : parseUsage (usageJson usage) kind = .ok usage') : usage' = usage := by
  obtain ⟨last,hl,h⟩ := bind_ok.mp h
  obtain ⟨actions,ha,h⟩ := bind_ok.mp h
  obtain ⟨duplicates,hd,h⟩ := bind_ok.mp h
  have hl := parseOptionalTime_optionalTime hlast hl
  have ha : actions = usage.recentActions :=
    mapM_read (fun t ht _ => requireTimestamp_number (hactions t ht)) ha
  have hd : duplicates = usage.recentDuplicates :=
    mapM_read (fun record hr _ =>
      parseDuplicate_duplicateJson (hduplicates record hr).1 (hduplicates record hr).2) hd
  split at h
  · cases h
  split at h
  · cases h
  split at h
  · cases h
  rw [← Except.ok.inj h,hl,ha,hd]

theorem parseKinds_ok {state : OutboundBudgetState} (hs : Representable state)
    {kinds seen : List OutboundActionKind} {before after : OutboundBudgetState}
    (h : parseKinds (kinds.map (fun kind => (outboundKindName kind,usageJson (state.usage kind))))
      seen before = .ok after) :
    (∀ kind, after.usage kind =
      if kind ∈ kinds then state.usage kind else before.usage kind) ∧
    after.version = before.version ∧ after.savedAt = before.savedAt := by
  induction kinds generalizing seen before with
  | nil => cases h; simp
  | cons kind rest ih =>
      simp only [List.map_cons,parseKinds,usageJson,parseOutboundKind_name] at h
      split at h
      · cases h
      obtain ⟨usage,hu,h⟩ := bind_ok.mp h
      have hu : usage = state.usage kind :=
        parseUsage_usageJson (hs.last kind) (hs.actions kind) (hs.duplicates kind) hu
      obtain ⟨hall,hv,hsaved⟩ := ih h
      refine ⟨fun k => ?_,hv,hsaved⟩
      rw [hall k,hu]
      by_cases hk : k = kind
      · subst hk; simp [OutboundBudgetState.setUsage]
      · simp [OutboundBudgetState.setUsage,hk]

theorem load_serialise {state state' : OutboundBudgetState} {doc : Json ℤ} {path : String}
    (hrep : Representable state) (hs : serialiseOutboundBudgetState state = .ok doc)
    (hl : loadOutboundBudgetState (some doc) path = .ok state') : state' = state := by
  unfold serialiseOutboundBudgetState at hs
  split at hs
  · cases hs
  rename_i hv
  cases hs
  simp only [loadOutboundBudgetState,Json.get?] at hl
  simp only [List.find?_cons,show ("format" == "format") = true from rfl,
    show ("format" == "version") = false by decide,
    show ("version" == "version") = true from rfl,
    show ("format" == "saved_at") = false by decide,
    show ("version" == "saved_at") = false by decide,
    show ("saved_at" == "saved_at") = true from rfl,
    show ("format" == "kinds") = false by decide,
    show ("version" == "kinds") = false by decide,
    show ("saved_at" == "kinds") = false by decide,
    show ("kinds" == "kinds") = true from rfl,Option.map_some] at hl
  split at hl
  · cases hl
  split at hl
  · cases hl
  obtain ⟨saved,hsaved,hl⟩ := bind_ok.mp hl
  obtain ⟨husage,hversion,hat⟩ := parseKinds_ok hrep hl
  have hsaved := parseOptionalTime_optionalTime hrep.saved hsaved
  refine OutboundBudgetState.ext ?_ ?_ ?_
  · rw [hversion]; exact (not_not.mp hv).symm
  · funext kind
    rw [husage kind,if_pos kind.mem_all]
  · rw [hat]; exact hsaved

end Atperson.Outbound
