import Atperson.Wire.Instant

/-!
# Substring search and integer text

`std::string::find` over byte strings, with the rules that follow a search through a text piece
by piece, and `std::stoll` over what `std::to_string` prints.
-/
namespace Atperson.Wire

/-- Where the pattern first occurs. -/
def find (json pattern : Bytes) : Option ℕ :=
  match json with
  | [] => if pattern = [] then some 0 else none
  | c::rest =>
      if pattern.isPrefixOf (c::rest) then some 0 else (find rest pattern).map (·+1)

/-- The first occurrence of the pattern ends where `rest` begins. -/
def Found (json pattern rest : Bytes) : Prop :=
  ∃ at_, find json pattern = some at_ ∧ json.drop (at_+pattern.length) = rest

namespace Found

theorem here {pattern : Bytes} (h : pattern ≠ []) (rest : Bytes) :
    Found (pattern++rest) pattern rest := by
  obtain ⟨c,tail,rfl⟩ := List.exists_cons_of_ne_nil h
  refine ⟨0,?_,by simp⟩
  rw [List.cons_append,find,if_pos]
  rw [← List.cons_append,List.isPrefixOf_iff_prefix]
  exact List.prefix_append _ _

theorem step {c : UInt8} {json pattern rest : Bytes} (hc : pattern.isPrefixOf (c::json) = false)
    (h : Found json pattern rest) : Found (c::json) pattern rest := by
  obtain ⟨at_,hfind,hrest⟩ := h
  refine ⟨at_+1,?_,?_⟩
  · rw [find,if_neg (by simp [hc]),hfind]
    rfl
  · rw [show at_+1+pattern.length = at_+pattern.length+1 by omega,List.drop_succ_cons,hrest]

/-- A piece without the first byte of the pattern is passed over. -/
theorem skip {piece json tail rest : Bytes} {q : UInt8} (hpiece : q ∉ piece)
    (h : Found json (q::tail) rest) : Found (piece++json) (q::tail) rest := by
  induction piece with
  | nil => exact h
  | cons c piece ih =>
      rw [List.mem_cons,not_or] at hpiece
      refine step ?_ (ih hpiece.2)
      rw [List.isPrefixOf,beq_eq_false_iff_ne.mpr hpiece.1,Bool.false_and]

end Found

/-- `std::stoll`. -/
def stoll (s : Bytes) : Except String Int64 :=
  match stol s with
  | none => .error "stoll: no conversion"
  | some n => if -2^63 ≤ n ∧ n < 2^63 then .ok (Int64.ofInt n) else .error "stoll: out of range"

/-- `std::to_string`. -/
def intString (n : Int64) : Bytes := formatPadded 1 n.toInt

theorem isDigit_of_mem {width n : ℕ} {c : UInt8} (h : c ∈ paddedDecimal width n) :
    isDigit c = true := by
  obtain ⟨hlow,hhigh⟩ := digit_of_mem_paddedDecimal h
  simp [isDigit,hlow,hhigh]

theorem takeWhile_digits {ds : Bytes} (hds : ∀ c ∈ ds, isDigit c = true) {c : UInt8}
    (hc : isDigit c = false) (rest : Bytes) : (ds++c::rest).takeWhile isDigit = ds := by
  rw [List.takeWhile_append_of_pos hds,List.takeWhile_cons_of_neg (by simp [hc]),List.append_nil]

theorem dropWhile_blank {d : UInt8} (h : (d = 32 || (9 ≤ d && d ≤ 13)) = false) (rest : Bytes) :
    (d::rest).dropWhile (fun c => c = 32 || (9 ≤ c && c ≤ 13)) = d::rest :=
  List.dropWhile_cons_of_neg (by rw [h]; exact Bool.false_ne_true)

theorem stol_digits {ds : Bytes} (hne : ds ≠ []) (hds : ∀ c ∈ ds, isDigit c = true) {c : UInt8}
    (hc : isDigit c = false) (rest : Bytes) :
    stol (ds++c::rest) = some (decimalValue ds : ℤ) := by
  have htake := takeWhile_digits hds hc rest
  obtain ⟨d,tail,rfl⟩ := List.exists_cons_of_ne_nil hne
  obtain ⟨hblank,hminus,hplus⟩ := digit_plain (hds d List.mem_cons_self)
  have hneg : ¬(d::(tail++c::rest)).head? = some 45 := by simpa using hminus
  have hpos : ¬(d::(tail++c::rest)).head? = some 43 := by simpa using hplus
  rw [List.cons_append] at htake ⊢
  simp only [stol,dropWhile_blank hblank,if_neg hneg,if_neg (not_or.mpr ⟨hneg,hpos⟩),htake,if_neg hne]

theorem stol_negative {ds : Bytes} (hne : ds ≠ []) (hds : ∀ c ∈ ds, isDigit c = true) {c : UInt8}
    (hc : isDigit c = false) (rest : Bytes) :
    stol (45::(ds++c::rest)) = some (-(decimalValue ds : ℤ)) := by
  have htake := takeWhile_digits hds hc rest
  have hneg : (45::(ds++c::rest)).head? = some 45 := rfl
  have hblank : ((45 : UInt8) = 32 || (9 ≤ (45 : UInt8) && (45 : UInt8) ≤ 13)) = false := by decide
  simp only [stol,dropWhile_blank hblank,if_pos hneg,if_pos (Or.inl hneg),List.tail_cons,htake,
    if_neg hne]

/-- An integer is printed as the digits of its magnitude, behind a sign when it is negative. -/
theorem formatPadded_one (n : ℤ) : ∃ ds : Bytes, ds ≠ [] ∧ (∀ c ∈ ds, isDigit c = true) ∧
    decimalValue ds = n.natAbs ∧ formatPadded 1 n = if n < 0 then 45::ds else ds := by
  have hdigits (width : ℕ) (hwidth : Nat.log 10 n.natAbs+1 ≤ width) :
      paddedDecimal width n.natAbs ≠ [] ∧
        (∀ c ∈ paddedDecimal width n.natAbs, isDigit c = true) ∧
        decimalValue (paddedDecimal width n.natAbs) = n.natAbs := by
    refine ⟨?_,fun c hc => isDigit_of_mem hc,?_⟩
    · obtain ⟨k,rfl⟩ : ∃ k, width = k+1 := ⟨width-1,by omega⟩
      simp [paddedDecimal]
    · rw [decimalValue_padded,Nat.mod_eq_of_lt]
      exact (Nat.lt_pow_succ_log_self (by decide) _).trans_le (Nat.pow_le_pow_right (by decide) hwidth)
  by_cases hneg : n < 0
  · obtain ⟨hne,hds,hvalue⟩ := hdigits _ (le_max_right (1-1) _)
    exact ⟨_,hne,hds,hvalue,by simp only [formatPadded,if_pos hneg]⟩
  · obtain ⟨hne,hds,hvalue⟩ := hdigits _ (le_max_right 1 _)
    exact ⟨_,hne,hds,hvalue,by simp only [formatPadded,if_neg hneg]⟩

/-- An integer that is printed and followed by no digit is read back. -/
theorem stoll_intString (n : Int64) {c : UInt8} (hc : isDigit c = false) (rest : Bytes) :
    stoll (intString n++c::rest) = .ok n := by
  have hread : stol (intString n++c::rest) = some n.toInt := by
    obtain ⟨ds,hne,hds,hvalue,hprinted⟩ := formatPadded_one n.toInt
    rw [intString,hprinted]
    split
    · next hneg =>
        rw [List.cons_append,stol_negative hne hds hc,hvalue]
        congr 1
        omega
    · next hneg =>
        rw [stol_digits hne hds hc,hvalue]
        congr 1
        omega
  have hrange : -2^63 ≤ n.toInt ∧ n.toInt < 2^63 := ⟨n.le_toInt,n.toInt_lt⟩
  simp only [stoll,hread,if_pos hrange,Int64.ofInt_toInt]

end Atperson.Wire
