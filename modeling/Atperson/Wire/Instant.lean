import Atperson.Wire.Timestamp
import Atperson.Wire.Calendar

/-!
# Instants and their spellings

What a timestamp denotes: a day that exists, a time of day, and the offset of a zone, with the
second of it by the lengths of the years and months before. The parser agrees with that on
what is spelled with care; the day it checks against 31 only, and it lets the digits of a
fraction be missing and those of an offset be blanks, signs or something else.
-/
namespace Atperson.Wire

structure Instant where
  year : ℕ
  month : ℕ
  day : ℕ
  hour : ℕ
  minute : ℕ
  second : ℕ
  offset : ℤ
  deriving DecidableEq

namespace Instant

/-- A calendar instant that exists; the second may be a leap second. -/
def Real (i : Instant) : Prop :=
  RealDay i.year i.month i.day ∧ i.year ≤ 9999 ∧ i.hour ≤ 23 ∧ i.minute ≤ 59 ∧ i.second ≤ 60

/-- The Unix second. -/
def unix (i : Instant) : ℤ :=
  (dayNumber i.year i.month i.day-dayNumber 1970 1 1)*86400+i.hour*3600+i.minute*60+i.second-
    i.offset

def stamp (i : Instant) : Bytes :=
  paddedDecimal 4 i.year++45::(paddedDecimal 2 i.month++45::(paddedDecimal 2 i.day++84::
    (paddedDecimal 2 i.hour++58::(paddedDecimal 2 i.minute++58::paddedDecimal 2 i.second))))

end Instant

inductive Fraction : Bytes → Prop
  | absent : Fraction []
  | digits {ds : Bytes} (hne : ds ≠ []) (hds : ∀ c ∈ ds, isDigit c = true) : Fraction (46::ds)

inductive Zone : Bytes → ℤ → Prop
  | absent : Zone [] 0
  | utc : Zone [90] 0
  | lower : Zone [122] 0
  | east {hours minutes : ℕ} (hh : hours ≤ 23) (hm : minutes ≤ 59) :
      Zone (43::(paddedDecimal 2 hours++58::paddedDecimal 2 minutes)) (hours*3600+minutes*60)
  | west {hours minutes : ℕ} (hh : hours ≤ 23) (hm : minutes ≤ 59) :
      Zone (45::(paddedDecimal 2 hours++58::paddedDecimal 2 minutes)) (-(hours*3600+minutes*60))

/-- What follows the seconds, with the offset it spells. -/
def Tail (rest : Bytes) (offset : ℤ) : Prop :=
  ∃ fraction zone, rest = fraction++zone ∧ Fraction fraction ∧ Zone zone offset

structure Denotes (value : Bytes) (i : Instant) : Prop where
  real : i.Real
  spelled : ∃ rest, value = i.stamp++rest ∧ Tail rest i.offset

/-! ## Days -/

theorem eras_eq (year doy : ℤ) :
    year/400*146097+((year-year/400*400)*365+(year-year/400*400)/4-(year-year/400*400)/100+doy)-
      719468 = 365*year+year/4-year/100+year/400+doy-719468 := by
  omega

/-- The leap day of the year itself moves on to the count of those before the next. -/
theorem leap_eq (year : ℕ) : ((year : ℤ)+3)/4-(year+99)/100+(year+399)/400+
    (yearLength year-365) = (year : ℤ)/4-year/100+year/400+1 := by
  have h4 : ((year : ℤ)+3)/4+(if year%4 = 0 then 1 else 0) = (year : ℤ)/4+1 := by
    split <;> omega
  have h100 : ((year : ℤ)+99)/100+(if year%100 = 0 then 1 else 0) = (year : ℤ)/100+1 := by
    split <;> omega
  have h400 : ((year : ℤ)+399)/400+(if year%400 = 0 then 1 else 0) = (year : ℤ)/400+1 := by
    split <;> omega
  rw [yearLength_eq]
  linarith

/-- The formula for the days is their count. -/
theorem epochDays_eq {year month day : ℕ} (hlow : 1 ≤ month) (hhigh : month ≤ 12) :
    epochDays year month day = dayNumber year month day-dayNumber 1970 1 1 := by
  rw [dayNumber_epoch,dayNumber,daysBeforeYear_eq]
  unfold epochDays
  by_cases hmarch : 2 < month
  · have hmarch' : 2 < (month : ℤ) := by exact_mod_cast hmarch
    have hleap := leap_eq year
    have hmonths := @daysBeforeMonth_late year month hmarch hhigh
    simp only [if_pos hmarch',eras_eq]
    generalize daysBeforeMonth year month = months at *
    generalize yearLength year = days at *
    have hmonths' : (months : ℤ)+365 = (153*(month-3)+2)/5+59+days := by omega
    clear hmonths
    linarith
  · have hmarch' : ¬2 < (month : ℤ) := by exact_mod_cast hmarch
    rw [daysBeforeMonth_early hlow (by omega)]
    simp only [if_neg hmarch',eras_eq]
    have hcases : month = 1 ∨ month = 2 := by omega
    rcases hcases with rfl | rfl
    · push_cast
      omega
    · push_cast
      omega

/-! ## The civil date of a second -/

/-- What the eras give for a day. -/
structure CivilDay (days year month day : ℤ) : Prop where
  counted : epochDays year month day = days
  nonneg : 0 ≤ year
  months : 1 ≤ month ∧ month ≤ 12
  exists_day : 1 ≤ day ∧ day ≤ monthLength year.toNat month.toNat
  last : days ≤ 2932896 → year ≤ 9999

theorem leapYear_of_era {c q era : ℤ} (hc : 0 ≤ c ∧ c ≤ 3) (hq : 0 ≤ q ∧ q ≤ 24) (hera : 0 ≤ era)
    (hday : q ≠ 24 ∨ c = 3) : leapYear (100*c+4*q+3+era*400+1).toNat = true := by
  simp only [leapYear,Bool.and_eq_true,Bool.or_eq_true,decide_eq_true_eq]
  omega

theorem monthLength_march {year : ℕ} {mp : ℤ} {month : ℕ} (hlow : 0 ≤ mp) (hhigh : mp ≤ 10)
    (hmonth : (month : ℤ) = if mp < 10 then mp+3 else mp-9) :
    (153*(mp+1)+2)/5-(153*mp+2)/5 = monthLength year month := by
  interval_cases mp <;> simp at hmonth <;> (obtain rfl : month = _ := by exact_mod_cast hmonth) <;>
    rfl

theorem civil_of_era {era c q s r : ℤ} (hera : 0 ≤ era) (hc : 0 ≤ c ∧ c ≤ 3)
    (hq : 0 ≤ q ∧ q ≤ 24) (hs : 0 ≤ s ∧ s ≤ 3) (hr : 0 ≤ r)
    (hday : r ≤ 364 ∨ r = 365 ∧ s = 3 ∧ (q ≠ 24 ∨ c = 3)) :
    let mp := (5*r+2)/153
    let month := if mp < 10 then mp+3 else mp-9
    CivilDay (era*146097+(36524*c+1461*q+365*s+r)-719468)
      (100*c+4*q+s+era*400+(if month ≤ 2 then 1 else 0)) month (r-(153*mp+2)/5+1) := by
  intro mp month
  obtain ⟨hmp0,hmp11,hday1,hday31⟩ := month_of_day hr (by omega)
  have hmp : mp = (5*r+2)/153 := rfl
  have hmonth : month = if mp < 10 then mp+3 else mp-9 := rfl
  clear_value mp month
  rw [← hmp] at hmp0 hmp11 hday1 hday31
  have hcycle : (100*c+4*q+s+era*400)/4-(100*c+4*q+s+era*400)/100+(100*c+4*q+s+era*400)/400 =
      97*era+24*c+q := by omega
  refine ⟨?_,?_,?_,⟨hday1,?_⟩,fun hlast => ?_⟩
  · unfold epochDays
    by_cases hjanuary : mp < 10
    · rw [if_pos hjanuary] at hmonth
      have hspring : ¬month ≤ 2 := by omega
      have hspring' : 2 < month := by omega
      have hback : month-3 = mp := by omega
      simp only [if_neg hspring,if_pos hspring',add_zero,eras_eq,hback]
      linarith
    · rw [if_neg hjanuary] at hmonth
      have hwinter : month ≤ 2 := by omega
      have hwinter' : ¬2 < month := by omega
      have hback : month+9 = mp := by omega
      simp only [if_pos hwinter,if_neg hwinter',add_sub_cancel_right,eras_eq,hback]
      linarith
  · split <;> omega
  · rw [hmonth]
    split <;> omega
  · by_cases hfebruary : mp = 11
    · have hmonth2 : month = 2 := by
        rw [hmonth,if_neg (by omega)]
        omega
      rw [hmonth2,if_pos le_rfl]
      have hlength : ∀ year : ℕ, (monthLength year (2 : ℤ).toNat : ℤ) =
          if leapYear year then 29 else 28 := by
        intro year
        have hmonth : monthLength year (2 : ℤ).toNat = if leapYear year then 29 else 28 := rfl
        rw [hmonth]
        split <;> rfl
      rw [hlength]
      rcases hday with hr364 | ⟨hr365,hs3,hlate⟩
      · split <;> omega
      · rw [hs3,leapYear_of_era hc hq hera hlate,if_pos rfl]
        omega
    · have hlength := @monthLength_march (100*c+4*q+s+era*400+(if month ≤ 2 then 1 else 0)).toNat mp
        month.toNat hmp0 (by omega) (by rw [Int.toNat_of_nonneg (by rw [hmonth]; split <;> omega)]; exact hmonth)
      rw [← hlength]
      omega
  · split <;> omega

/-- The time of day. -/
theorem clock_time {rest : ℤ} (hlow : 0 ≤ rest) (hhigh : rest < 86400) :
    ∃ hour minute second : ℕ, rest/3600 = hour ∧ rest%3600/60 = minute ∧ rest%60 = second ∧
      hour ≤ 23 ∧ minute ≤ 59 ∧ second ≤ 60 ∧ (hour*3600+minute*60+second : ℤ) = rest :=
  ⟨(rest/3600).toNat,(rest%3600/60).toNat,(rest%60).toNat,by omega,by omega,by omega,by omega,
    by omega,by omega,by omega⟩

theorem civilDate {seconds : ℤ} (hlow : 0 ≤ seconds) :
    CivilDay (seconds/86400) (civilTime seconds).year (civilTime seconds).month
      (civilTime seconds).day := by
  have hdays : 0 ≤ seconds/86400 := Int.ediv_nonneg hlow (by decide)
  unfold civilTime
  generalize seconds/86400 = days at *
  simp only
  have hsplit : (days+719468)/146097*146097+(days+719468)%146097-719468 = days := by omega
  have hdoe0 : 0 ≤ (days+719468)%146097 := Int.emod_nonneg _ (by decide)
  have hdoe1 : (days+719468)%146097 ≤ 146096 := by
    have := Int.emod_lt_of_pos (days+719468) (show (0 : ℤ) < 146097 by decide)
    omega
  have hera : 0 ≤ (days+719468)/146097 := Int.ediv_nonneg (by omega) (by decide)
  generalize (days+719468)/146097 = era at hsplit hera ⊢
  generalize (days+719468)%146097 = doe at hsplit hdoe0 hdoe1 ⊢
  obtain ⟨c,q,s,r,hc,hq,hs,hr,hdoe,hday⟩ := era_split hdoe0 hdoe1
  have hdoy : doe-(365*(100*c+4*q+s)+(100*c+4*q+s)/4-(100*c+4*q+s)/100) = r := by
    clear hday hdoe0 hdoe1 hsplit
    omega
  rw [year_of_era hc hq hs hr hdoe hday,hdoy]
  have hcivil := civil_of_era hera hc hq hs hr hday
  rw [← hdoe,hsplit] at hcivil
  exact hcivil

/-- The rendering of a second is that of an instant that exists, at that second. -/
theorem civilTime_real {seconds : ℤ} (hlow : 0 ≤ seconds) (hhigh : seconds ≤ 253402300799) :
    ∃ i : Instant, i.Real ∧ i.offset = 0 ∧ i.unix = seconds ∧
      civilTime seconds = ⟨i.year,i.month,i.day,i.hour,i.minute,i.second⟩ := by
  obtain ⟨hcounted,hnonneg,⟨hm1,hm12⟩,⟨hd1,hd31⟩,hlast⟩ := civilDate hlow
  obtain ⟨hh,n,sec,hhour,hminute,hsecond,hh23,hn59,hs60,hrest⟩ :=
    @clock_time (seconds%86400) (Int.emod_nonneg _ (by decide))
      (Int.emod_lt_of_pos _ (by decide))
  have hyear : (civilTime seconds).year ≤ 9999 := hlast (by omega)
  have hwhole : seconds/86400*86400+seconds%86400 = seconds := by omega
  obtain ⟨y,hy⟩ := Int.eq_ofNat_of_zero_le hnonneg
  obtain ⟨m,hm⟩ := Int.eq_ofNat_of_zero_le ((show (0 : ℤ) ≤ 1 by decide).trans hm1)
  obtain ⟨d,hd⟩ := Int.eq_ofNat_of_zero_le ((show (0 : ℤ) ≤ 1 by decide).trans hd1)
  rw [hy,hm,hd] at hcounted
  rw [hy] at hyear
  rw [hm] at hm1 hm12
  rw [hd] at hd1
  rw [hy,hm,hd,Int.toNat_natCast,Int.toNat_natCast] at hd31
  norm_cast at hyear hm1 hm12 hd1 hd31
  refine ⟨⟨y,m,d,hh,n,sec,0⟩,⟨⟨⟨hm1,hm12⟩,hd1,hd31⟩,hyear,hh23,hn59,hs60⟩,rfl,?_,?_⟩
  · rw [Instant.unix,← epochDays_eq hm1 hm12,hcounted]
    simp only
    linarith
  · have htime : civilTime seconds = ⟨(civilTime seconds).year,(civilTime seconds).month,
        (civilTime seconds).day,seconds%86400/3600,seconds%86400%3600/60,seconds%86400%60⟩ := rfl
    refine htime.trans ?_
    rw [hy,hm,hd,hhour,hminute,hsecond]

/-! ## Digits -/

theorem isDigit_decimalDigit (n : ℕ) : isDigit (decimalDigit n) = true := by
  have hmem : decimalDigit n ∈ paddedDecimal 1 n := by simp [paddedDecimal]
  obtain ⟨hlow,hhigh⟩ := digit_of_mem_paddedDecimal hmem
  simp [isDigit,hlow,hhigh]

theorem decimalDigit_of_digit {c : UInt8} (h : isDigit c = true) (v : ℕ) :
    decimalDigit (10*v+(c.toNat-48)) = c ∧ (10*v+(c.toNat-48))/10 = v := by
  simp only [isDigit,Bool.and_eq_true,decide_eq_true_eq,UInt8.le_iff_toNat_le] at h
  obtain ⟨hlow,hhigh⟩ := h
  have h48 : (48 : UInt8).toNat = 48 := rfl
  have h57 : (57 : UInt8).toNat = 57 := rfl
  rw [h48] at hlow
  rw [h57] at hhigh
  refine ⟨?_,by omega⟩
  rw [decimalDigit,show 48+(10*v+(c.toNat-48))%10 = c.toNat by omega,UInt8.ofNat_toNat]

/-- Digits are those of the number they stand for. -/
theorem paddedDecimal_value {ds : Bytes} (h : ∀ c ∈ ds, isDigit c = true) :
    paddedDecimal ds.length (decimalValue ds) = ds := by
  induction ds using List.reverseRecOn with
  | nil => rfl
  | append_singleton ds c ih =>
      obtain ⟨hdigit,hrest⟩ := decimalDigit_of_digit (h c (by simp)) (decimalValue ds)
      rw [List.length_append,List.length_singleton,decimalValue_append,paddedDecimal,hdigit,hrest,
        ih fun x hx => h x (List.mem_append_left _ hx)]

theorem two_digits (n : ℕ) : paddedDecimal 2 n = [decimalDigit (n/10),decimalDigit n] := rfl

theorem four_digits (n : ℕ) : paddedDecimal 4 n =
    [decimalDigit (n/10/10/10),decimalDigit (n/10/10),decimalDigit (n/10),decimalDigit n] := rfl

theorem value_two {n : ℕ} (h : n < 100) : decimalValue [decimalDigit (n/10),decimalDigit n] = n := by
  rw [← two_digits,decimalValue_padded]
  exact Nat.mod_eq_of_lt h

theorem value_four {n : ℕ} (h : n < 10000) : decimalValue
    [decimalDigit (n/10/10/10),decimalDigit (n/10/10),decimalDigit (n/10),decimalDigit n] = n := by
  rw [← four_digits,decimalValue_padded]
  exact Nat.mod_eq_of_lt h

/-! ## The fixed places -/

/-- The digits between the separators. -/
structure Places where
  year : Bytes
  month : Bytes
  day : Bytes
  hour : Bytes
  minute : Bytes
  second : Bytes

def Places.head (p : Places) : Bytes :=
  p.year++45::(p.month++45::(p.day++84::(p.hour++58::(p.minute++58::p.second))))

def Digits (width : ℕ) (ds : Bytes) : Prop := ds.length = width ∧ ∀ c ∈ ds, isDigit c = true

structure Places.Filled (p : Places) : Prop where
  year : Digits 4 p.year
  month : Digits 2 p.month
  day : Digits 2 p.day
  hour : Digits 2 p.hour
  minute : Digits 2 p.minute
  second : Digits 2 p.second

theorem shape_filled {head : Bytes} (h : timestampShape head = true) :
    ∃ p : Places, p.Filled ∧ head = p.head := by
  simp only [timestampShape,Bool.and_eq_true,decide_eq_true_eq] at h
  obtain ⟨hlength,hall⟩ := h
  obtain ⟨y1,y2,y3,y4,s1,m1,m2,s2,d1,d2,s3,h1,h2,s4,n1,n2,s5,e1,e2,rfl⟩ :
      ∃ y1 y2 y3 y4 s1 m1 m2 s2 d1 d2 s3 h1 h2 s4 n1 n2 s5 e1 e2, head =
        [y1,y2,y3,y4,s1,m1,m2,s2,d1,d2,s3,h1,h2,s4,n1,n2,s5,e1,e2] := by
    match head,hlength with
    | [_,_,_,_,_,_,_,_,_,_,_,_,_,_,_,_,_,_,_],_ =>
        exact ⟨_,_,_,_,_,_,_,_,_,_,_,_,_,_,_,_,_,_,_,rfl⟩
  simp [List.zipIdx] at hall
  refine ⟨⟨[y1,y2,y3,y4],[m1,m2],[d1,d2],[h1,h2],[n1,n2],[e1,e2]⟩,?_,?_⟩
  · constructor <;> simp [Digits,hall]
  · simp [Places.head,hall]

theorem Digits.two {ds : Bytes} (h : Digits 2 ds) :
    ∃ a b, ds = [a,b] ∧ isDigit a = true ∧ isDigit b = true := by
  obtain ⟨hlength,hds⟩ := h
  match ds,hlength with
  | [a,b],_ => exact ⟨a,b,rfl,hds a (by simp),hds b (by simp)⟩

theorem Digits.four {ds : Bytes} (h : Digits 4 ds) : ∃ a b c d, ds = [a,b,c,d] ∧
    isDigit a = true ∧ isDigit b = true ∧ isDigit c = true ∧ isDigit d = true := by
  obtain ⟨hlength,hds⟩ := h
  match ds,hlength with
  | [a,b,c,d],_ =>
      exact ⟨a,b,c,d,rfl,hds a (by simp),hds b (by simp),hds c (by simp),hds d (by simp)⟩

/-- The instant that the fixed places of a string read as. -/
def readInstant (value : Bytes) (offset : ℤ) : Instant where
  year := decimalValue (value.take 4)
  month := decimalValue ((value.drop 5).take 2)
  day := decimalValue ((value.drop 8).take 2)
  hour := decimalValue ((value.drop 11).take 2)
  minute := decimalValue ((value.drop 14).take 2)
  second := decimalValue ((value.drop 17).take 2)
  offset := offset

def Places.instant (p : Places) (offset : ℤ) : Instant where
  year := decimalValue p.year
  month := decimalValue p.month
  day := decimalValue p.day
  hour := decimalValue p.hour
  minute := decimalValue p.minute
  second := decimalValue p.second
  offset := offset

/-- Where the places are filled, the fields are read off them. -/
theorem Places.Filled.reads {p : Places} (h : p.Filled) (rest : Bytes) :
    timestampShape ((p.head++rest).take 19) = true ∧ (p.head++rest).drop 19 = rest ∧
      ∀ offset, readInstant (p.head++rest) offset = p.instant offset := by
  obtain ⟨y,m,d,hh,n,e⟩ := p
  obtain ⟨hy,hm,hd,hhour,hn,he⟩ := h
  simp only at hy hm hd hhour hn he
  obtain ⟨y1,y2,y3,y4,rfl,hy1,hy2,hy3,hy4⟩ := hy.four
  obtain ⟨m1,m2,rfl,hm1,hm2⟩ := hm.two
  obtain ⟨d1,d2,rfl,hd1,hd2⟩ := hd.two
  obtain ⟨h1,h2,rfl,hh1,hh2⟩ := hhour.two
  obtain ⟨n1,n2,rfl,hn1,hn2⟩ := hn.two
  obtain ⟨e1,e2,rfl,he1,he2⟩ := he.two
  refine ⟨?_,rfl,fun _ => rfl⟩
  simp [timestampShape,Places.head,List.zipIdx,hy1,hy2,hy3,hy4,hm1,hm2,hd1,hd2,hh1,hh2,hn1,hn2,
    he1,he2]

/-- What the parser checks of a string. -/
structure Admitted (value : Bytes) (offset : ℤ) : Prop where
  shape : timestampShape (value.take 19) = true
  month : 1 ≤ (readInstant value offset).month ∧ (readInstant value offset).month ≤ 12
  day : 1 ≤ (readInstant value offset).day ∧ (readInstant value offset).day ≤ 31
  hour : (readInstant value offset).hour ≤ 23
  minute : (readInstant value offset).minute ≤ 59
  second : (readInstant value offset).second ≤ 60
  zone : zoneOffset (value.drop 19) = some offset
  nonneg : 0 ≤ (readInstant value offset).unix

theorem parse_iff {value : Bytes} {e : UInt64} : parseRfc3339Epoch value = some e ↔
    ∃ offset, Admitted value offset ∧
      e = UInt64.ofNat (readInstant value offset).unix.toNat := by
  have hunix : ∀ offset, 1 ≤ (readInstant value offset).month →
      (readInstant value offset).month ≤ 12 → (readInstant value offset).unix =
        epochDays (decimalValue (value.take 4)) (decimalValue ((value.drop 5).take 2))
          (decimalValue ((value.drop 8).take 2))*86400+
          decimalValue ((value.drop 11).take 2)*3600+
          decimalValue ((value.drop 14).take 2)*60+decimalValue ((value.drop 17).take 2)-offset :=
    fun offset hlow hhigh => by rw [Instant.unix,← epochDays_eq hlow hhigh]; rfl
  unfold parseRfc3339Epoch
  by_cases hshape : timestampShape (value.take 19) = true
  · rw [if_neg (not_not.mpr hshape)]
    simp only [List.drop_zero]
    constructor
    · intro h
      split at h
      · cases h
      rename_i hranges
      split at h
      · cases h
      rename_i offset hzone
      split at h
      · cases h
      rename_i hnonneg
      have hmonth : 1 ≤ (readInstant value offset).month ∧
          (readInstant value offset).month ≤ 12 := by
        simp only [readInstant]
        omega
      refine ⟨offset,⟨hshape,hmonth,?_,?_,?_,?_,hzone,?_⟩,?_⟩
      · simp only [readInstant]
        omega
      · simp only [readInstant]
        omega
      · simp only [readInstant]
        omega
      · simp only [readInstant]
        omega
      · rw [hunix offset hmonth.1 hmonth.2]
        omega
      · rw [hunix offset hmonth.1 hmonth.2]
        exact (Option.some.inj h).symm
    · rintro ⟨offset,h,rfl⟩
      have hmonth := h.month
      have hday := h.day
      have hhour := h.hour
      have hminute := h.minute
      have hsecond := h.second
      simp only [readInstant] at hmonth hday hhour hminute hsecond
      have hnonneg := h.nonneg
      rw [hunix offset h.month.1 h.month.2] at hnonneg ⊢
      rw [if_neg (by omega),h.zone]
      simp only
      rw [if_neg (by omega)]
  · rw [if_pos hshape]
    exact ⟨nofun,fun ⟨_,h,_⟩ => absurd h.shape hshape⟩

/-! ## The zone -/

theorem digit_plain {c : UInt8} (h : isDigit c = true) :
    (c = 32 || (9 ≤ c && c ≤ 13)) = false ∧ c ≠ 45 ∧ c ≠ 43 := by
  simp only [isDigit,Bool.and_eq_true,decide_eq_true_eq,UInt8.le_iff_toNat_le] at h
  obtain ⟨hlow,-⟩ := h
  have h48 : (48 : UInt8).toNat = 48 := rfl
  rw [h48] at hlow
  have hne : ∀ d : UInt8, d.toNat < 48 → c ≠ d := by
    rintro d hd rfl
    omega
  refine ⟨?_,hne 45 (by decide),hne 43 (by decide)⟩
  have h13 : ¬c ≤ 13 := by
    rw [UInt8.le_iff_toNat_le]
    have : (13 : UInt8).toNat = 13 := rfl
    omega
  simp [hne 32 (by decide),h13]

theorem stol_two {n : ℕ} (h : n < 100) : stol (paddedDecimal 2 n) = some (n : ℤ) := by
  have h1 := isDigit_decimalDigit (n/10)
  have h2 := isDigit_decimalDigit n
  have hvalue := value_two h
  rw [two_digits]
  generalize decimalDigit (n/10) = a at *
  generalize decimalDigit n = b at *
  obtain ⟨hblank,hminus,hplus⟩ := digit_plain h1
  simp [stol,hblank,hminus,hplus,h1,h2,hvalue]

theorem dropWhile_digits (zone : Bytes) {ds : Bytes} (hds : ∀ c ∈ ds, isDigit c = true)
    (hzone : zone.dropWhile isDigit = zone) : (ds++zone).dropWhile isDigit = zone := by
  rw [List.dropWhile_append_of_pos hds,hzone]

theorem zoneOffset_fraction {zone ds : Bytes} (hds : ∀ c ∈ ds, isDigit c = true)
    (hzone : zone = [] ∨ ∃ c rest, zone = c::rest ∧ (c = 43 ∨ c = 45 ∨ c = 90 ∨ c = 122)) :
    zoneOffset (46::(ds++zone)) = zoneOffset zone := by
  unfold zoneOffset
  rcases hzone with rfl | ⟨c,rest,rfl,rfl | rfl | rfl | rfl⟩
  · simp only [dropWhile_digits [] hds rfl]
  · simp only [dropWhile_digits (43::rest) hds rfl]
    rfl
  · simp only [dropWhile_digits (45::rest) hds rfl]
    rfl
  · simp only [dropWhile_digits (90::rest) hds rfl]
    rfl
  · simp only [dropWhile_digits (122::rest) hds rfl]
    rfl

theorem offset_read (sign : UInt8) (hsign : sign = 43 ∨ sign = 45) {hours minutes : ℕ}
    (hh : hours ≤ 23) (hm : minutes ≤ 59) :
    zoneOffset (sign::(paddedDecimal 2 hours++58::paddedDecimal 2 minutes)) =
      some (if sign = 45 then -((hours : ℤ)*3600+minutes*60) else hours*3600+minutes*60) := by
  have hhours := stol_two (show hours < 100 by omega)
  have hminutes := stol_two (show minutes < 100 by omega)
  rw [two_digits] at hhours hminutes ⊢
  rw [two_digits]
  rcases hsign with rfl | rfl
  · simp [zoneOffset,hhours,hminutes]
    omega
  · simp [zoneOffset,hhours,hminutes]
    omega

/-- A spelled zone is read as its offset, also behind a fraction. -/
theorem zone_read {zone : Bytes} {offset : ℤ} (h : Zone zone offset) :
    zoneOffset zone = some offset ∧ ∀ ds : Bytes, (∀ c ∈ ds, isDigit c = true) →
      zoneOffset (46::(ds++zone)) = some offset := by
  have hread : zoneOffset zone = some offset ∧ (zone = [] ∨
      ∃ c rest, zone = c::rest ∧ (c = 43 ∨ c = 45 ∨ c = 90 ∨ c = 122)) := by
    cases h with
    | absent => exact ⟨rfl,.inl rfl⟩
    | utc => exact ⟨rfl,.inr ⟨90,[],rfl,by decide⟩⟩
    | lower => exact ⟨rfl,.inr ⟨122,[],rfl,by decide⟩⟩
    | east hh hm => exact ⟨offset_read 43 (.inl rfl) hh hm,.inr ⟨43,_,rfl,by decide⟩⟩
    | west hh hm => exact ⟨offset_read 45 (.inr rfl) hh hm,.inr ⟨45,_,rfl,by decide⟩⟩
  exact ⟨hread.1,fun ds hds => (zoneOffset_fraction hds hread.2).trans hread.1⟩

theorem Tail.read {rest : Bytes} {offset : ℤ} (h : Tail rest offset) :
    zoneOffset rest = some offset := by
  obtain ⟨fraction,zone,rfl,hfraction,hzone⟩ := h
  cases hfraction with
  | absent => exact (zone_read hzone).1
  | digits _ hds => exact (zone_read hzone).2 _ hds

/-! ## What is read and what is denoted -/

/-- What the parser leaves unchecked: the day of the month, and the digits of a fraction and of
an offset. -/
structure WellSpelled (value : Bytes) : Prop where
  day : (readInstant value 0).day ≤
    monthLength (readInstant value 0).year (readInstant value 0).month
  zone : ∃ offset, Tail (value.drop 19) offset

theorem decimalValue_lt {ds : Bytes} (h : ∀ c ∈ ds, isDigit c = true) :
    decimalValue ds < 10^ds.length := by
  have hvalue := decimalValue_padded ds.length (decimalValue ds)
  rw [paddedDecimal_value h] at hvalue
  rw [hvalue]
  exact Nat.mod_lt _ (by positivity)

theorem Digits.padded {width : ℕ} {ds : Bytes} (h : Digits width ds) :
    paddedDecimal width (decimalValue ds) = ds := by
  rw [← h.1]
  exact paddedDecimal_value h.2

theorem Places.Filled.stamp {p : Places} (h : p.Filled) (offset : ℤ) :
    (p.instant offset).stamp = p.head := by
  simp only [Instant.stamp,Places.instant,Places.head,h.year.padded,h.month.padded,h.day.padded,
    h.hour.padded,h.minute.padded,h.second.padded]

/-- What is admitted and spelled with care denotes what it reads as. -/
theorem Admitted.denotes {value : Bytes} {offset : ℤ} (h : Admitted value offset)
    (hspelled : WellSpelled value) : Denotes value (readInstant value offset) := by
  obtain ⟨p,hp,hhead⟩ := shape_filled h.shape
  have hvalue : value = p.head++value.drop 19 := by rw [← hhead,List.take_append_drop]
  have hread : ∀ offset, readInstant value offset = p.instant offset := by
    intro offset
    have := (hp.reads (value.drop 19)).2.2 offset
    rwa [← hvalue] at this
  obtain ⟨offset',htail⟩ := hspelled.zone
  obtain rfl := Option.some.inj (htail.read.symm.trans h.zone)
  refine ⟨⟨⟨h.month,h.day.1,hspelled.day⟩,?_,h.hour,h.minute,h.second⟩,value.drop 19,?_,htail⟩
  · have hyear := decimalValue_lt hp.year.2
    rw [hp.year.1] at hyear
    rw [hread]
    exact Nat.le_of_lt_succ hyear
  · rw [hread,hp.stamp]
    exact hvalue

/-- The places of an instant. -/
def Instant.places (i : Instant) : Places where
  year := paddedDecimal 4 i.year
  month := paddedDecimal 2 i.month
  day := paddedDecimal 2 i.day
  hour := paddedDecimal 2 i.hour
  minute := paddedDecimal 2 i.minute
  second := paddedDecimal 2 i.second

theorem digits_padded (width n : ℕ) : Digits width (paddedDecimal width n) := by
  induction width generalizing n with
  | zero => exact ⟨rfl,fun c hc => absurd hc List.not_mem_nil⟩
  | succ width ih =>
      obtain ⟨hlength,hds⟩ := ih (n/10)
      refine ⟨by rw [paddedDecimal,List.length_append,hlength]; rfl,fun c hc => ?_⟩
      rcases List.mem_append.mp hc with hc | hc
      · exact hds c hc
      · rw [List.mem_singleton.mp hc]
        exact isDigit_decimalDigit n

theorem Instant.places_filled (i : Instant) : i.places.Filled :=
  ⟨digits_padded 4 _,digits_padded 2 _,digits_padded 2 _,digits_padded 2 _,digits_padded 2 _,
    digits_padded 2 _⟩

theorem RealDay.small {year month day : ℕ} (h : RealDay year month day) : month ≤ 12 ∧ day ≤ 31 := by
  refine ⟨h.1.2,h.2.2.trans ?_⟩
  unfold monthLength
  split_ifs <;> decide

theorem Instant.Real.places {i : Instant} (h : i.Real) : i.places.instant i.offset = i := by
  obtain ⟨hday,hyear,hhour,hminute,hsecond⟩ := h
  have hsmall := hday.small
  have htwo : ∀ n : ℕ, n < 100 → decimalValue (paddedDecimal 2 n) = n := fun n hn => value_two hn
  simp only [Instant.places,Places.instant]
  rw [htwo _ (by omega),htwo _ (by omega),htwo _ (by omega),htwo _ (by omega),htwo _ (by omega),
    four_digits,value_four (by omega)]

/-- What is denoted is what is read, and is spelled with care. -/
theorem Denotes.read {value : Bytes} {i : Instant} (h : Denotes value i) :
    readInstant value i.offset = i ∧ WellSpelled value ∧
      (0 ≤ i.unix → Admitted value i.offset) := by
  obtain ⟨rest,rfl,htail⟩ := h.spelled
  obtain ⟨hshape,hdrop,hread⟩ := i.places_filled.reads rest
  have hi : readInstant (i.stamp++rest) i.offset = i := (hread i.offset).trans h.real.places
  have hzero : readInstant (i.stamp++rest) 0 = { i with offset := 0 } := by
    have hsame : readInstant (i.stamp++rest) 0 =
      { readInstant (i.stamp++rest) i.offset with offset := 0 } := rfl
    rw [hsame,hi]
  have hzone : zoneOffset ((i.stamp++rest).drop 19) = some i.offset := by
    refine (congrArg zoneOffset hdrop).trans htail.read
  refine ⟨hi,⟨?_,i.offset,?_⟩,fun hnonneg => ?_⟩
  · rw [hzero]
    exact h.real.1.2.2
  · exact hdrop ▸ htail
  · obtain ⟨hday,hyear,hhour,hminute,hsecond⟩ := h.real
    have hsmall := hday.small
    refine ⟨hshape,?_,?_,?_,?_,?_,hzone,?_⟩
    all_goals rw [hi]
    · exact hday.1
    · exact ⟨hday.2.1,hsmall.2⟩
    · exact hhour
    · exact hminute
    · exact hsecond
    · exact hnonneg

theorem Zone.bounded {zone : Bytes} {offset : ℤ} (h : Zone zone offset) : -86400 < offset := by
  cases h <;> omega

/-- The seconds of four-digit years fit 64 bits. -/
theorem Denotes.small {value : Bytes} {i : Instant} (h : Denotes value i) : i.unix < 2^64 := by
  obtain ⟨rest,-,fraction,zone,-,-,hzone⟩ := h.spelled
  have hoffset := hzone.bounded
  obtain ⟨hday,hyear,hhour,hminute,hsecond⟩ := h.real
  have hsmall := hday.small
  have hmonth := hday.1.1
  have hmonths : daysBeforeMonth i.year i.month ≤ 365 := by
    rcases Nat.lt_or_ge 2 i.month with hlate | hearly
    · have := @daysBeforeMonth_late i.year i.month hlate hsmall.1
      have hlength : yearLength i.year ≤ 366 := by
        unfold yearLength
        split <;> decide
      omega
    · have := @daysBeforeMonth_early i.year i.month hmonth hearly
      omega
  have hyears := daysBeforeYear_eq i.year
  rw [Instant.unix,dayNumber_epoch,dayNumber]
  omega

/-- The rendering of a second in the zone of UTC. -/
theorem rfc3339FromUnix_denotes {seconds : ℤ} (hlow : 0 ≤ seconds)
    (hhigh : seconds ≤ 253402300799) :
    ∃ i, Denotes (rfc3339FromUnix seconds) i ∧ i.offset = 0 ∧ i.unix = seconds := by
  obtain ⟨i,hreal,hoffset,hunix,htime⟩ := civilTime_real hlow hhigh
  refine ⟨i,⟨hreal,[90],?_,[],[90],rfl,.absent,?_⟩,hoffset,hunix⟩
  · obtain ⟨hday,hyear,hhour,hminute,hsecond⟩ := hreal
    have hsmall := hday.small
    have hformat : ∀ width n : ℕ, 0 < width → n < 10^width →
        formatPadded width n = paddedDecimal width n := by
      intro width n hwidth hn
      have hlog : Nat.log 10 n+1 ≤ width := Nat.succ_le_of_lt
        (Nat.log_lt_of_lt_pow' hwidth.ne' hn)
      rw [formatPadded]
      simp only [Int.natAbs_natCast]
      rw [if_neg (by omega),Nat.max_eq_left hlog]
    simp only [rfc3339FromUnix,htime]
    rw [hformat 4 _ (by decide) (by omega),hformat 2 _ (by decide) (by omega),
      hformat 2 _ (by decide) (by omega),hformat 2 _ (by decide) (by omega),
      hformat 2 _ (by decide) (by omega),hformat 2 _ (by decide) (by omega)]
    simp [Instant.stamp]
  · rw [hoffset]
    exact .utc

/-- What the parser returns is the second that the string denotes, exactly for the strings that
are refused or spelled with care; and the rendering of a second is read back. -/
theorem rfc3339_correct (value : Bytes) (seconds : ℤ) :
    ((∀ e, parseRfc3339Epoch value = some e → ∃ i, Denotes value i ∧ i.unix = e.toNat) ↔
      ∀ offset, Admitted value offset → WellSpelled value) ∧
    (0 ≤ seconds → seconds ≤ 253402300799 →
      (∃ i, Denotes (rfc3339FromUnix seconds) i ∧ i.unix = seconds) ∧
      parseRfc3339Epoch (rfc3339FromUnix seconds) = some (UInt64.ofNat seconds.toNat)) := by
  refine ⟨⟨fun h offset hadmitted => ?_,fun h e hparse => ?_⟩,fun hlow hhigh => ?_⟩
  · obtain ⟨i,hdenotes,-⟩ := h _ (parse_iff.mpr ⟨offset,hadmitted,rfl⟩)
    exact hdenotes.read.2.1
  · obtain ⟨offset,hadmitted,rfl⟩ := parse_iff.mp hparse
    have hdenotes := hadmitted.denotes (h offset hadmitted)
    refine ⟨_,hdenotes,?_⟩
    have hsmall := hdenotes.small
    have hnonneg := hadmitted.nonneg
    rw [UInt64.toNat_ofNat',Nat.mod_eq_of_lt (by omega),Int.toNat_of_nonneg hnonneg]
  · obtain ⟨i,hdenotes,-,hunix⟩ := rfc3339FromUnix_denotes hlow hhigh
    obtain ⟨hread,-,hadmitted⟩ := hdenotes.read
    refine ⟨⟨i,hdenotes,hunix⟩,parse_iff.mpr ⟨i.offset,hadmitted (by omega),?_⟩⟩
    rw [hread,hunix]

theorem rfc3339_correct_sample :
    parseRfc3339Epoch (rfc3339FromUnix 1709251199) = some 1709251199 :=
  ((rfc3339_correct [] 1709251199).2 (by decide) (by decide)).2

/-- The thirtieth of February is read as the second of March. -/
theorem impossible_date_read : ¬∀ e,
    parseRfc3339Epoch (utf8 "2023-02-30T00:00:00Z") = some e →
      ∃ i, Denotes (utf8 "2023-02-30T00:00:00Z") i ∧ i.unix = e.toNat := by
  intro h
  have hparse : parseRfc3339Epoch (utf8 "2023-02-30T00:00:00Z") = some 1677715200 := by
    decide +kernel
  obtain ⟨i,hdenotes,-⟩ := h _ hparse
  exact absurd hdenotes.read.2.1.day (by decide +kernel)

end Atperson.Wire
