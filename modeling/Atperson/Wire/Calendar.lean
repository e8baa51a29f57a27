import Mathlib

/-!
# The Gregorian calendar

Days are counted from the first day of the year 0, the years and the months before a date by
their lengths. The counts have a closed form, and the eras of 400 years give the date back.
-/
namespace Atperson.Wire

def leapYear (year : ℕ) : Bool := year%4 = 0 && (year%100 ≠ 0 || year%400 = 0)

def yearLength (year : ℕ) : ℕ := if leapYear year then 366 else 365

def monthLength (year month : ℕ) : ℕ :=
  if month = 2 then if leapYear year then 29 else 28
  else if month = 4 ∨ month = 6 ∨ month = 9 ∨ month = 11 then 30
  else 31

/-- A day that exists. -/
def RealDay (year month day : ℕ) : Prop :=
  (1 ≤ month ∧ month ≤ 12) ∧ 1 ≤ day ∧ day ≤ monthLength year month

instance (year month day : ℕ) : Decidable (RealDay year month day) :=
  inferInstanceAs (Decidable (_ ∧ _))

def daysBeforeYear (year : ℕ) : ℕ := ((List.range year).map yearLength).sum

def daysBeforeMonth (year month : ℕ) : ℕ := ((List.range' 1 (month-1)).map (monthLength year)).sum

/-- The days from the first of the year 0 to a date, proleptic. -/
def dayNumber (year month day : ℕ) : ℤ :=
  daysBeforeYear year+daysBeforeMonth year month+day-1

theorem yearLength_eq (year : ℕ) : (yearLength year : ℤ) =
    365+(if year%4 = 0 then 1 else 0)-(if year%100 = 0 then 1 else 0)+
      (if year%400 = 0 then 1 else 0) := by
  simp only [yearLength,leapYear,Bool.and_eq_true,Bool.or_eq_true,decide_eq_true_eq]
  split_ifs <;> omega

/-- The leap days and the exceptions before the next year. -/
theorem rounded_up_succ (year : ℕ) :
    ((year : ℤ)+1+3)/4 = (year+3)/4+(if year%4 = 0 then 1 else 0) ∧
    ((year : ℤ)+1+99)/100 = (year+99)/100+(if year%100 = 0 then 1 else 0) ∧
    ((year : ℤ)+1+399)/400 = (year+399)/400+(if year%400 = 0 then 1 else 0) := by
  refine ⟨?_,?_,?_⟩ <;> split_ifs <;> omega

theorem daysBeforeYear_eq (year : ℕ) :
    (daysBeforeYear year : ℤ) = 365*year+(year+3)/4-(year+99)/100+(year+399)/400 := by
  induction year with
  | zero => rfl
  | succ year ih =>
      have hstep : (daysBeforeYear (year+1) : ℤ) = daysBeforeYear year+yearLength year := by
        rw [daysBeforeYear,List.range_succ,List.map_append,List.sum_append]
        simp [daysBeforeYear]
      obtain ⟨h4,h100,h400⟩ := rounded_up_succ year
      rw [hstep,ih,yearLength_eq]
      push_cast
      rw [h4,h100,h400]
      ring

/-- The start of an hour-free clock: 1970-01-01. -/
theorem dayNumber_epoch : dayNumber 1970 1 1 = 719528 := by
  have hyears := daysBeforeYear_eq 1970
  have hmonths : daysBeforeMonth 1970 1 = 0 := rfl
  rw [dayNumber,hyears,hmonths]
  norm_num

theorem daysBeforeMonth_early {year month : ℕ} (hlow : 1 ≤ month) (hhigh : month ≤ 2) :
    daysBeforeMonth year month = 31*(month-1) := by
  interval_cases month <;> simp [daysBeforeMonth,List.range',monthLength]

/-- The months from March on; the leap day is in the length of the year. -/
theorem daysBeforeMonth_late {year month : ℕ} (hlow : 3 ≤ month) (hhigh : month ≤ 12) :
    daysBeforeMonth year month+365 = (153*(month-3)+2)/5+59+yearLength year := by
  interval_cases month <;> cases hleap : leapYear year <;>
    simp [daysBeforeMonth,List.range',monthLength,yearLength,hleap]

/-- A day of an era by its century, its four years, its year and its day in the year. -/
theorem era_split {doe : ℤ} (hlow : 0 ≤ doe) (hhigh : doe ≤ 146096) :
    ∃ c q s r : ℤ, (0 ≤ c ∧ c ≤ 3) ∧ (0 ≤ q ∧ q ≤ 24) ∧ (0 ≤ s ∧ s ≤ 3) ∧ 0 ≤ r ∧
      doe = 36524*c+1461*q+365*s+r ∧ (r ≤ 364 ∨ r = 365 ∧ s = 3 ∧ (q ≠ 24 ∨ c = 3)) := by
  obtain ⟨c,hc⟩ : ∃ c, c = min (doe/36524) 3 := ⟨_,rfl⟩
  obtain ⟨q,hq⟩ : ∃ q, q = (doe-36524*c)/1461 := ⟨_,rfl⟩
  obtain ⟨s,hs⟩ : ∃ s, s = min ((doe-36524*c-1461*q)/365) 3 := ⟨_,rfl⟩
  refine ⟨c,q,s,doe-36524*c-1461*q-365*s,by omega,by omega,by omega,by omega,by omega,by omega⟩

theorem year_of_era {doe c q s r : ℤ} (hc : 0 ≤ c ∧ c ≤ 3) (hq : 0 ≤ q ∧ q ≤ 24)
    (hs : 0 ≤ s ∧ s ≤ 3) (hr : 0 ≤ r) (h : doe = 36524*c+1461*q+365*s+r)
    (hday : r ≤ 364 ∨ r = 365 ∧ s = 3 ∧ (q ≠ 24 ∨ c = 3)) :
    (doe-doe/1460+doe/36524-doe/146096)/365 = 100*c+4*q+s := by
  have hcenturies : doe/36524-doe/146096 = c := by
    by_cases hlast : doe = 146096
    · subst hlast
      norm_num
      omega
    · have hera : doe/146096 = 0 := by omega
      have hcentury : doe/36524 = c := by omega
      rw [hera,hcentury,sub_zero]
  obtain ⟨e,he,hday'⟩ : ∃ e, doe/1460 = 25*c+q+e ∧ (e = 0 ∧ r ≤ 364 ∨ e = 1 ∧ 1 ≤ r) := by
    by_cases hover : 1460 ≤ 24*c+q+365*s+r
    · exact ⟨1,by omega,by omega⟩
    · exact ⟨0,by omega,by omega⟩
  have hsum : doe-doe/1460+doe/36524-doe/146096 = 365*(100*c+4*q+s)+(r-e) := by
    rw [add_sub_assoc,hcenturies,he,h]
    ring
  rw [hsum]
  omega

/-- The month and the day of a day counted from the first of March. -/
theorem month_of_day {r : ℤ} (hlow : 0 ≤ r) (hhigh : r ≤ 365) :
    0 ≤ (5*r+2)/153 ∧ (5*r+2)/153 ≤ 11 ∧ 1 ≤ r-(153*((5*r+2)/153)+2)/5+1 ∧
      r-(153*((5*r+2)/153)+2)/5+1 ≤ 31 := by
  omega

end Atperson.Wire
