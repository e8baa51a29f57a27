import Atperson.Wire.Json
import Atperson.Wire.Decimal

/-!
# Timestamps

`gmtime` and the format of a timestamp, for any whole number of seconds, and the reader of
timestamps that observations carry. The civil date of a day count is read off the cycles of
the Gregorian calendar.
-/
namespace Atperson.Wire

structure CivilTime where
  year : ℤ
  month : ℤ
  day : ℤ
  hour : ℤ
  minute : ℤ
  second : ℤ
  deriving DecidableEq

/-- `gmtime_r`: days are counted from 0000-03-01 in eras of 400 years. -/
def civilTime (seconds : ℤ) : CivilTime :=
  let days := seconds/86400+719468
  let era := days/146097
  let doe := days%146097
  let yoe := (doe-doe/1460+doe/36524-doe/146096)/365
  let doy := doe-(365*yoe+yoe/4-yoe/100)
  let mp := (5*doy+2)/153
  let month := if mp < 10 then mp+3 else mp-9
  let rest := seconds%86400
  { year := yoe+era*400+(if month ≤ 2 then 1 else 0)
    month := month
    day := doy-(153*mp+2)/5+1
    hour := rest/3600
    minute := rest%3600/60
    second := rest%60 }

def rfc3339FromUnix (seconds : ℤ) : Bytes :=
  let t := civilTime seconds
  let two := formatPadded 2
  formatPadded 4 t.year++45::(two t.month++45::(two t.day++84::(two t.hour++58::
    (two t.minute++58::(two t.second++[90])))))

theorem rfc3339FromUnix_noNul (seconds : ℤ) : (0 : UInt8) ∉ rfc3339FromUnix seconds := by
  have hsep : (0 : UInt8) ≠ 45 ∧ (0 : UInt8) ≠ 84 ∧ (0 : UInt8) ≠ 58 ∧ (0 : UInt8) ≠ 90 := by
    decide
  simp [rfc3339FromUnix,formatPadded_noNul,hsep]

theorem rfc3339FromUnix_ne_nil (seconds : ℤ) : rfc3339FromUnix seconds ≠ [] := by
  simp [rfc3339FromUnix]

example : rfc3339FromUnix 1709251199 = utf8 "2024-02-29T23:59:59Z" := by decide +kernel

/-! ## The reader -/

def isDigit (c : UInt8) : Bool := 48 ≤ c && c ≤ 57

/-- `std::stol`: blanks, a sign and digits, with whatever follows them ignored. -/
def stol (s : Bytes) : Option ℤ :=
  let rest := s.dropWhile fun c => c = 32 || (9 ≤ c && c ≤ 13)
  let negative := rest.head? = some 45
  let digits := (if negative ∨ rest.head? = some 43 then rest.tail else rest).takeWhile isDigit
  if digits = [] then none
  else some (if negative then -(decimalValue digits : ℤ) else decimalValue digits)

/-- The separators of `YYYY-MM-DDTHH:MM:SS` stand at fixed places between digits. -/
def timestampShape (head : Bytes) : Bool :=
  head.length = 19 && head.zipIdx.all fun p =>
    if p.2 = 4 || p.2 = 7 then p.1 = 45
    else if p.2 = 13 || p.2 = 16 then p.1 = 58
    else if p.2 = 10 then p.1 = 84
    else isDigit p.1

/-- What follows the seconds: an optional fraction and zone, with the offset of the zone. -/
def zoneOffset (rest : Bytes) : Option ℤ :=
  let rest := match rest with
    | 46::fraction => fraction.dropWhile isDigit
    | _ => rest
  match rest with
  | [] => some 0
  | zone::after =>
      if zone = 90 ∨ zone = 122 then (if after = [] then some 0 else none)
      else if zone = 43 ∨ zone = 45 then
        if after.length < 5 ∨ after[2]? ≠ some 58 then none
        else match stol (after.take 2),stol ((after.drop 3).take 2) with
          | some hours,some minutes =>
              if 23 < hours ∨ 59 < minutes ∨ after.length ≠ 5 then none
              else
                let offset := hours*3600+minutes*60
                some (if zone = 45 then -offset else offset)
          | _,_ => none
      else none

/-- Days from 1970-01-01 to a civil date. -/
def epochDays (year month day : ℤ) : ℤ :=
  let year := if 2 < month then year else year-1
  let era := year/400
  let yoe := year-era*400
  let doy := (153*(if 2 < month then month-3 else month+9)+2)/5+day-1
  era*146097+(yoe*365+yoe/4-yoe/100+doy)-719468

/-- `parse_rfc3339_epoch`. -/
def parseRfc3339Epoch (value : Bytes) : Option UInt64 :=
  if ¬timestampShape (value.take 19) then none
  else
    let field (start width : ℕ) : ℤ := decimalValue ((value.drop start).take width)
    let month := field 5 2
    let day := field 8 2
    let hour := field 11 2
    let minute := field 14 2
    let second := field 17 2
    if month < 1 ∨ 12 < month ∨ day < 1 ∨ 31 < day ∨ 23 < hour ∨ 59 < minute ∨ 60 < second then none
    else match zoneOffset (value.drop 19) with
      | none => none
      | some offset =>
          let epoch := epochDays (field 0 4) month day*86400+hour*3600+minute*60+second-offset
          if epoch < 0 then none else some (UInt64.ofNat epoch.toNat)

example : parseRfc3339Epoch (utf8 "2024-02-29T23:59:59.5+01:00") = some 1709247599 := by
  decide +kernel

end Atperson.Wire
