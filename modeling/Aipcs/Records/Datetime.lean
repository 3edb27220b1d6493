import Aipcs.Portable.Times

/-!
# Records — the datetimes a field takes

`datetime.fromisoformat` reads the ISO 8601 forms but those of reduced
precision and of the day of the year: a calendar or a week date, any one
character, a time of day with or without colons, and an offset. A record
keeps the text; what is asked is that it is read, with an offset of zero.
-/

namespace Aipcs

namespace Records

open Portable

/-! ## Dates -/

/-- The day of a calendar date. -/
def calendarDay (year month day : ℕ) : Option ℕ :=
  if 1 ≤ year ∧ 1 ≤ month ∧ month ≤ 12 ∧ 1 ≤ day ∧ day ≤ daysInMonth year month then
    some (ordinal year month day)
  else none

/-- A year has a 53rd week when it begins on a Thursday, or on a
Wednesday and is a leap year. -/
def hasWeek53 (year : ℕ) : Bool :=
  let first := daysBeforeYear year % 7
  first = 3 || (first = 2 && daysInYear year = 366)

/-- `_isoweek1monday`. -/
def isoWeek1Monday (year : ℕ) : ℕ :=
  let first := daysBeforeYear year
  if first % 7 ≤ 3 then first - first % 7 else first + 7 - first % 7

/-- The day of a week date. -/
def weekDay (year week day : ℕ) : Option ℕ :=
  if 1 ≤ year ∧ 1 ≤ week ∧ (week ≤ 52 ∨ week = 53 ∧ hasWeek53 year) ∧ 1 ≤ day ∧ day ≤ 7 then
    some (isoWeek1Monday year + (week - 1) * 7 + (day - 1))
  else none

/-- `_parse_isoformat_date`: the day the date is of. -/
def parseIsoformatDate (s : List Char) : Option ℕ :=
  let year := numberAt s 0 4
  if matchesPattern s "dddd-dd-dd".toList then calendarDay year (numberAt s 5 2) (numberAt s 8 2)
  else if matchesPattern s "dddddddd".toList then calendarDay year (numberAt s 4 2) (numberAt s 6 2)
  else if matchesPattern s "dddd-Wdd".toList then weekDay year (numberAt s 6 2) 1
  else if matchesPattern s "ddddWdd".toList then weekDay year (numberAt s 5 2) 1
  else if matchesPattern s "dddd-Wdd-d".toList then weekDay year (numberAt s 6 2) (numberAt s 9 1)
  else if matchesPattern s "ddddWddd".toList then weekDay year (numberAt s 5 2) (numberAt s 7 1)
  else none

/-- `_find_isoformat_datetime_separator`: where the date ends. A week
date's day is told from the hour by what follows. -/
def findSeparator (s : List Char) : ℕ :=
  if s.length = 7 then 7
  else if s[4]? = some '-' then
    if s[5]? = some 'W' then
      if s[8]? = some '-' then if s[10]?.any isDigit then 8 else 10 else 8
    else 10
  else if s[4]? = some 'W' then
    let digits := ((s.drop 7).takeWhile isDigit).length
    if digits < 2 then 7 + digits else if digits % 2 = 1 then 7 else 8
  else 8

/-! ## Times -/

/-- Two digits, and what follows them. -/
def twoDigits : List Char → Option (ℕ × List Char)
  | a :: b :: rest => if isDigit a && isDigit b then some (digitsValue [a, b], rest) else none
  | _ => none

/-- A colon passed, where the time is written with colons. -/
def skipColon (extended : Bool) (s : List Char) : Option (List Char) :=
  if extended then
    match s with
    | ':' :: rest => some rest
    | _ => none
  else some s

/-- The microseconds of a fraction; digits past the sixth are dropped. -/
def fraction (s : List Char) : Option ℕ :=
  if s ≠ [] ∧ s.all isDigit then some (digitsValue (s.take 6 ++ List.replicate (6 - s.length) '0')) else none

/-- `_parse_hh_mm_ss_ff`, in microseconds. -/
def parseHhMmSsFf (s : List Char) : Option (ℕ × ℕ × ℕ × ℕ) := do
  let (hour, s) ← twoDigits s
  if s = [] then return (hour, 0, 0, 0)
  let extended : Bool := s.head? = some ':'
  let (minute, s) ← twoDigits (← skipColon extended s)
  if s = [] then return (hour, minute, 0, 0)
  let (second, s) ← twoDigits (← skipColon extended s)
  match s with
  | [] => return (hour, minute, second, 0)
  | c :: digits => if c = '.' ∨ c = ',' then return (hour, minute, second, ← fraction digits) else none

/-- `datetime.fromisoformat`, of a text whose offset is zero. -/
def utcFromIsoformat (s : List Char) : Option Instant := do
  let separator := findSeparator s
  let day ← parseIsoformatDate (s.take separator)
  let rest := s.drop (separator + 1)
  let (hour, minute, second, micro) ← parseHhMmSsFf (rest.takeWhile fun c => c ≠ '+' && c ≠ '-')
  let offset ← parseHhMmSsFf ((rest.dropWhile fun c => c ≠ '+' && c ≠ '-').drop 1)
  if offset.1 * 3600 + offset.2.1 * 60 + offset.2.2.1 = 0 ∧ hour ≤ 23 ∧ minute ≤ 59 ∧ second ≤ 59 then
    let micros := day * 86400000000 + ((hour * 60 + minute) * 60 + second) * 1000000 + micro
    if h : micros < 315537897600000000 then some ⟨micros, h⟩ else none
  else none

/-- `value.replace("Z", "+00:00")`. -/
def replaceZulu (s : List Char) : List Char := s.flatMap fun c => if c = 'Z' then "+00:00".toList else [c]

/-- What a datetime field's text denotes. -/
def parseDatetime (s : String) : Option Instant := utcFromIsoformat (replaceZulu s.toList)

/-- `_canonical_datetime`. -/
def canonicalDatetime (s : String) : Bool := (parseDatetime s).isSome

/-- `_canonical_uuid`. -/
def canonicalUuid (s : String) : Bool := (Uuid.ofText s).isSome

example : (parseDatetime "2024-02-29T23:59:59.5Z").map Instant.text = some "2024-02-29T23:59:59.500000Z" := by
  decide +kernel

example : parseDatetime "2024-02-29T12:00:00+01:00" = none := by decide +kernel

end Records

end Aipcs
