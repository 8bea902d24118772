/-! Dates of the proleptic Gregorian calendar and times of day. -/

namespace ItemQuery

/-- A calendar date; year zero precedes year one. -/
structure Date where
  year : Int
  month : Nat
  day : Nat
deriving DecidableEq, Repr, Inhabited

/-- A date with a time of day. A leap second is the last second of a minute with a fraction of one second
    or more. -/
structure DateTime where
  date : Date
  /-- Seconds since midnight. -/
  second : Nat := 0
  /-- Fraction in billionths of a second. -/
  nano : Nat := 0
deriving DecidableEq, Repr, Inhabited

namespace Date

/-- Every fourth year, of the full centuries only every fourth. -/
def isLeapYear (year : Int) : Bool :=
  year % 4 == 0 && (year % 100 != 0 || year % 400 == 0)

/-- The length of a month; zero for a number that names none. -/
def daysIn (year : Int) : Nat → Nat
  | 1 | 3 | 5 | 7 | 8 | 10 | 12 => 31
  | 4 | 6 | 9 | 11 => 30
  | 2 => if isLeapYear year then 29 else 28
  | _ => 0

/-- Whether a year is one of those that dates can have. -/
def isSupported (year : Int) : Bool :=
  -262143 ≤ year && year ≤ 262142

/-- The date with these numbers, if the calendar has it and its year is supported. -/
def ofNumbers? (year : Int) (month day : Nat) : Option Date :=
  if isSupported year ∧ 1 ≤ day ∧ day ≤ daysIn year month then some ⟨year, month, day⟩ else none

/-- Days from 1 March of year zero; the year is counted from March, so that a leap day ends it. -/
def toDayNumber (d : Date) : Int :=
  let y := if d.month ≤ 2 then d.year - 1 else d.year
  let m := (d.month + 9) % 12
  365 * y + y / 4 - y / 100 + y / 400 + (153 * m + 2) / 5 + ((d.day : Int) - 1)

/-- The date with this day number. -/
def ofDayNumber (n : Int) : Date :=
  let era := n / 146097
  let dayOfEra := (n % 146097).toNat
  let yearOfEra := (dayOfEra - dayOfEra / 1460 + dayOfEra / 36524 - dayOfEra / 146096) / 365
  let dayOfYear := dayOfEra - (365 * yearOfEra + yearOfEra / 4 - yearOfEra / 100)
  let m := (5 * dayOfYear + 2) / 153
  let month := if m < 10 then m + 3 else m - 9
  let year := (yearOfEra : Int) + era * 400
  ⟨if month ≤ 2 then year + 1 else year, month, dayOfYear - (153 * m + 2) / 5 + 1⟩

/-- Calendar order. -/
def compare (a b : Date) : Ordering :=
  (Ord.compare a.year b.year).then ((Ord.compare a.month b.month).then (Ord.compare a.day b.day))

end Date

namespace DateTime

/-- Order in time; a fraction of a leap second comes after every other fraction of its second. -/
def compare (a b : DateTime) : Ordering :=
  (Date.compare a.date b.date).then ((Ord.compare a.second b.second).then (Ord.compare a.nano b.nano))

/-- The start of a day. -/
def isMidnight (t : DateTime) : Bool :=
  t.second == 0

/-- The last second of the same day. -/
def endOfDay (t : DateTime) : DateTime :=
  ⟨t.date, 86399, 0⟩

/-- The time that many seconds earlier; the same time if that one has no supported year. -/
def minusSeconds (t : DateTime) (seconds : Int) : DateTime :=
  let total := t.date.toDayNumber * 86400 + t.second - seconds
  let date := Date.ofDayNumber (total / 86400)
  if Date.isSupported date.year then ⟨date, (total % 86400).toNat, t.nano⟩ else t

/-- Whether `first` and `last` are the first and the last second of one day. -/
def isWholeDay (first last : DateTime) : Bool :=
  first.isMidnight && first.date == last.date && last == last.endOfDay

end DateTime
end ItemQuery
