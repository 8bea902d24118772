import ItemQuery.Calendar.Date
import ItemQuery.Number.Integer
import ItemQuery.Text.Blank

/-! Date-times as text. A layout is a list of fields; one reader and one writer serve all layouts. -/

namespace ItemQuery
namespace DateTime

/-! ### Writing -/

/-- Decimal digits, with zeros in front up to the width. -/
def padded (width : Nat) (n : Nat) : String :=
  let digits := toString n
  String.ofList (List.replicate (width - digits.length) '0') ++ digits

/-- Four digits, or a sign and at least four digits for a year outside of them. -/
def yearText (year : Int) : String :=
  if 0 ≤ year ∧ year ≤ 9999 then padded 4 year.toNat
  else if year < 0 then "-" ++ padded 4 (-year).toNat
  else "+" ++ padded 4 year.toNat

/-- `2024-01-05` -/
def dateText (t : DateTime) : String :=
  yearText t.date.year ++ "-" ++ padded 2 t.date.month ++ "-" ++ padded 2 t.date.day

/-- `10:00:00`; a leap second has the number 60. -/
def timeText (t : DateTime) : String :=
  padded 2 (t.second / 3600) ++ ":" ++ padded 2 (t.second / 60 % 60) ++ ":"
    ++ padded 2 (t.second % 60 + t.nano / 1000000000)

/-- `2024-01-05T10:00:00`, without the fraction of a second. -/
def isoText (t : DateTime) : String :=
  t.dateText ++ "T" ++ t.timeText

/-- `2024-01-05 10:00:00`, without the fraction of a second. -/
def spacedText (t : DateTime) : String :=
  t.dateText ++ " " ++ t.timeText

/-- A point and three, six or nine digits, the fewest that are exact; nothing for a whole second. -/
def fractionText (t : DateTime) : String :=
  let f := t.nano % 1000000000
  if f = 0 then ""
  else if f % 1000000 = 0 then "." ++ padded 3 (f / 1000000)
  else if f % 1000 = 0 then "." ++ padded 6 (f / 1000)
  else "." ++ padded 9 f

/-- `2024-01-05T10:00:00.125` -/
def exactText (t : DateTime) : String :=
  t.isoText ++ t.fractionText

/-! ### Reading -/

/-- A part of a date-time layout. -/
inductive Field where
  | year
  | month
  | day
  | hour
  | minute
  | second
  /-- An optional point and digits; those after the ninth are ignored. -/
  | fraction
  /-- White space, possibly none. -/
  | space
  | mark (c : Char)
deriving DecidableEq, Repr

/-- The numbers read so far. -/
structure Numbers where
  year : Int := 0
  month : Nat := 1
  day : Nat := 1
  hour : Nat := 0
  minute : Nat := 0
  second : Nat := 0
  nano : Nat := 0
deriving Repr

/-- At least one and at most `width` digits. -/
def number? (width : Nat) (cs : List Char) : Option (Nat × List Char) :=
  let digits := (cs.take width).takeWhile Char.isDigit
  (Number.digits? digits).map fun n => (n, cs.drop digits.length)

/-- A number of at most `width` digits in a range, after white space. -/
def numberIn? (width low high : Nat) (cs : List Char) : Option (Nat × List Char) :=
  (number? width (cs.dropWhile Text.isBlank)).filter fun r => low ≤ r.1 && r.1 ≤ high

/-- Four digits at most, or any number of them after a sign. -/
def year? (cs : List Char) : Option (Int × List Char) :=
  match cs.dropWhile Text.isBlank with
  | '-' :: rest => (number? rest.length rest).map fun r => (-(r.1 : Int), r.2)
  | '+' :: rest => (number? rest.length rest).map fun r => ((r.1 : Int), r.2)
  | rest => (number? 4 rest).map fun r => ((r.1 : Int), r.2)

/-- The billionths of a second given by the digits after the point. -/
def fraction? (cs : List Char) : Option (Nat × List Char) :=
  (number? 9 cs).map fun r =>
    (r.1 * Nat.pow 10 (9 - (cs.length - r.2.length)), r.2.dropWhile Char.isDigit)

/-- Reads one field. -/
def Field.read? (field : Field) (n : Numbers) (cs : List Char) : Option (Numbers × List Char) :=
  match field with
  | .year => (year? cs).map fun r => ({ n with year := r.1 }, r.2)
  | .month => (numberIn? 2 1 12 cs).map fun r => ({ n with month := r.1 }, r.2)
  | .day => (numberIn? 2 1 31 cs).map fun r => ({ n with day := r.1 }, r.2)
  | .hour => (numberIn? 2 0 23 cs).map fun r => ({ n with hour := r.1 }, r.2)
  | .minute => (numberIn? 2 0 59 cs).map fun r => ({ n with minute := r.1 }, r.2)
  | .second => (numberIn? 2 0 60 cs).map fun r => ({ n with second := r.1 }, r.2)
  | .fraction =>
    match cs with
    | '.' :: rest => (fraction? rest).map fun r => ({ n with nano := r.1 }, r.2)
    | _ => some (n, cs)
  | .space => some (n, cs.dropWhile Text.isBlank)
  | .mark c =>
    match cs with
    | d :: rest => if c = d then some (n, rest) else none
    | [] => none

/-- Reads all fields; nothing may follow them. -/
def readFields? : List Field → Numbers → List Char → Option Numbers
  | [], n, [] => some n
  | [], _, _ :: _ => none
  | field :: fields, n, cs => (field.read? n cs).bind fun r => readFields? fields r.1 r.2

/-- The date-time with these numbers; second 60 is a leap second. -/
def ofNumbers? (n : Numbers) : Option DateTime :=
  (Date.ofNumbers? n.year n.month n.day).map fun date =>
    if n.second = 60 then ⟨date, n.hour * 3600 + n.minute * 60 + 59, 1000000000 + n.nano⟩
    else ⟨date, n.hour * 3600 + n.minute * 60 + n.second, n.nano⟩

/-- Reads a text in one layout. -/
def readAs? (layout : List Field) (cs : List Char) : Option DateTime :=
  (readFields? layout {} cs).bind ofNumbers?

/-- Year, month and day with dashes. -/
def dashedDate : List Field :=
  [.year, .mark '-', .month, .mark '-', .day]

/-- The layouts of a date with a time. -/
def timedLayouts : List (List Field) :=
  [dashedDate ++ ([.mark 'T', .hour, .mark ':', .minute, .mark ':', .second, .fraction] : List Field),
   dashedDate ++ ([.mark 'T', .hour, .mark ':', .minute, .mark ':', .second] : List Field),
   dashedDate ++ ([.mark 'T', .hour, .mark ':', .minute] : List Field),
   dashedDate ++ ([.space, .hour, .mark ':', .minute, .mark ':', .second] : List Field),
   dashedDate ++ ([.space, .hour, .mark ':', .minute] : List Field)]

/-- The layouts of a date alone. -/
def dateLayouts : List (List Field) :=
  [dashedDate, [.month, .mark '/', .day, .mark '/', .year]]

/-- The date or date-time written by a criterion value; a date alone is its first second. -/
def read? (s : String) : Option DateTime :=
  let cs := Text.trimWhile Text.isBlank s.toList
  (timedLayouts ++ dateLayouts).findSome? fun layout => readAs? layout cs

/-- Whether the text is a date without a time. -/
def isDateOnly (s : String) : Bool :=
  let cs := Text.trimWhile Text.isBlank s.toList
  dateLayouts.any fun layout => (readAs? layout cs).isSome

/-- Reads `2024-01-05T10:00:00` with an optional fraction. -/
def readExact? (s : String) : Option DateTime :=
  readAs? (dashedDate ++ ([.mark 'T', .hour, .mark ':', .minute, .mark ':', .second, .fraction] : List Field)) s.toList

end DateTime
end ItemQuery
