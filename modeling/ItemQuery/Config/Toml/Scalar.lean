import ItemQuery.Calendar.Date
import ItemQuery.Config.Document
import ItemQuery.Config.Toml.Text
import ItemQuery.Number.Decimal

/-! Numbers, dates and truth values of TOML. Floating point numbers and dates are checked and not kept. -/

namespace ItemQuery.Config.Toml

/-! ### Dates and times -/

/-- The number written by exactly `width` digits. -/
def fixed? (width : Nat) (cs : List Char) : Option (Nat × List Char) :=
  (Number.digits? (cs.take width)).bind fun n =>
    if (cs.take width).length = width then some (n, cs.drop width) else none

/-- A number of two digits that is at most `most`. -/
def twoDigits? (most : Nat) (cs : List Char) : Option (List Char) :=
  (fixed? 2 cs).bind fun found => if found.1 ≤ most then some found.2 else none

/-- What follows a character. -/
def after? (mark : Char) : List Char → Option (List Char)
  | [] => none
  | c :: cs => if c = mark then some cs else none

/-- What follows a date of the calendar. -/
def afterDate? (cs : List Char) : Option (List Char) := do
  let (year, cs) ← fixed? 4 cs
  let (month, cs) ← fixed? 2 (← after? '-' cs)
  let (day, cs) ← fixed? 2 (← after? '-' cs)
  let _ ← Date.ofNumbers? year month day
  return cs

/-- What follows a time of day; a minute may have a leap second. -/
def afterTime? (cs : List Char) : Option (List Char) := do
  let cs ← after? ':' (← twoDigits? 23 cs)
  let cs ← after? ':' (← twoDigits? 59 cs)
  let cs ← twoDigits? 60 cs
  match cs with
  | '.' :: c :: rest => return if c.isDigit then rest.dropWhile Char.isDigit else cs
  | _ => return cs

/-- What follows the offset of a time zone, if there is one. -/
def skipZone (cs : List Char) : List Char :=
  let offset? (cs : List Char) : Option (List Char) := do
    twoDigits? 59 (← after? ':' (← twoDigits? 23 cs))
  match cs with
  | 'Z' :: rest => rest
  | 'z' :: rest => rest
  | '+' :: rest => (offset? rest).getD cs
  | '-' :: rest => (offset? rest).getD cs
  | _ => cs

/-- What follows the time of day behind a date, if there is one. -/
def skipTime (cs : List Char) : List Char :=
  match cs with
  | c :: rest =>
    if c = 'T' ∨ c = 't' ∨ c = ' ' then ((afterTime? rest).map skipZone).getD cs else cs
  | [] => []

/-- What follows a date, a time of day, or both. -/
def afterDateTime? (cs : List Char) : Option (List Char) :=
  match afterDate? cs with
  | some rest => some (skipTime rest)
  | none => afterTime? cs

/-! ### Numbers -/

/-- The digits at the start, with single underscores between them left out. -/
def grouped (isDigit : Char → Bool) : List Char → List Char × List Char
  | [] => ([], [])
  | '_' :: c :: cs =>
    if isDigit c then
      let halves := grouped isDigit cs
      (c :: halves.1, halves.2)
    else ([], '_' :: c :: cs)
  | c :: cs =>
    if isDigit c then
      let halves := grouped isDigit cs
      (c :: halves.1, halves.2)
    else ([], c :: cs)

/-- At least one digit, and perhaps more. -/
def digitRun? (isDigit : Char → Bool) (cs : List Char) : Option (List Char × List Char) :=
  match cs with
  | c :: _ => if isDigit c then some (grouped isDigit cs) else none
  | [] => none

/-- The sign of a number. -/
def sign : List Char → List Char × List Char
  | '+' :: cs => (['+'], cs)
  | '-' :: cs => (['-'], cs)
  | cs => ([], cs)

/-- The digits of a whole number; a zero in front stands alone. -/
def wholeDigits? : List Char → Option (List Char × List Char)
  | '0' :: cs => some (['0'], cs)
  | cs => digitRun? Char.isDigit cs

/-- The point and digits of a fraction. -/
def fraction? : List Char → Option (List Char × List Char)
  | '.' :: cs => (digitRun? Char.isDigit cs).map fun halves => ('.' :: halves.1, halves.2)
  | _ => none

/-- The letter, sign and digits of an exponent. -/
def power? : List Char → Option (List Char × List Char)
  | [] => none
  | c :: cs =>
    if c = 'e' ∨ c = 'E' then
      let (mark, cs) := sign cs
      (digitRun? Char.isDigit cs).map fun halves => (c :: (mark ++ halves.1), halves.2)
    else none

/-- What follows a number with a fraction or an exponent that is not too large, or a special value. -/
def afterFloat? (cs : List Char) : Option (List Char) :=
  let (mark, unsigned) := sign cs
  match unsigned with
  | 'i' :: 'n' :: 'f' :: rest => some rest
  | 'n' :: 'a' :: 'n' :: rest => some rest
  | _ => do
    let (whole, rest) ← wholeDigits? unsigned
    let (digits, rest) ← match power? rest with
      | some found => some found
      | none => do
        let (fraction, rest) ← fraction? rest
        let (exponent, rest) := (power? rest).getD ([], rest)
        some (fraction ++ exponent, rest)
    let value ← Number.readFloat? (String.ofList (mark ++ whole ++ digits))
    if value == 1.0 / 0.0 then none else some rest

/-- The base that a number announces. -/
def base? : List Char → Option (Nat × List Char)
  | '0' :: 'x' :: cs => some (16, cs)
  | '0' :: 'o' :: cs => some (8, cs)
  | '0' :: 'b' :: cs => some (2, cs)
  | _ => none

/-- A whole number of 64 bits. -/
def integer? (cs : List Char) : Option (Int × List Char) :=
  match base? cs with
  | some (base, cs) => do
    let isDigit (c : Char) : Bool := (Number.digitsIn? base [c]).isSome
    let (digits, rest) ← digitRun? isDigit cs
    let n ← Number.int64? (← Number.digitsIn? base digits)
    return (n.toInt, rest)
  | none => do
    let (mark, unsigned) := sign cs
    let (digits, rest) ← wholeDigits? unsigned
    let n ← Number.int64? (← Number.integer? (mark ++ digits))
    return (n.toInt, rest)

/-! ### Values without parts -/

/-- A text, a truth value, a date or a number, and what follows it. -/
def simple? (cs : List Char) : Option (Document × List Char) :=
  match cs with
  | 't' :: 'r' :: 'u' :: 'e' :: rest => some (.bool true, rest)
  | 'f' :: 'a' :: 'l' :: 's' :: 'e' :: rest => some (.bool false, rest)
  | _ =>
    match text? cs with
    | some (value, rest) => some (.text value, rest)
    | none =>
      match (afterDateTime? cs).orElse fun _ => afterFloat? cs with
      | some rest => some (.scalar, rest)
      | none => (integer? cs).map fun found => (.integer found.1, found.2)

end ItemQuery.Config.Toml
