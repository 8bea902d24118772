import ItemQuery.Number.Integer
import ItemQuery.Number.Shortest

/-! Floating point numbers as text: reading decimals, two layouts of the shortest digits, and the
    remainder of a division. -/

namespace ItemQuery.Number

/-! ### Writing -/

/-- How the shortest digits of a number are laid out. -/
structure Layout where
  /-- Numbers of which the point stands this many places right of the first digit, or fewer, and more than
      `leastPlaces` places, are written without an exponent. -/
  mostPlaces : Option Int
  leastPlaces : Option Int
  /-- A whole number ends in `.0`. -/
  keepsPoint : Bool
deriving DecidableEq, Repr

/-- Literals: an exponent from 10^16 on and below 10^-4, and always a point or an exponent. -/
def Layout.literal : Layout := ⟨some 16, some (-4), true⟩

/-- Search text: never an exponent, and no point after a whole number. -/
def Layout.plain : Layout := ⟨none, none, false⟩

/-- `n` zeros. -/
def zeros (n : Nat) : List Char :=
  List.replicate n '0'

/-- The digits with the point `point` places after the first digit's left edge. -/
def positional (layout : Layout) (digits : List Char) (point : Int) : List Char :=
  let ending := if layout.keepsPoint then ['.', '0'] else []
  if point ≤ 0 then '0' :: '.' :: (zeros (-point).toNat ++ digits)
  else if (digits.length : Int) ≤ point then digits ++ zeros (point - digits.length).toNat ++ ending
  else digits.take point.toNat ++ '.' :: digits.drop point.toNat

/-- The digits as one leading digit, a fraction and a power of ten. -/
def scientific (digits : List Char) (point : Int) : List Char :=
  let exponent := 'e' :: (toString (point - 1)).toList
  match digits with
  | [] => exponent
  | [d] => d :: exponent
  | d :: rest => d :: '.' :: (rest ++ exponent)

/-- The text of a number. -/
def decimalText (layout : Layout) (x : Float) : String :=
  let (negative, exponent, fraction) := fields x
  if exponent = 2047 then
    if fraction ≠ 0 then "NaN" else if negative then "-inf" else "inf"
  else
    let body :=
      if exponent = 0 ∧ fraction = 0 then '0' :: (if layout.keepsPoint then ['.', '0'] else [])
      else
        let (digits, place) := (magnitude x).shortest
        let shown := Nat.toDigits 10 digits
        let point := (shown.length : Int) + place
        if layout.mostPlaces.any (· < point) || layout.leastPlaces.any (point ≤ ·) then scientific shown point
        else positional layout shown point
    String.ofList (if negative then '-' :: body else body)

/-- The text of a number as a literal. -/
def floatText (x : Float) : String :=
  decimalText .literal x

/-- The text of a number in a search box. -/
def plainFloatText (x : Float) : String :=
  decimalText .plain x

/-! ### Reading -/

/-- The number `digits · 10^place`; beyond the range of numbers the exponent is not computed. -/
def ofDecimal (digits : Nat) (place : Int) : Float :=
  let size := ((Nat.toDigits 10 digits).length : Int) + place
  if digits = 0 then 0
  else if 400 < size then 1.0 / 0.0
  else if size < -400 then 0
  else if 0 ≤ place then Float.ofScientific digits false place.toNat
  else Float.ofScientific digits true (-place).toNat

/-- The value of a run of digits; other characters do not occur. -/
def digitsValue (cs : List Char) : Nat :=
  cs.foldl (fun n c => 10 * n + (c.toNat - '0'.toNat)) 0

/-- The exponent part of a decimal: nothing, or `e` and a signed number. -/
def exponent? : List Char → Option Int
  | [] => some 0
  | c :: cs => if c = 'e' ∨ c = 'E' then integer? cs else none

/-- An unsigned decimal: digits with at most one point, at least one digit, and an optional exponent. -/
def unsignedDecimal? (cs : List Char) : Option Float :=
  let whole := cs.takeWhile Char.isDigit
  let afterWhole := cs.dropWhile Char.isDigit
  let (fraction, rest) :=
    match afterWhole with
    | '.' :: tail => (tail.takeWhile Char.isDigit, tail.dropWhile Char.isDigit)
    | tail => ([], tail)
  if whole.isEmpty && fraction.isEmpty then none
  else (exponent? rest).map fun e => ofDecimal (digitsValue (whole ++ fraction)) (e - fraction.length)

/-- The names of the values that are not finite, in any case. -/
def special? (cs : List Char) : Option Float :=
  match (String.ofList cs).toLower with
  | "inf" => some (1.0 / 0.0)
  | "infinity" => some (1.0 / 0.0)
  | "nan" => some (0.0 / 0.0)
  | _ => none

/-- A decimal or a name of a special value, after an optional sign. -/
def readFloat? (s : String) : Option Float :=
  let unsigned? (cs : List Char) := (special? cs).orElse fun _ => unsignedDecimal? cs
  match s.toList with
  | '-' :: cs => (unsigned? cs).map fun x => -x
  | '+' :: cs => unsigned? cs
  | cs => unsigned? cs

/-! ### Remainder -/

/-- The number `mantissa · 2^exponent` for a mantissa that fits; every such remainder does. -/
def ofBinary (mantissa : Nat) (exponent : Int) : Float :=
  if 0 ≤ exponent then Float.ofScientific (mantissa * Nat.pow 2 exponent.toNat) false 0
  else
    -- `2^-k = 5^k / 10^k`
    Float.ofScientific (mantissa * Nat.pow 5 (-exponent).toNat) true (-exponent).toNat

/-- The remainder of the division rounded toward zero; it has the sign of the dividend. -/
def remainder (a b : Float) : Float :=
  if a.isNaN || b.isNaN || a.isInf || b == 0 then 0.0 / 0.0
  else if b.isInf then a
  else
    let x := magnitude a
    let y := magnitude b
    let low := min x.exponent y.exponent
    let m := x.mantissa * Nat.pow 2 (x.exponent - low).toNat
    let n := y.mantissa * Nat.pow 2 (y.exponent - low).toNat
    let r := ofBinary (m % n) low
    if isNegative a then -r else r

end ItemQuery.Number
