/-! The fewest decimal digits that read back as a given binary number. A finite positive `Float` is
    `mantissa · 2^exponent`, and every real in its rounding interval reads back as it. For 1, 2, … 17 digits
    the two neighbours of the value on that decimal grid are tested; the first grid with a hit decides, and
    of two hits the nearer one is taken, the upper one if both are equally near. -/

namespace ItemQuery.Number

/-- A positive number `mantissa · 2^exponent`, with the width of its rounding interval below it. -/
structure Binary where
  mantissa : Nat
  exponent : Int
  /-- The next smaller number is only half a step away. -/
  narrow : Bool
deriving DecidableEq, Repr

/-- Sign, exponent and fraction fields of the 64 bits of a number. -/
def fields (x : Float) : Bool × Nat × Nat :=
  let bits := x.toBits.toNat
  (bits / Nat.pow 2 63 = 1, bits / Nat.pow 2 52 % Nat.pow 2 11, bits % Nat.pow 2 52)

/-- The absolute value of a finite number. -/
def magnitude (x : Float) : Binary :=
  let (_, e, f) := fields x
  if e = 0 then ⟨f, -1074, false⟩ else ⟨Nat.pow 2 52 + f, (e : Int) - 1075, f = 0 && 1 < e⟩

/-- The sign bit of a number. -/
def isNegative (x : Float) : Bool :=
  (fields x).1

namespace Binary

/-- The value as a fraction, scaled so that the interval ends have the same denominator. -/
def ratio (b : Binary) : Nat × Nat :=
  if 0 ≤ b.exponent - 2 then (b.mantissa * 4 * Nat.pow 2 (b.exponent - 2).toNat, 1)
  else (b.mantissa * 4, Nat.pow 2 (2 - b.exponent).toNat)

/-- Half the distance to the neighbours, below and above, in the units of `ratio`. -/
def margins (b : Binary) : Nat × Nat :=
  let unit := if 0 ≤ b.exponent - 2 then Nat.pow 2 (b.exponent - 2).toNat else 1
  (if b.narrow then unit else 2 * unit, 2 * unit)

/-- Whether `digits · 10^place` reads back as `b`; the ends of the interval do if the mantissa is even. -/
def contains (b : Binary) (digits : Nat) (place : Int) : Bool :=
  let (num, den) := b.ratio
  let (below, above) := b.margins
  let (up, down) := if 0 ≤ place then (Nat.pow 10 place.toNat, 1) else (1, Nat.pow 10 (-place).toNat)
  let value := digits * up * den
  let low := (num - below) * down
  let high := (num + above) * down
  if b.mantissa % 2 = 0 then low ≤ value && value ≤ high else low < value && value < high

/-- The number of decimal digits of the whole part; zero or less below one. -/
def magnitudeTen (b : Binary) : Int :=
  let (num, den) := b.ratio
  if den ≤ num then ((Nat.toDigits 10 (num / den)).length : Int)
  else 1 - ((Nat.toDigits 10 (den / num)).length : Int)

/-- The decimal of `count` digits next to `b` that reads back as it, if there is one. -/
def onGrid? (b : Binary) (count : Nat) : Option (Nat × Int) :=
  let place := b.magnitudeTen - count
  let (num, den) := b.ratio
  let (up, down) := if 0 ≤ place then (Nat.pow 10 place.toNat, 1) else (1, Nat.pow 10 (-place).toNat)
  let lower := num * down / (den * up)
  let rest := num * down % (den * up)
  match b.contains lower place, b.contains (lower + 1) place with
  | true, true => if 2 * rest < den * up then some (lower, place) else some (lower + 1, place)
  | true, false => some (lower, place)
  | false, true => some (lower + 1, place)
  | false, false => none

/-- Moves trailing zeros of the digits into the exponent. -/
def stripZeros : Nat → Nat → Int → Nat × Int
  | 0, digits, place => (digits, place)
  | fuel + 1, digits, place =>
    if digits ≠ 0 ∧ digits % 10 = 0 then stripZeros fuel (digits / 10) (place + 1) else (digits, place)

/-- The digits and the power of ten of the shortest decimal. -/
def shortest (b : Binary) : Nat × Int :=
  let (digits, place) := ((List.range 17).findSome? fun i => b.onGrid? (i + 1)).getD (0, 0)
  stripZeros 18 digits place

end Binary
end ItemQuery.Number
