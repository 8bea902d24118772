/-! Whole numbers as text, and arithmetic on 64-bit integers that reports a result out of range
    instead of wrapping. -/

namespace ItemQuery.Number

/-- The number written by a nonempty run of ASCII digits. -/
def digits? : List Char → Option Nat
  | [] => none
  | cs => if cs.all Char.isDigit then some (cs.foldl (fun n c => 10 * n + (c.toNat - '0'.toNat)) 0) else none

/-- The number written in a base of at most 16. -/
def digitsIn? (base : Nat) : List Char → Option Nat
  | [] => none
  | cs =>
    let digit? (c : Char) : Option Nat :=
      let n :=
        if c.isDigit then c.toNat - '0'.toNat
        else if 'a' ≤ c ∧ c ≤ 'f' then c.toNat - 'a'.toNat + 10
        else if 'A' ≤ c ∧ c ≤ 'F' then c.toNat - 'A'.toNat + 10
        else base
      if n < base then some n else none
    cs.foldlM (fun n c => (digit? c).map fun d => base * n + d) 0

/-- The number written by ASCII digits after an optional plus sign. -/
def natural? : List Char → Option Nat
  | '+' :: cs => digits? cs
  | cs => digits? cs

/-- The number written by ASCII digits after an optional sign. -/
def integer? : List Char → Option Int
  | '-' :: cs => (digits? cs).map fun n => -(n : Int)
  | cs => (natural? cs).map fun n => (n : Int)

/-- The 64-bit integer of this value, if there is one. -/
def int64? (n : Int) : Option Int64 :=
  if Int64.minValue.toInt ≤ n ∧ n ≤ Int64.maxValue.toInt then some (Int64.ofInt n) else none

/-- Reads a 64-bit integer. -/
def readInt64? (s : String) : Option Int64 :=
  (integer? s.toList).bind int64?

/-- Reads an unsigned 64-bit integer; a minus sign is never accepted. -/
def readUInt64? (s : String) : Option UInt64 :=
  (natural? s.toList).bind fun n => if n < UInt64.size then some (UInt64.ofNat n) else none

/-- Reads an unsigned 32-bit integer; a minus sign is never accepted. -/
def readUInt32? (cs : List Char) : Option UInt32 :=
  (natural? cs).bind fun n => if n < UInt32.size then some (UInt32.ofNat n) else none

/-- The decimal text of a 64-bit integer. -/
def int64Text (n : Int64) : String :=
  toString n.toInt

/-- The decimal text of an unsigned 64-bit integer. -/
def uint64Text (n : UInt64) : String :=
  toString n.toNat

/-! ### Checked arithmetic -/

/-- The sum, if it is in range. -/
def add? (a b : Int64) : Option Int64 :=
  int64? (a.toInt + b.toInt)

/-- The difference, if it is in range. -/
def sub? (a b : Int64) : Option Int64 :=
  int64? (a.toInt - b.toInt)

/-- The product, if it is in range. -/
def mul? (a b : Int64) : Option Int64 :=
  int64? (a.toInt * b.toInt)

/-- The quotient rounded toward zero, if the divisor is not zero and the quotient is in range. -/
def div? (a b : Int64) : Option Int64 :=
  if b.toInt = 0 then none else int64? (a.toInt.tdiv b.toInt)

/-- The remainder that belongs to `div?`; it exists exactly when the quotient does. -/
def rem? (a b : Int64) : Option Int64 :=
  (div? a b).bind fun _ => int64? (a.toInt.tmod b.toInt)

/-- The opposite, if it is in range. -/
def neg? (a : Int64) : Option Int64 :=
  int64? (-a.toInt)

/-- The sum of two 32-bit counts, if it is in range. -/
def addCounts? (a b : UInt32) : Option UInt32 :=
  if a.toNat + b.toNat < UInt32.size then some (UInt32.ofNat (a.toNat + b.toNat)) else none

end ItemQuery.Number
