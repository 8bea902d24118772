import ItemQuery.Config.Document
import ItemQuery.Number.Integer
import ItemQuery.Text.Blank

/-! Documents in JSON. A number is checked and not kept. A text with half of a surrogate pair is damaged: it may
    stand where nobody reads it, and it is not a key. -/

namespace ItemQuery.Config.Json

/-- The text without spacing at its start. -/
def skip (cs : List Char) : List Char :=
  cs.dropWhile Text.isSpacing

/-! ### Texts -/

/-- The code units of a text up to its closing quote. -/
def units? : List Char → Option (List Nat × List Char)
  | [] => none
  | '"' :: cs => some ([], cs)
  | '\\' :: 'u' :: a :: b :: c :: d :: cs => do
    let unit ← Number.digitsIn? 16 [a, b, c, d]
    let (units, rest) ← units? cs
    return (unit :: units, rest)
  | '\\' :: c :: cs => do
    let plain ← match c with
      | '"' => some '"'
      | '\\' => some '\\'
      | '/' => some '/'
      | 'b' => some '\x08'
      | 'f' => some '\x0c'
      | 'n' => some '\n'
      | 'r' => some '\r'
      | 't' => some '\t'
      | _ => none
    let (units, rest) ← units? cs
    return (plain.toNat :: units, rest)
  | c :: cs =>
    if c.toNat < 0x20 ∨ c = '\\' then none
    else (units? cs).map fun halves => (c.toNat :: halves.1, halves.2)

/-- The characters of code units; the halves of a pair belong together. -/
def characters? : List Nat → Option (List Char)
  | [] => some []
  | unit :: units =>
    if h : unit.isValidChar then (characters? units).map (Char.ofNatAux unit h :: ·)
    else
      match units with
      | [] => none
      | low :: units =>
        if unit < 0xDC00 ∧ 0xDC00 ≤ low ∧ low < 0xE000 then
          (characters? units).map (Char.ofNat (0x10000 + (unit - 0xD800) * 0x400 + (low - 0xDC00)) :: ·)
        else none

/-! ### Numbers -/

/-- What follows a run of at least one digit. -/
def afterDigits? (cs : List Char) : Option (List Char) :=
  if (cs.takeWhile Char.isDigit).isEmpty then none else some (cs.dropWhile Char.isDigit)

/-- What follows the fraction, if there is one. -/
def afterFraction? : List Char → Option (List Char)
  | '.' :: cs => afterDigits? cs
  | cs => some cs

/-- What follows the exponent, if there is one. -/
def afterExponent? : List Char → Option (List Char)
  | [] => some []
  | c :: cs =>
    if c = 'e' ∨ c = 'E' then
      match cs with
      | '+' :: digits => afterDigits? digits
      | '-' :: digits => afterDigits? digits
      | digits => afterDigits? digits
    else some (c :: cs)

/-- What follows a number; a zero in front stands alone. -/
def afterNumber? (cs : List Char) : Option (List Char) := do
  let unsigned := match cs with
    | '-' :: rest => rest
    | rest => rest
  let whole ← match unsigned with
    | '0' :: rest => some rest
    | rest => afterDigits? rest
  afterExponent? (← afterFraction? whole)

/-! ### Values -/

/-- A value and what follows it. -/
abbrev Reading : Type :=
  List Char → Option (Document × List Char)

/-- The items of a list up to its bracket; each item is read by `inner` and takes at least one character. -/
def items? (inner : Reading) : Nat → List Char → Option (List Document × List Char)
  | 0, _ => none
  | fuel + 1, cs => do
    let (first, cs) ← inner cs
    match skip cs with
    | ']' :: cs => return ([first], cs)
    | ',' :: cs =>
      let (more, cs) ← items? inner fuel cs
      return (first :: more, cs)
    | _ => none

/-- The entries of a table up to its brace; each value is read by `inner`. -/
def entries? (inner : Reading) : Nat → List Char → Option (List (String × Document) × List Char)
  | 0, _ => none
  | fuel + 1, cs =>
    match skip cs with
    | '"' :: cs => do
      let (units, cs) ← units? cs
      let key := String.ofList (← characters? units)
      match skip cs with
      | ':' :: cs =>
        let (value, cs) ← inner cs
        match skip cs with
        | '}' :: cs => return ([(key, value)], cs)
        | ',' :: cs =>
          let (more, cs) ← entries? inner fuel cs
          return ((key, value) :: more, cs)
        | _ => none
      | _ => none
    | _ => none

/-- A value without parts. -/
def simple? : Reading
  | 'n' :: 'u' :: 'l' :: 'l' :: cs => some (.null, cs)
  | 't' :: 'r' :: 'u' :: 'e' :: cs => some (.bool true, cs)
  | 'f' :: 'a' :: 'l' :: 's' :: 'e' :: cs => some (.bool false, cs)
  | '"' :: cs =>
    (units? cs).map fun halves =>
      ((characters? halves.1).elim .scalar fun found => .text (String.ofList found), halves.2)
  | cs => (afterNumber? cs).map fun rest => (.scalar, rest)

/-- A value of which the parts are read by `inner`. -/
def composed? (inner : Reading) (cs : List Char) : Option (Document × List Char) :=
  match skip cs with
  | '[' :: cs =>
    match skip cs with
    | ']' :: cs => some (.list [], cs)
    | cs => (items? inner cs.length cs).map fun halves => (.list halves.1, halves.2)
  | '\x7b' :: cs =>
    match skip cs with
    | '\x7d' :: cs => some (.table [], cs)
    | cs => (entries? inner cs.length cs).map fun halves => (.table halves.1, halves.2)
  | cs => simple? cs

/-- A value with at most `depth` levels. -/
def value? : Nat → Reading
  | 0 => fun _ => none
  | depth + 1 => composed? (value? depth)

end Json

/-- Reads JSON. A text has no more levels than characters. -/
def Document.ofJson? (source : String) : Option Document :=
  match Json.value? (source.length + 1) source.toList with
  | some (d, rest) => if (Json.skip rest).isEmpty then some d else none
  | none => none

end ItemQuery.Config
