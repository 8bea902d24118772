import ItemQuery.Number.Integer

/-! Texts, keys and spacing of TOML. A text stands in quotes or apostrophes, one or three of them: in quotes a
    backslash begins an escape, and between three of either a text goes over several lines. -/

namespace ItemQuery.Config.Toml

/-! ### Spacing -/

/-- Space and tab. -/
def isGap (c : Char) : Bool :=
  c == ' ' || c == '\t'

/-- The text without gaps at its start. -/
def skipGap (cs : List Char) : List Char :=
  cs.dropWhile isGap

/-- Tab and everything that is no control character of ASCII. -/
def isPlain (c : Char) : Bool :=
  c == '\t' || (0x20 ≤ c.toNat && c.toNat != 0x7F)

/-- What follows a line break. -/
def afterBreak? : List Char → Option (List Char)
  | '\n' :: cs => some cs
  | '\r' :: '\n' :: cs => some cs
  | _ => none

/-- The text without a comment at its start. -/
def skipComment : List Char → List Char
  | '#' :: cs => cs.dropWhile isPlain
  | cs => cs

/-- What follows the rest of a line that holds nothing but a comment. -/
def afterLine? (cs : List Char) : Option (List Char) :=
  match skipComment (skipGap cs) with
  | [] => some []
  | rest => afterBreak? rest

/-- The text without gaps, line breaks and, if `comments`, whole comments at its start. Every round takes at
    least a line break. -/
def skipLines (comments : Bool) : Nat → List Char → List Char
  | 0, cs => cs
  | fuel + 1, cs =>
    let rest := skipGap cs
    match afterBreak? (if comments then skipComment rest else rest) with
    | some next => skipLines comments fuel next
    | none => rest

/-! ### Texts -/

/-- The character of a number in hexadecimal digits. -/
def hexCharacter? (digits : List Char) : Option Char :=
  (Number.digitsIn? 16 digits).bind fun code =>
    if h : code.isValidChar then some (Char.ofNatAux code h) else none

/-- The character of an escape after its backslash. -/
def escape? : List Char → Option (Char × List Char)
  | 'b' :: cs => some ('\x08', cs)
  | 't' :: cs => some ('\t', cs)
  | 'n' :: cs => some ('\n', cs)
  | 'f' :: cs => some ('\x0c', cs)
  | 'r' :: cs => some ('\r', cs)
  | '"' :: cs => some ('"', cs)
  | '\\' :: cs => some ('\\', cs)
  | 'u' :: cs => if 4 ≤ cs.length then (hexCharacter? (cs.take 4)).map fun c => (c, cs.drop 4) else none
  | 'U' :: cs => if 8 ≤ cs.length then (hexCharacter? (cs.take 8)).map fun c => (c, cs.drop 8) else none
  | _ => none

/-- The marks around a text. -/
structure Quoting where
  quote : Char
  /-- Whether the marks are tripled. -/
  multiline : Bool
deriving DecidableEq, Repr

/-- Whether a backslash has a meaning. -/
def Quoting.escapes (q : Quoting) : Bool :=
  q.quote == '"'

/-- What follows a backslash at the end of a line and the blank lines after it. -/
def continued? (cs : List Char) : Option (List Char) :=
  (afterBreak? (skipGap cs)).map fun next => skipLines false next.length next

/-- The body of a text up to its closing marks. Up to two quotes may stand before three closing ones. Every
    round takes at least one character. -/
def body? (q : Quoting) : Nat → List Char → Option (List Char × List Char)
  | 0, _ => none
  | _, [] => none
  | fuel + 1, c :: cs =>
    let after (front : List Char) (rest : List Char) : Option (List Char × List Char) :=
      (body? q fuel rest).map fun halves => (front ++ halves.1, halves.2)
    if c = q.quote then
      if q.multiline then
        let run := ((c :: cs).takeWhile (· == c)).length
        let kept := if run < 3 then run else min (run - 3) 2
        let front := List.replicate kept c
        if run < 3 then after front ((c :: cs).drop run) else some (front, (c :: cs).drop (kept + 3))
      else some ([], cs)
    else if c = '\\' ∧ q.escapes then
      match if q.multiline then continued? cs else none with
      | some next => after [] next
      | none => (escape? cs).bind fun found => after [found.1] found.2
    else if isPlain c then after [c] cs
    else if q.multiline then (afterBreak? (c :: cs)).bind fun next => after ['\n'] next
    else none

/-- A text on one line, after its opening mark. -/
def lineText? (quote : Char) (cs : List Char) : Option (String × List Char) :=
  (body? ⟨quote, false⟩ (cs.length + 1) cs).map fun halves => (String.ofList halves.1, halves.2)

/-- A text over several lines, after its opening marks; a line break right behind these is left out. -/
def linesText? (quote : Char) (cs : List Char) : Option (String × List Char) :=
  let cs := (afterBreak? cs).getD cs
  (body? ⟨quote, true⟩ (cs.length + 1) cs).map fun halves => (String.ofList halves.1, halves.2)

/-- Any text. -/
def text? : List Char → Option (String × List Char)
  | '"' :: '"' :: '"' :: cs => linesText? '"' cs
  | '\'' :: '\'' :: '\'' :: cs => linesText? '\'' cs
  | '"' :: cs => lineText? '"' cs
  | '\'' :: cs => lineText? '\'' cs
  | _ => none

/-! ### Keys -/

/-- Letters, digits, underscore and hyphen. -/
def isBare (c : Char) : Bool :=
  c.isAlphanum || c == '_' || c == '-'

/-- One name of a key. -/
def name? (cs : List Char) : Option (String × List Char) :=
  match cs with
  | '"' :: rest => lineText? '"' rest
  | '\'' :: rest => lineText? '\'' rest
  | _ =>
    if (cs.takeWhile isBare).isEmpty then none
    else some (String.ofList (cs.takeWhile isBare), cs.dropWhile isBare)

/-- A key of at most `most` names with points between them. -/
def key? : Nat → List Char → Option (List String × List Char)
  | 0, _ => none
  | most + 1, cs => do
    let (first, cs) ← name? (skipGap cs)
    match skipGap cs with
    | '.' :: cs =>
      let (more, cs) ← key? most cs
      return (first :: more, cs)
    | cs => return ([first], cs)

/-- The most names of a key, and the most levels of a value. -/
def levels : Nat := 79

end ItemQuery.Config.Toml
