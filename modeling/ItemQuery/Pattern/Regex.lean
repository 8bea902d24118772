import ItemQuery.Error
import ItemQuery.Pattern.Simplify
import ItemQuery.Text.Blank

/-! Patterns written as regular expressions. Reading goes through the text once, with a stack of the groups
    that are open; every step takes at least one character. -/

namespace ItemQuery
namespace Pattern

/-! ### Character classes -/

/-- An entry that starts with the character `low`: a range if a dash and another character follow. -/
def rangeFrom (low : Char) (cs : List Char) : SetItem × List Char :=
  match cs with
  | '-' :: high :: rest => if high = ']' then (.char low, cs) else (.range low high, rest)
  | _ => (.char low, cs)

/-- The first entry of a class; none if the text ends. -/
def classEntry? : List Char → Option (SetItem × List Char)
  | [] => none
  | ['\\'] => none
  | '\\' :: 'd' :: rest => some (.cls .digit, rest)
  | '\\' :: 'w' :: rest => some (.cls .word, rest)
  | '\\' :: 's' :: rest => some (.cls .space, rest)
  | '\\' :: c :: rest => some (rangeFrom c rest)
  | c :: rest => some (rangeFrom c rest)

theorem length_rangeFrom_le (low : Char) (cs : List Char) : (rangeFrom low cs).2.length ≤ cs.length := by
  unfold rangeFrom
  grind

theorem length_classEntry?_lt {cs rest : List Char} {item : SetItem}
    (h : classEntry? cs = some (item, rest)) : rest.length < cs.length := by
  unfold classEntry? at h
  grind [length_rangeFrom_le]

/-- The entries of a class up to its bracket, and the text after it. A bracket in first place is an entry. -/
def classItems? (first : Bool) (cs : List Char) : Option (List SetItem × List Char) :=
  match cs with
  | [] => none
  | c :: rest =>
    if c = ']' ∧ first = false then some ([], rest)
    else
      match _h : classEntry? (c :: rest) with
      | none => none
      | some (item, more) => (classItems? false more).map fun r => (item :: r.1, r.2)
termination_by cs.length
decreasing_by grind [→ length_classEntry?_lt]

/-- A class after its opening bracket. -/
def class? : List Char → Option (CharSet × List Char)
  | '^' :: rest => (classItems? true rest).map fun r => (⟨r.1, true⟩, r.2)
  | cs => (classItems? true cs).map fun r => (⟨r.1, false⟩, r.2)

theorem length_classItems?_lt {first : Bool} {cs rest : List Char} {items : List SetItem}
    (h : classItems? first cs = some (items, rest)) : rest.length < cs.length := by
  fun_induction classItems? first cs generalizing items rest <;>
    grind [Option.map_eq_some_iff, → length_classEntry?_lt]

theorem length_class?_lt {cs rest : List Char} {chars : CharSet}
    (h : class? cs = some (chars, rest)) : rest.length < cs.length := by
  unfold class? at h
  split at h <;> obtain ⟨r, hr, heq⟩ := Option.map_eq_some_iff.mp h <;>
    have := @length_classItems?_lt true _ r.2 r.1 hr <;> grind

/-! ### Quantifiers -/

/-- The bounds between braces: `n`, `n,` or `n,m`. -/
def bounds? (body : List Char) : Option (UInt32 × Option UInt32) :=
  let count? (cs : List Char) := Number.readUInt32? (Text.trimWhile Text.isBlank cs)
  match Text.cut? [','] body with
  | none => (count? body).map fun n => (n, some n)
  | some (least, []) => (count? least).map fun n => (n, none)
  | some (least, most) => (count? least).bind fun n => (count? most).map fun m => (n, some m)

/-- The bounds of a quantifier and the text after it; braces without bounds are no quantifier. -/
def bareQuantifier? : List Char → Option (UInt32 × Option UInt32 × List Char)
  | '*' :: rest => some (0, none, rest)
  | '+' :: rest => some (1, none, rest)
  | '?' :: rest => some (0, some 1, rest)
  | '{' :: rest =>
    (Text.cut? ['}'] rest).bind fun halves => (bounds? halves.1).map fun b => (b.1, b.2, halves.2)
  | _ => none

/-- The repetition written at the start of a text, and the text after it. -/
def quantifier (cs : List Char) : Repetition × List Char :=
  match bareQuantifier? cs with
  | none => (.once, cs)
  | some (least, most, '?' :: rest) => (⟨least, most, false⟩, rest)
  | some (least, most, rest) => (⟨least, most, true⟩, rest)

theorem length_cut?_le {mark cs before after : List Char} (h : Text.cut? mark cs = some (before, after)) :
    after.length ≤ cs.length := by
  fun_induction Text.cut? mark cs generalizing before after <;> grind [Option.map_eq_some_iff]

theorem length_quantifier_le (cs : List Char) : (quantifier cs).2.length ≤ cs.length := by
  have bare : ∀ {a b rest}, bareQuantifier? cs = some (a, b, rest) → rest.length ≤ cs.length := by
    intro a b rest h
    unfold bareQuantifier? at h
    grind [Option.bind_eq_some_iff, Option.map_eq_some_iff, → length_cut?_le]
  unfold quantifier
  grind

/-! ### Reading -/

/-- What an escaped character stands for. -/
def escaped (c : Char) (r : Repetition) : Piece :=
  match c with
  | 'd' => .set ⟨[.cls .digit], false⟩ r
  | 'D' => .set ⟨[.cls .digit], true⟩ r
  | 'w' => .set ⟨[.cls .word], false⟩ r
  | 'W' => .set ⟨[.cls .word], true⟩ r
  | 's' => .set ⟨[.cls .space], false⟩ r
  | 'S' => .set ⟨[.cls .space], true⟩ r
  | 'b' => .anchor .wordBoundary r
  | 'n' => .text "\n" r
  | 't' => .text "\t" r
  | 'r' => .text "\r" r
  | c => .text c.toString r

/-- A group that is being read; `opened` is the position of its parenthesis. -/
structure OpenGroup where
  opened : Nat
  /-- The alternatives before the current one, the last one first. -/
  before : List (List Piece) := []
  /-- The current alternative, its last piece first. -/
  current : List Piece := []

namespace OpenGroup

/-- All alternatives in order. -/
def alternatives (g : OpenGroup) : List (List Piece) :=
  (g.current.reverse :: g.before).reverse

/-- Appends a piece to the current alternative. -/
def push (g : OpenGroup) (p : Piece) : OpenGroup :=
  { g with current := p :: g.current }

/-- Starts the next alternative. -/
def bar (g : OpenGroup) : OpenGroup :=
  { g with before := g.current.reverse :: g.before, current := [] }

end OpenGroup

/-- A single atom and the text after it; groups and bars are handled by `readRegex`. -/
def atom? (position : Nat) (c : Char) (rest : List Char) : Result ((Repetition → Piece) × List Char) :=
  match c with
  | '[' =>
    match class? rest with
    | some (chars, more) => .ok (.set chars, more)
    | none => .error (.parse position "unterminated character class")
  | '.' => .ok (.set (.ofClass .any), rest)
  | '^' => .ok (.anchor .start, rest)
  | '$' => .ok (.anchor .finish, rest)
  | '\\' =>
    match rest with
    | e :: more => .ok (escaped e, more)
    | [] => .error (.parse position "trailing backslash")
  | _ =>
    if c = '*' ∨ c = '+' ∨ c = '?' then
      .error (.parse position ("nothing to repeat before '" ++ c.toString ++ "'"))
    else .ok (.text c.toString, rest)

theorem length_atom?_le {position : Nat} {c : Char} {rest more : List Char} {piece : Repetition → Piece}
    (h : atom? position c rest = .ok (piece, more)) : more.length ≤ rest.length := by
  unfold atom? at h
  grind [→ length_class?_lt]

/-- The text after `?:`, if a group starts with it. -/
def afterMark : List Char → List Char
  | '?' :: ':' :: rest => rest
  | cs => cs

theorem length_afterMark_le (cs : List Char) : (afterMark cs).length ≤ cs.length := by
  unfold afterMark
  grind

/-- Reads the rest of a regular expression of `total` characters; `top` is the innermost open group and
    `outer` the ones around it, innermost first. -/
def readRegex (total : Nat) (top : OpenGroup) (outer : List OpenGroup) (cs : List Char) : Result Pattern :=
  match cs with
  | [] =>
    match outer with
    | [] => .ok ⟨top.alternatives⟩
    | _ :: _ => .error (.parse top.opened "unterminated group")
  | '|' :: rest => readRegex total top.bar outer rest
  | '(' :: rest => readRegex total { opened := total - cs.length } (top :: outer) (afterMark rest)
  | ')' :: rest =>
    match outer with
    | [] => .error (.parse (total - cs.length) "unbalanced ')'")
    | around :: outer =>
      readRegex total (around.push (.group top.alternatives (quantifier rest).1)) outer (quantifier rest).2
  | c :: rest =>
    match _h : atom? (total - cs.length) c rest with
    | .error e => .error e
    | .ok (piece, more) =>
      match piece (quantifier more).1 with
      | .anchor place r =>
        if r = .once then readRegex total (top.push (.anchor place r)) outer (quantifier more).2
        else .error (.parse (total - (quantifier more).2.length) "quantifier on an anchor")
      | p => readRegex total (top.push p) outer (quantifier more).2
termination_by cs.length
decreasing_by
  all_goals simp_all only [List.length_cons]
  · omega
  · have := length_afterMark_le rest; omega
  · have := length_quantifier_le rest; omega
  · have := length_quantifier_le more; have := length_atom?_le _h; omega
  · have := length_quantifier_le more; have := length_atom?_le _h; omega

/-- Reads a regular expression, without simplifying it. -/
def ofRegexRaw (value : String) : Result Pattern :=
  readRegex value.toList.length { opened := 0 } [] value.toList

/-- Reads a regular expression. -/
def ofRegex (value : String) : Result Pattern :=
  (ofRegexRaw value).map simplify

/-! ### Writing -/

/-- The characters with a meaning in a regular expression. -/
def regexSpecial : List Char :=
  ['\\', '.', '*', '+', '?', '(', ')', '[', ']', '{', '}', '|', '^', '$']

/-- A literal text with its special characters escaped. -/
def regexLiteral : List Char → List Char
  | [] => []
  | c :: cs => if regexSpecial.contains c then '\\' :: c :: regexLiteral cs else c :: regexLiteral cs

/-- A character inside a class. -/
def classChar (c : Char) : List Char :=
  if c = '\\' ∨ c = ']' ∨ c = '^' ∨ c = '-' then ['\\', c] else [c]

/-- An entry of a class in brackets. -/
def classItemText : SetItem → List Char
  | .char c => classChar c
  | .range a b => classChar a ++ '-' :: classChar b
  | .cls .any => ['\\', 's', '\\', 'S']
  | .cls .digit => ['\\', 'd']
  | .cls .word => ['\\', 'w']
  | .cls .space => ['\\', 's']

/-- A character set; a single class that is not inverted needs no brackets. -/
def classText (chars : CharSet) : List Char :=
  match chars.inverted, chars.items with
  | false, [.cls .any] => ['.']
  | false, [.cls kind] => classItemText (.cls kind)
  | inverted, items => '[' :: ((if inverted then ['^'] else []) ++ items.flatMap classItemText ++ [']'])

/-- A repetition; nothing for exactly once. -/
def quantifierText (r : Repetition) : List Char :=
  let lazy := if r.greedy then [] else ['?']
  let number (n : UInt32) := (toString n.toNat).toList
  if r.isOnce then []
  else
    match r.most with
    | none =>
      if r.least = 0 then '*' :: lazy
      else if r.least = 1 then '+' :: lazy
      else '{' :: (number r.least ++ [',', '}'] ++ lazy)
    | some most =>
      if r.least = 0 ∧ most = 1 then '?' :: lazy
      else if most = r.least then '{' :: (number r.least ++ '}' :: lazy)
      else '{' :: (number r.least ++ ',' :: (number most ++ '}' :: lazy))

mutual

/-- One piece as regular expression. -/
def pieceRegex : Piece → List Char
  | .anchor .start r => '^' :: quantifierText r
  | .anchor .finish r => '$' :: quantifierText r
  | .anchor .wordBoundary r => '\\' :: 'b' :: quantifierText r
  | .text value r =>
    let body := regexLiteral value.toList
    (if !r.isOnce && 1 < value.length then '(' :: '?' :: ':' :: (body ++ [')']) else body) ++ quantifierText r
  | .set chars r => classText chars ++ quantifierText r
  | .group alternatives r => '(' :: (alternativesRegex alternatives ++ ')' :: quantifierText r)

/-- A sequence as regular expression. -/
def sequenceRegex : List Piece → List Char
  | [] => []
  | p :: ps => pieceRegex p ++ sequenceRegex ps

/-- Alternatives with bars between them. -/
def alternativesRegex : List (List Piece) → List Char
  | [] => []
  | [s] => sequenceRegex s
  | s :: ss => sequenceRegex s ++ '|' :: alternativesRegex ss

end

/-- The sequence without `^.*` at its start and `.*$` at its end, which say nothing. -/
def openEnds (pieces : List Piece) : List Piece :=
  let body :=
    match pieces with
    | a :: b :: rest => if a.isAnchor .start && b.isAnyRun then rest else pieces
    | _ => pieces
  match body.reverse with
  | a :: b :: rest => if a.isAnchor .finish && b.isAnyRun then rest.reverse else body
  | _ => body

/-- A pattern as regular expression. -/
def toRegex (p : Pattern) : String :=
  String.ofList (alternativesRegex (p.alternatives.map openEnds))

/-- The text of a pattern in expressions and messages. -/
def display (p : Pattern) : String :=
  "/" ++ p.toRegex ++ "/"

end Pattern
end ItemQuery
