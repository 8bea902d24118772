import ItemQuery.Error
import ItemQuery.Pattern.Simplify

/-! Patterns written with wildcards: `like` patterns of SQL and AML, search boxes and `Like` of Visual
    Basic differ only in the characters listed in a `WildcardSyntax`. Reading gives an anchored pattern. -/

namespace ItemQuery

/-- The special characters of a wildcard syntax. -/
structure WildcardSyntax where
  /-- Characters for any run of characters; the first one is written. -/
  anyRun : List Char
  singleChar : Option Char := none
  singleDigit : Option Char := none
  /-- Makes the next character literal. -/
  escape : Option Char := none
  /-- Whether `[...]` is a character set. -/
  brackets : Bool := false
  /-- Inverts a bracket set when it comes first. -/
  negation : Char := '^'
deriving DecidableEq, Repr, Inhabited

namespace WildcardSyntax

/-- `%`, `_`, `[...]` and `[^...]`. -/
def sqlServer : WildcardSyntax :=
  { anyRun := ['%'], singleChar := some '_', brackets := true }

/-- As in SQL Server, and `*` for any run too. -/
def aml : WildcardSyntax :=
  { anyRun := ['%', '*'], singleChar := some '_', brackets := true }

/-- Search boxes: `*` and `%`, and a backslash as escape. -/
def simpleSearch : WildcardSyntax :=
  { anyRun := ['*', '%'], escape := some '\\' }

/-- `*`, `?`, `#`, `[...]` and `[!...]`. -/
def visualBasic : WildcardSyntax :=
  { anyRun := ['*'], singleChar := some '?', singleDigit := some '#', brackets := true, negation := '!' }

/-- Standard SQL: no sets, and a backslash as escape. -/
def ansi : WildcardSyntax :=
  { anyRun := ['%'], singleChar := some '_', escape := some '\\' }

/-- Whether a character has a meaning of its own. -/
def isSpecial (s : WildcardSyntax) (c : Char) : Bool :=
  s.anyRun.contains c || s.singleChar == some c || s.singleDigit == some c || s.escape == some c
    || (s.brackets && c == '[')

end WildcardSyntax

namespace Pattern

/-! ### Reading -/

/-- The entries of a set up to its bracket, and the text after it. A bracket in first place is an entry. -/
def setItems? (first : Bool) : List Char → Option (List SetItem × List Char)
  | [] => none
  | [c] => if c = ']' ∧ first = false then some ([], []) else none
  | [c, d] =>
    if c = ']' ∧ first = false then some ([], [d])
    else (setItems? false [d]).map fun r => (.char c :: r.1, r.2)
  | c :: d :: e :: more =>
    if c = ']' ∧ first = false then some ([], d :: e :: more)
    else if d = '-' ∧ e ≠ ']' then (setItems? false more).map fun r => (.range c e :: r.1, r.2)
    else (setItems? false (d :: e :: more)).map fun r => (.char c :: r.1, r.2)

/-- A set after its opening bracket. -/
def set? (negation : Char) (cs : List Char) : Option (CharSet × List Char) :=
  match cs with
  | c :: rest =>
    if c = negation then (setItems? true rest).map fun r => (⟨r.1, true⟩, r.2)
    else (setItems? true cs).map fun r => (⟨r.1, false⟩, r.2)
  | [] => none

/-- The text after the closing bracket is shorter than the text before. -/
theorem length_setItems?_lt {first : Bool} {cs rest : List Char} {items : List SetItem}
    (h : setItems? first cs = some (items, rest)) : rest.length < cs.length := by
  fun_induction setItems? first cs generalizing items rest <;>
    grind [Option.map_eq_some_iff]

/-- A set takes at least one character. -/
theorem length_set?_lt {negation : Char} {cs rest : List Char} {chars : CharSet}
    (h : set? negation cs = some (chars, rest)) : rest.length < cs.length := by
  unfold set? at h
  split at h
  · split at h <;> obtain ⟨r, hr, heq⟩ := Option.map_eq_some_iff.mp h <;>
      have := @length_setItems?_lt true _ r.2 r.1 hr <;> grind
  · simp at h

/-- The pieces of a wildcard text; `position` counts the characters before it. -/
def wildcardPieces (s : WildcardSyntax) (position : Nat) (cs : List Char) : Result (List Piece) :=
  match cs with
  | [] => .ok []
  | c :: rest =>
    if s.escape == some c then
      match rest with
      | next :: more => (wildcardPieces s (position + 2) more).map (.literal next.toString :: ·)
      | [] => .ok [.literal c.toString]
    else if s.anyRun.contains c then (wildcardPieces s (position + 1) rest).map (.anyRun :: ·)
    else if s.singleChar == some c then (wildcardPieces s (position + 1) rest).map (.anyChar :: ·)
    else if s.singleDigit == some c then
      (wildcardPieces s (position + 1) rest).map (.set (.ofClass .digit) .once :: ·)
    else if s.brackets && c == '[' then
      match h : set? s.negation rest with
      | some (chars, more) =>
        (wildcardPieces s (position + 1 + (rest.length - more.length)) more).map (.set chars .once :: ·)
      | none => .error (.parse position "unterminated character class")
    else (wildcardPieces s (position + 1) rest).map (.literal c.toString :: ·)
termination_by cs.length
decreasing_by all_goals grind [→ length_set?_lt]

/-- Reads a wildcard text as an anchored pattern, without simplifying it. -/
def ofWildcardRaw (s : WildcardSyntax) (value : String) : Result Pattern :=
  (wildcardPieces s 0 value.toList).map fun pieces =>
    ofSequence (.at_ .start :: (pieces ++ [.at_ .finish]))

/-- Reads a wildcard text. -/
def ofWildcard (s : WildcardSyntax) (value : String) : Result Pattern :=
  (ofWildcardRaw s value).map simplify

/-! ### Writing -/

/-- A literal text with its special characters made literal, or degraded to a single wildcard. -/
def escapeLiteral (s : WildcardSyntax) : List Char → Result (List Char)
  | [] => .ok []
  | c :: cs => do
    let shown ←
      if !s.isSpecial c then .ok [c]
      else
        match s.escape, s.brackets, s.singleChar with
        | some escape, _, _ => .ok [escape, c]
        | none, true, _ => .ok ['[', c, ']']
        | none, false, some single => .ok [single]
        | none, false, none =>
          .error (.unsupported ("literal '" ++ c.toString ++ "' cannot be escaped in this wildcard syntax"))
    return shown ++ (← escapeLiteral s cs)

/-- The entries of a set inside brackets. -/
def setText : List SetItem → Result (List Char)
  | [] => .ok []
  | item :: items => do
    let shown ←
      match item with
      | .char c => .ok [c]
      | .range a b => .ok [a, '-', b]
      | .cls .digit => .ok "0-9".toList
      | .cls .word => .ok "a-zA-Z0-9_".toList
      | .cls .space => .ok " \t\r\n".toList
      | .cls .any => .error (.unsupported "any-character class inside brackets")
    return shown ++ (← setText items)

/-- A character set other than any character. -/
def charSetText (s : WildcardSyntax) (chars : CharSet) : Result (List Char) :=
  match s.singleDigit with
  | some digit => if chars.isClass .digit then .ok [digit] else bracketed
  | none => bracketed
where
  /-- The set in brackets, or degraded to a single wildcard. -/
  bracketed : Result (List Char) :=
    if s.brackets then
      (setText chars.items).map fun body =>
        '[' :: ((if chars.inverted then [s.negation] else []) ++ body ++ [']'])
    else
      match s.singleChar with
      | some single => .ok [single]
      | none => .error (.unsupported "character classes cannot be expressed in this wildcard syntax")

/-- The unit as often as the lower bound says. -/
def copies (unit : List Char) (r : Repetition) : List Char :=
  (List.replicate r.least.toNat unit).flatten

/-- The unit as often as required; an open end needs the character for any run. -/
def repeated (unit : List Char) (r : Repetition) (run : Option Char) : Result (List Char) :=
  match r.most, run with
  | some most, _ => if most = r.least then .ok (copies unit r) else refused
  | none, some c => .ok (copies unit r ++ [c])
  | none, none => refused
where
  /-- A range of repetitions has no wildcard. -/
  refused : Result (List Char) :=
    .error (.unsupported ("repetition \x7b" ++ toString r.least.toNat ++ "," ++
      (r.most.elim "" fun most => toString most.toNat) ++ "\x7d in a wildcard pattern"))

/-- The name of an anchor in messages. -/
def anchorName : Anchor → String
  | .start => "Start"
  | .finish => "End"
  | .wordBoundary => "WordBoundary"

mutual

/-- One piece as wildcard text. -/
def pieceText (s : WildcardSyntax) (run : Char) : Piece → Result (List Char)
  | .anchor place _ => .error (.unsupported ("anchor " ++ anchorName place ++ " inside a wildcard pattern"))
  | .text value r => do repeated (← escapeLiteral s value.toList) r none
  | .set chars r =>
    if chars.isClass .any then
      if r.isAny then .ok [run]
      else
        match s.singleChar with
        | some single => repeated [single] r (some run)
        | none => .error (.unsupported "single-character wildcard not available")
    else do repeated (← charSetText s chars) r none
  | .group alternatives r =>
    if r.isOnce then groupText s run alternatives
    else .error (.unsupported "repeated group in a wildcard pattern")

/-- A sequence as wildcard text. -/
def sequenceText (s : WildcardSyntax) (run : Char) : List Piece → Result (List Char)
  | [] => .ok []
  | p :: ps => do
    let shown ← pieceText s run p
    return shown ++ (← sequenceText s run ps)

/-- The only alternative of a group as wildcard text. -/
def groupText (s : WildcardSyntax) (run : Char) : List (List Piece) → Result (List Char)
  | [pieces] => sequenceText s run pieces
  | [] | _ :: _ :: _ => .error (.unsupported "alternatives cannot be expressed as a wildcard pattern")

end

/-- A pattern as wildcard text; an end without an anchor is open, so a character for any run stands there. -/
def toWildcard (s : WildcardSyntax) (p : Pattern) : Result String :=
  match p.alternatives, s.anyRun with
  | [], _ => .ok ""
  | _ :: _ :: _, _ => .error (.unsupported "alternatives cannot be expressed as a wildcard pattern")
  | [_], [] => .error (.unsupported "wildcard syntax has no any-run character")
  | [pieces], run :: _ => do
    let (anchoredStart, body) := dropFirst (·.isAnchor .start) pieces
    let (anchoredEnd, body) := dropLast (·.isAnchor .finish) body
    let lead := !anchoredStart && !(body.head?.any (·.isAnyRun))
    let trail := !anchoredEnd && !(body.getLast?.any (·.isAnyRun)) && !(lead && body.isEmpty)
    let shown ← sequenceText s run body
    return String.ofList ((if lead then [run] else []) ++ shown ++ (if trail then [run] else []))

end Pattern
end ItemQuery
