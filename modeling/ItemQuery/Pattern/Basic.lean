import ItemQuery.Number.Integer

/-! Patterns, independent of the syntax they are written in. A pattern is a list of alternatives, an
    alternative a sequence of pieces, and a piece an anchor, a character set, a literal text or a group,
    together with how often it repeats. -/

namespace ItemQuery

/-- Places in a text that a pattern can insist on. -/
inductive Anchor where
  | start
  | finish
  | wordBoundary
deriving DecidableEq, Repr, Inhabited

/-- Predefined character classes. -/
inductive ClassKind where
  /-- Any single character. -/
  | any
  | digit
  | word
  | space
deriving DecidableEq, Repr, Inhabited

/-- An entry of a character set. -/
inductive SetItem where
  | char (c : Char)
  | range (low high : Char)
  | cls (kind : ClassKind)
deriving DecidableEq, Repr, Inhabited

/-- A set of characters, or all characters outside of it. -/
structure CharSet where
  items : List SetItem := []
  inverted : Bool := false
deriving DecidableEq, Repr, Inhabited

/-- How often a piece repeats; without `most` there is no upper bound. -/
structure Repetition where
  least : UInt32
  most : Option UInt32
  greedy : Bool := true
deriving DecidableEq, Repr, Inhabited

/-- One element of a sequence. -/
inductive Piece where
  | anchor (place : Anchor) (count : Repetition)
  | set (chars : CharSet) (count : Repetition)
  | text (value : String) (count : Repetition)
  | group (alternatives : List (List Piece)) (count : Repetition)
deriving Repr, Inhabited

/-- Alternatives of sequences; the right-hand side of a `like`. -/
structure Pattern where
  alternatives : List (List Piece) := []
deriving Repr, Inhabited

/-- The string tests to which many patterns reduce. -/
inductive LikeShape where
  | equals
  | startsWith
  | endsWith
  | contains
deriving DecidableEq, Repr, Inhabited

namespace Repetition

/-- Exactly once. -/
def once : Repetition := ⟨1, some 1, true⟩

/-- Any number of times. -/
def any : Repetition := ⟨0, none, true⟩

/-- Whether the bounds are both one, greedy or not. -/
def isOnce (r : Repetition) : Bool :=
  r.least == 1 && r.most == some 1

/-- Whether there is no bound at all. -/
def isAny (r : Repetition) : Bool :=
  r.least == 0 && r.most == none

end Repetition

namespace CharSet

/-- The set of one class. -/
def ofClass (kind : ClassKind) : CharSet :=
  { items := [.cls kind] }

/-- Whether the set is exactly this class. -/
def isClass (s : CharSet) (kind : ClassKind) : Bool :=
  !s.inverted && s.items == [.cls kind]

/-- The character, when the set is written with a single one. -/
def singleChar? (s : CharSet) : Option Char :=
  if s.inverted then none
  else
    match s.items with
    | [.char c] => some c
    | [.range a b] => if a = b then some a else none
    | _ => none

end CharSet

namespace Piece

/-- How often the piece repeats. -/
def count : Piece → Repetition
  | anchor _ r => r
  | set _ r => r
  | text _ r => r
  | group _ r => r

/-- The piece with another repetition. -/
def withCount (r : Repetition) : Piece → Piece
  | anchor place _ => anchor place r
  | set chars _ => set chars r
  | text value _ => text value r
  | group alternatives _ => group alternatives r

mutual

/-- Equality of pieces. -/
def same : Piece → Piece → Bool
  | anchor a r, anchor b q => a == b && r == q
  | set a r, set b q => a == b && r == q
  | text a r, text b q => a == b && r == q
  | group a r, group b q => sameAlternatives a b && r == q
  | _, _ => false

/-- Equality of sequences. -/
def sameSequence : List Piece → List Piece → Bool
  | [], [] => true
  | p :: ps, q :: qs => same p q && sameSequence ps qs
  | _, _ => false

/-- Equality of lists of sequences. -/
def sameAlternatives : List (List Piece) → List (List Piece) → Bool
  | [], [] => true
  | p :: ps, q :: qs => sameSequence p q && sameAlternatives ps qs
  | _, _ => false

end

/-- Equality of pieces apart from their repetition. -/
def sameKind (a b : Piece) : Bool :=
  same (a.withCount .once) (b.withCount .once)

/-- An anchor, once. -/
def at_ (place : Anchor) : Piece :=
  anchor place .once

/-- A literal text, once. -/
def literal (value : String) : Piece :=
  text value .once

/-- Any run of characters. -/
def anyRun : Piece :=
  set (.ofClass .any) .any

/-- Any single character. -/
def anyChar : Piece :=
  set (.ofClass .any) .once

/-- Whether the piece matches any run of characters. -/
def isAnyRun : Piece → Bool
  | set chars r => chars.isClass .any && r.isAny
  | _ => false

/-- Whether the piece is this anchor, repeated or not. -/
def isAnchor (place : Anchor) : Piece → Bool
  | anchor a _ => a == place
  | _ => false

/-- The text of a literal that occurs once. -/
def literal? : Piece → Option String
  | text value r => if r.isOnce then some value else none
  | _ => none

end Piece

namespace Pattern

instance : BEq Piece := ⟨Piece.same⟩

instance : BEq Pattern := ⟨fun a b => Piece.sameAlternatives a.alternatives b.alternatives⟩

/-- A pattern of one sequence. -/
def ofSequence (pieces : List Piece) : Pattern :=
  ⟨[pieces]⟩

/-- The text as pieces: none for an empty one. -/
def textPieces (value : String) : List Piece :=
  if value.isEmpty then [] else [.literal value]

/-- The pattern that matches exactly this text. -/
def ofText (value : String) : Pattern :=
  ofSequence (.at_ .start :: (textPieces value ++ [.at_ .finish]))

/-- The pattern of a string test. -/
def ofShape (shape : LikeShape) (value : String) : Pattern :=
  let lead := if shape == .endsWith || shape == .contains then [Piece.anyRun] else []
  let trail := if shape == .startsWith || shape == .contains then [Piece.anyRun] else []
  ofSequence (.at_ .start :: (lead ++ textPieces value ++ trail ++ [.at_ .finish]))

/-- Removes the first piece if it satisfies `p`, and tells whether it did. -/
def dropFirst (p : Piece → Bool) : List Piece → Bool × List Piece
  | [] => (false, [])
  | x :: xs => if p x then (true, xs) else (false, x :: xs)

/-- Removes the last piece if it satisfies `p`, and tells whether it did. -/
def dropLast (p : Piece → Bool) (pieces : List Piece) : Bool × List Piece :=
  let (found, rest) := dropFirst p pieces.reverse
  (found, rest.reverse)

/-- The concatenation of pieces that are all literals occurring once. -/
def literalText? : List Piece → Option String
  | [] => some ""
  | p :: ps => p.literal?.bind fun value => (literalText? ps).map (value ++ ·)

/-- The text that is matched, when the pattern has no wildcard at all. -/
def literal? (p : Pattern) : Option String :=
  match p.alternatives with
  | [first :: rest] =>
    match rest.reverse with
    | last :: body =>
      if first.isAnchor .start && last.isAnchor .finish then literalText? body.reverse else none
    | [] => none
  | _ => none

/-- Whether the pattern matches more than one fixed text. -/
def hasWildcards (p : Pattern) : Bool :=
  p.literal?.isNone

/-- The string test to which the pattern reduces, with its text. -/
def shape? (p : Pattern) : Option (LikeShape × String) :=
  match p.alternatives with
  | [pieces] =>
    let (anchoredStart, body) := dropFirst (·.isAnchor .start) pieces
    let (anchoredEnd, body) := dropLast (·.isAnchor .finish) body
    let (runFirst, body) := dropFirst (·.isAnyRun) body
    let (runLast, body) := dropLast (·.isAnyRun) body
    let value? :=
      match body with
      | [] => some ""
      | [piece] => piece.literal?
      | _ => none
    let openStart := runFirst || !anchoredStart
    let openEnd := runLast || !anchoredEnd
    value?.map fun value =>
      (if openStart then (if openEnd then .contains else .endsWith)
        else (if openEnd then .startsWith else .equals), value)
  | _ => none

end Pattern
end ItemQuery
