import ItemQuery.Pattern.Basic

/-! The canonical form of a pattern: a set of one character is a literal, a group of one alternative that
    occurs once is part of its sequence, neighbouring literals are one literal, and equal neighbours are
    one piece with the sum of their repetitions. -/

namespace ItemQuery
namespace Piece

/-- The sum of two repetitions of one piece; none if a bound gets out of range. -/
def sum? (a b : Repetition) : Option Repetition :=
  match Number.addCounts? a.least b.least, a.most, b.most with
  | none, _, _ => none
  | some least, some x, some y => (Number.addCounts? x y).map fun most => ⟨least, some most, a.greedy⟩
  | some least, _, _ => some ⟨least, none, a.greedy⟩

/-- The one piece that two neighbours make, if they do. -/
def merge? (a b : Piece) : Option Piece :=
  match a, b with
  | text x r, text y q =>
    if r.isOnce && q.isOnce then some (text (x ++ y) r)
    else if x == y && r.greedy == q.greedy then (sum? r q).map (text x)
    else none
  | anchor x r, anchor y q => if r.isOnce && q.isOnce && x == y then some (anchor x r) else none
  | anchor _ _, _ => none
  | _, _ =>
    if sameKind a b && a.count.greedy == b.count.greedy then (sum? a.count b.count).map (a.withCount ·) else none

/-- Appends a piece to a sequence given in reverse, merging it into the last one if possible. -/
def pushMerged (reversed : List Piece) (next : Piece) : List Piece :=
  match reversed with
  | [] => [next]
  | last :: before =>
    match merge? last next with
    | some merged => merged :: before
    | none => next :: last :: before

mutual

/-- The pieces that stand for one piece. -/
def simplified : Piece → List Piece
  | anchor place r => [anchor place r]
  | set chars r =>
    match chars.singleChar? with
    | some c => [text c.toString r]
    | none => [set chars r]
  | text value r => if value.isEmpty then [] else [text value r]
  | group alternatives r =>
    match simplifiedAlternatives alternatives with
    | [only] => if r.isOnce then only else [group [only] r]
    | several => [group several r]

/-- Simplifies a sequence from the left; `reversed` holds what is done. -/
def simplifiedSequence (reversed : List Piece) : List Piece → List Piece
  | [] => reversed.reverse
  | p :: ps => simplifiedSequence ((simplified p).foldl pushMerged reversed) ps

/-- Simplifies every alternative. -/
def simplifiedAlternatives : List (List Piece) → List (List Piece)
  | [] => []
  | s :: ss => simplifiedSequence [] s :: simplifiedAlternatives ss

end

end Piece

/-- The canonical form of a pattern. -/
def Pattern.simplify (p : Pattern) : Pattern :=
  ⟨Piece.simplifiedAlternatives p.alternatives⟩

end ItemQuery
