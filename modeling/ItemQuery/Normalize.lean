import ItemQuery.Query.Basic

/-! The canonical form of criteria. A node is simplified after its parts, by rules that look at one node at a
    time; negations move down to the tests, constants are folded, and a property stands on the left of its
    comparison. -/

namespace ItemQuery
namespace Expr

/-! ### Rules for one node -/

/-- A property where a truth value is expected asks whether it is true. -/
def asCondition : Expr → Expr
  | property p => comparison .eq (property p) (bool true)
  | e => e

/-- The opposite criterion, with the negation at the tests that have an opposite. -/
def opposite : Expr → Expr
  | literal (.bool b) => bool (!b)
  | not e => e
  | comparison op l r => comparison op.negate l r
  | like l p negated => like l p (!negated)
  | between l low high negated table => between l low high (!negated) table
  | inList l items negated table => inList l items (!negated) table
  | is l operand => is l operand.negate
  | logical op l r => logical op.dual l.opposite r.opposite
  | e => not e.asCondition

/-- Joins two criteria, leaving out truth values. -/
def connect : LogicalOp → Expr → Expr → Expr
  | .and, literal (.bool true), e => e
  | .and, e, literal (.bool true) => e
  | .and, literal (.bool false), _ => bool false
  | .and, _, literal (.bool false) => bool false
  | .or, literal (.bool false), e => e
  | .or, e, literal (.bool false) => e
  | .or, literal (.bool true), _ => bool true
  | .or, _, literal (.bool true) => bool true
  | op, l, r => logical op l r

/-- The value of an operation on two integers, if it is in range. -/
def foldIntegers (op : ArithmeticOp) (a b : Int64) : Option Int64 :=
  match op with
  | .add => Number.add? a b
  | .sub => Number.sub? a b
  | .mul => Number.mul? a b
  | .div => Number.div? a b
  | .mod => Number.rem? a b
  | .concat => none

/-- The value of an operation on two numbers; nothing is divided by zero. -/
def foldFloats (op : ArithmeticOp) (a b : Float) : Option Float :=
  match op with
  | .add => some (a + b)
  | .sub => some (a - b)
  | .mul => some (a * b)
  | .div => if b != 0 then some (a / b) else none
  | .mod => if b != 0 then some (Number.remainder a b) else none
  | .concat => none

/-- The value of an operation on two literals, if it has one. -/
def foldLiterals (op : ArithmeticOp) : Literal → Literal → Option Literal
  | .integer a, .integer b => (foldIntegers op a b).map .integer
  | .string a, .string b => if op = .add ∨ op = .concat then some (.string (a ++ b)) else none
  | a, b =>
    match a.float?, b.float? with
    | some x, some y => (foldFloats op x y).map .float
    | _, _ => none

/-- An operation, folded if both sides are literals. -/
def foldArithmetic (op : ArithmeticOp) : Expr → Expr → Expr
  | literal a, literal b => (foldLiterals op a b).elim (arithmetic op (literal a) (literal b)) literal
  | l, r => arithmetic op l r

/-- The opposite number, folded if it is a literal. -/
def foldNegate : Expr → Expr
  | literal (.integer n) => (Number.neg? n).elim (negate (int n)) int
  | literal (.float x) => literal (.float (-x))
  | negate e => e
  | e => negate e

/-- Whether the operands of a comparison are swapped: a property goes to the left of anything else, and a
    call to the left of a value. -/
def swaps : Expr → Expr → Bool
  | property _, property _ => false
  | _, property _ => true
  | l, call _ _ => l.isLiteral
  | _, _ => false

/-- A comparison of the place of a text in another as a test of the text. -/
def placeTest (op : ComparisonOp) (args : List Expr) (place : Int64) : Expr :=
  let unchanged := comparison op (call .indexOf args) (int place)
  match args with
  | [_, _] =>
    match op, place.toInt with
    | .eq, 0 => call .startsWith args
    | .eq, -1 => not (call .contains args)
    | .ne, -1 => call .contains args
    | .gt, -1 => call .contains args
    | .ge, 0 => call .contains args
    | _, _ => unchanged
  | _ => unchanged

/-- A comparison whose operands are in their order and not both literals. -/
def simplifyOrdered (op : ComparisonOp) (l r : Expr) : Expr :=
  let unchanged := comparison op l r
  match l, r with
  | l, literal (.bool flag) =>
    if l.isPredicate && (op == .eq || op == .ne) then
      if flag == (op == .eq) then l else l.opposite
    else unchanged
  | arithmetic .add (call .indexOf args) (literal (.integer k)), literal (.integer c) =>
    match Number.sub? c k with
    | some shifted => placeTest op args shifted
    | none => unchanged
  | call .indexOf args, literal (.integer c) => placeTest op args c
  | _, _ => unchanged

/-- A comparison in canonical form. -/
def simplifyComparison (op : ComparisonOp) (l r : Expr) : Expr :=
  match l, r with
  | literal a, literal b =>
    match a.compare? b with
    | some order => bool (op.holds order)
    | none => simplifyOrdered op l r
  | _, _ => if swaps l r then simplifyOrdered op.flip r l else simplifyOrdered op l r

/-- A `like` in canonical form: an equality if its pattern has no wildcard. -/
def simplifyLike (l p : Expr) (negated : Bool) : Expr :=
  match p with
  | pattern value =>
    match value.simplify.literal? with
    | some s => comparison (if negated then .ne else .eq) l (text s)
    | none => like l (pattern value.simplify) negated
  | _ => like l p negated

/-- The one table that the operands of `operator` refer to, if they refer to any. -/
def singleTable (operator : String) (operands : List Expr) : Result (Option TableId) :=
  match operands.flatMap tables with
  | [] => .ok none
  | first :: rest =>
    match rest.find? (· != first) with
    | none => .ok (some first)
    | some other =>
      .error (.ambiguous ("'" ++ operator ++ "' refers to more than one table (" ++ first.name ++ " and "
        ++ other.name ++ ")"))

/-! ### Whole trees -/

mutual

/-- Simplifies all nodes of a tree, parts first. -/
def normalizeTree : Expr → Result Expr
  | literal value => .ok (literal value)
  | object value => .ok (object value)
  | parameter name default raw => do return parameter name (← normalizeOption default) raw
  | property p => .ok (property p)
  | allProperties table extended => .ok (allProperties table extended)
  | list items => do return list (← normalizeList items)
  | pattern value => .ok (pattern value)
  | comparison op l r => do
    let l ← l.normalizeTree
    let r ← r.normalizeTree
    return simplifyComparison op l r
  | like l p negated => do
    let l ← l.normalizeTree
    let p ← p.normalizeTree
    return simplifyLike l p negated
  | between l low high negated _ => do
    let l ← l.normalizeTree
    let low ← low.normalizeTree
    let high ← high.normalizeTree
    let table ← singleTable "between" [l, low, high]
    return between l low high negated table
  | inList l items negated _ => do
    let l ← l.normalizeTree
    let items ← normalizeList items
    let table ← singleTable "in" (l :: items)
    return inList l items negated table
  | is l operand => do return is (← l.normalizeTree) operand
  | arithmetic op l r => do
    let l ← l.normalizeTree
    let r ← r.normalizeTree
    return foldArithmetic op l r
  | negate e => do return foldNegate (← e.normalizeTree)
  | not e => do return (← e.normalizeTree).asCondition.opposite
  | logical op l r => do
    let l ← l.normalizeTree
    let r ← r.normalizeTree
    return connect op l.asCondition r.asCondition
  | call function args => do return call function (← normalizeList args)

/-- Simplifies an optional tree. -/
def normalizeOption : Option Expr → Result (Option Expr)
  | none => .ok none
  | some e => do return some (← e.normalizeTree)

/-- Simplifies the trees of a list. -/
def normalizeList : List Expr → Result (List Expr)
  | [] => .ok []
  | e :: es => do
    let e ← e.normalizeTree
    return e :: (← normalizeList es)

end

/-- The canonical form of a criterion. -/
def normalize (e : Expr) : Result Expr :=
  e.normalizeTree.map asCondition

end Expr

namespace Query

/-- Normalizes the filters of the given tables in turn. A filter that fails is lost, and the tables after it
    are left as they are. -/
def normalizeTables (q : Query) : List TableId → Query × Option QueryError
  | [] => (q, none)
  | id :: ids =>
    match (q.get? id).bind (·.filter) with
    | none => q.normalizeTables ids
    | some e =>
      match e.normalize with
      | .ok n => (q.modify id fun item => { item with filter := some n }).normalizeTables ids
      | .error err => (q.modify id fun item => { item with filter := none }, some err)

/-- Normalizes the filter of every table; gives the query as it is after the first failure too. -/
def normalizeAll (q : Query) : Query × Option QueryError :=
  q.normalizeTables q.arena.ids

/-- The query with all filters normalized. -/
def normalize (q : Query) : Result Query :=
  match q.normalizeAll with
  | (q, none) => .ok q
  | (_, some e) => .error e

end Query
end ItemQuery
