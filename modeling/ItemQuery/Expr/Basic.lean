import ItemQuery.Arena
import ItemQuery.Calendar.Text
import ItemQuery.Expr.Function
import ItemQuery.Expr.Operator
import ItemQuery.Number.Decimal
import ItemQuery.Pattern.Regex
import ItemQuery.Text.Quoted

/-! Expressions: the criteria, select entries and sort keys of a query. -/

namespace ItemQuery

/-- A property of a table. -/
structure PropertyRef where
  table : TableId
  name : String
deriving DecidableEq, Repr, Inhabited

/-- The name of a parameter, or its place from zero. -/
inductive ParamName where
  | named (name : String)
  | positional (index : Nat)
deriving DecidableEq, Repr, Inhabited

/-- The name or the number. -/
def ParamName.text : ParamName → String
  | named name => name
  | positional index => toString index

/-- A value of known type. -/
inductive Literal where
  | bool (value : Bool)
  | integer (value : Int64)
  | float (value : Float)
  | string (value : String)
  | dateTime (value : DateTime)
deriving DecidableEq, Inhabited

/-- A text whose type is that of a property; it is converted when the type is known. -/
structure ObjectLiteral where
  value : String
  property : Option PropertyRef := none
deriving DecidableEq, Repr, Inhabited

/-- An expression. -/
inductive Expr where
  | literal (value : Literal)
  | object (value : ObjectLiteral)
  /-- A placeholder; a raw one is replaced by its value without quotes. -/
  | parameter (name : ParamName) (default : Option Expr) (raw : Bool)
  | property (ref : PropertyRef)
  /-- All properties of a table, with the dynamic ones if extended. -/
  | allProperties (table : TableId) (extended : Bool)
  | list (items : List Expr)
  | pattern (value : Pattern)
  | comparison (op : ComparisonOp) (left right : Expr)
  | like (left pattern : Expr) (negated : Bool)
  /-- Normalization records the one table of the operands. -/
  | between (left low high : Expr) (negated : Bool) (table : Option TableId)
  | inList (left : Expr) (items : List Expr) (negated : Bool) (table : Option TableId)
  | is (left : Expr) (operand : IsOperand)
  | arithmetic (op : ArithmeticOp) (left right : Expr)
  | negate (operand : Expr)
  | not (operand : Expr)
  | logical (op : LogicalOp) (left right : Expr)
  | call (function : Function) (args : List Expr)
deriving Inhabited

namespace Literal

/-- Equality as numbers: zero has no sign, and what is not a number equals nothing. -/
def same : Literal → Literal → Bool
  | float a, float b => a == b
  | a, b => a == b

/-- The text of a literal in expressions and messages. -/
def display : Literal → String
  | bool b => if b then "true" else "false"
  | integer n => Number.int64Text n
  | float x => Number.floatText x
  | string s => Text.quoted s
  | dateTime t => "'" ++ t.isoText ++ "'"

/-- The number, if it is one. -/
def float? : Literal → Option Float
  | integer n => some n.toFloat
  | float x => some x
  | _ => none

/-- The order of two literals of one kind; numbers are one kind. -/
def compare? : Literal → Literal → Option Ordering
  | integer a, integer b => some (compare a.toInt b.toInt)
  | string a, string b => some (compare a b)
  | bool a, bool b => some (compare a b)
  | dateTime a, dateTime b => some (DateTime.compare a b)
  | a, b =>
    match a.float?, b.float? with
    | some x, some y => if x < y then some .lt else if x == y then some .eq else if y < x then some .gt else none
    | _, _ => none

end Literal

namespace Expr

/-! ### Constructors -/

/-- A text literal. -/
def text (value : String) : Expr := literal (.string value)

/-- An integer literal. -/
def int (value : Int64) : Expr := literal (.integer value)

/-- A truth value. -/
def bool (value : Bool) : Expr := literal (.bool value)

/-- A property of a table. -/
def prop (table : TableId) (name : String) : Expr := property ⟨table, name⟩

/-- Both expressions. -/
def and (left right : Expr) : Expr := logical .and left right

/-- Either expression. -/
def or (left right : Expr) : Expr := logical .or left right

/-! ### Classification -/

/-- The binding strength of the outermost operator. -/
def precedence : Expr → Precedence
  | logical op _ _ => op.precedence
  | not _ => .not
  | comparison _ _ _ | like _ _ _ | between _ _ _ _ _ | inList _ _ _ _ | is _ _ => .comparison
  | arithmetic op _ _ => op.precedence
  | negate _ => .negation
  | _ => .parentheses

/-- Whether the expression is a value, typed or not. -/
def isLiteral : Expr → Bool
  | literal _ | object _ => true
  | _ => false

/-- Whether the expression yields a truth value. -/
def isPredicate : Expr → Bool
  | literal (.bool _) => true
  | comparison _ _ _ | like _ _ _ | between _ _ _ _ _ | inList _ _ _ _ | is _ _ | not _ | logical _ _ _ => true
  | call f _ => f.isPredicate
  | _ => false

/-- The property, if the expression is one. -/
def property? : Expr → Option PropertyRef
  | property p => some p
  | _ => none

/-! ### Structure -/

/-- The direct parts, from left to right. -/
def children : Expr → List Expr
  | parameter _ default _ => default.toList
  | list items => items
  | comparison _ l r | arithmetic _ l r | logical _ l r => [l, r]
  | like l p _ => [l, p]
  | between l low high _ _ => [l, low, high]
  | inList l items _ _ => l :: items
  | is l _ => [l]
  | negate e | not e => [e]
  | call _ args => args
  | _ => []

mutual

/-- The property references of the tree, in order. -/
def properties : Expr → List PropertyRef
  | property p => [p]
  | object o => o.property.toList
  | parameter _ default _ => optionProperties default
  | list items => listProperties items
  | comparison _ l r | arithmetic _ l r | logical _ l r => l.properties ++ r.properties
  | like l p _ => l.properties ++ p.properties
  | between l low high _ _ => l.properties ++ low.properties ++ high.properties
  | inList l items _ _ => l.properties ++ listProperties items
  | is l _ => l.properties
  | negate e | not e => e.properties
  | call _ args => listProperties args
  | literal _ | allProperties _ _ | pattern _ => []

/-- The property references of an optional expression. -/
def optionProperties : Option Expr → List PropertyRef
  | none => []
  | some e => e.properties

/-- The property references of a list. -/
def listProperties : List Expr → List PropertyRef
  | [] => []
  | e :: es => e.properties ++ listProperties es

end

mutual

/-- The tables named by properties and by `*`, in order and with repetitions. The property of an untyped
    value does not count. -/
def tableRefs : Expr → List TableId
  | property p => [p.table]
  | allProperties table _ => [table]
  | parameter _ default _ => optionTableRefs default
  | list items => listTableRefs items
  | comparison _ l r | arithmetic _ l r | logical _ l r => l.tableRefs ++ r.tableRefs
  | like l p _ => l.tableRefs ++ p.tableRefs
  | between l low high _ _ => l.tableRefs ++ low.tableRefs ++ high.tableRefs
  | inList l items _ _ => l.tableRefs ++ listTableRefs items
  | is l _ => l.tableRefs
  | negate e | not e => e.tableRefs
  | call _ args => listTableRefs args
  | literal _ | object _ | pattern _ => []

/-- The tables of an optional expression. -/
def optionTableRefs : Option Expr → List TableId
  | none => []
  | some e => e.tableRefs

/-- The tables of a list. -/
def listTableRefs : List Expr → List TableId
  | [] => []
  | e :: es => e.tableRefs ++ listTableRefs es

end

/-- Inserts a handle into an ordered list without repetitions. -/
def insertTable (id : TableId) : List TableId → List TableId
  | [] => [id]
  | other :: rest =>
    match id.compare other with
    | .lt => id :: other :: rest
    | .eq => other :: rest
    | .gt => other :: insertTable id rest

/-- The tables of the tree, ordered and without repetitions. -/
def tables (e : Expr) : List TableId :=
  e.tableRefs.foldl (fun acc id => insertTable id acc) []

mutual

/-- Replaces every table handle. -/
def mapTables (f : TableId → TableId) : Expr → Expr
  | property p => property { p with table := f p.table }
  | allProperties table extended => allProperties (f table) extended
  | object o => object { o with property := o.property.map fun p => { p with table := f p.table } }
  | parameter name default raw => parameter name (optionMapTables f default) raw
  | list items => list (listMapTables f items)
  | comparison op l r => comparison op (l.mapTables f) (r.mapTables f)
  | like l p negated => like (l.mapTables f) (p.mapTables f) negated
  | between l low high negated table =>
    between (l.mapTables f) (low.mapTables f) (high.mapTables f) negated (table.map f)
  | inList l items negated table => inList (l.mapTables f) (listMapTables f items) negated (table.map f)
  | is l operand => is (l.mapTables f) operand
  | arithmetic op l r => arithmetic op (l.mapTables f) (r.mapTables f)
  | negate e => negate (e.mapTables f)
  | not e => not (e.mapTables f)
  | logical op l r => logical op (l.mapTables f) (r.mapTables f)
  | call function args => call function (listMapTables f args)
  | literal value => literal value
  | pattern value => pattern value

/-- Replaces the handles of an optional expression. -/
def optionMapTables (f : TableId → TableId) : Option Expr → Option Expr
  | none => none
  | some e => some (e.mapTables f)

/-- Replaces the handles of a list. -/
def listMapTables (f : TableId → TableId) : List Expr → List Expr
  | [] => []
  | e :: es => e.mapTables f :: listMapTables f es

end

/-! ### Chains of one connective -/

/-- The expressions joined from the left; none for no expression. -/
def joinAll (op : LogicalOp) : List Expr → Option Expr
  | [] => none
  | e :: es => some (es.foldl (logical op) e)

/-- The conjunction of all; none for no expression. -/
def allOf (es : List Expr) : Option Expr := joinAll .and es

/-- The disjunction of all; none for no expression. -/
def anyOf (es : List Expr) : Option Expr := joinAll .or es

/-- The operands of a chain of one connective, from left to right. -/
def flatten (op : LogicalOp) : Expr → List Expr
  | logical inner l r => if inner = op then l.flatten op ++ r.flatten op else [logical inner l r]
  | e => [e]

/-! ### Equality -/

mutual

/-- Equality of trees, with numbers compared as numbers. -/
def same : Expr → Expr → Bool
  | literal a, literal b => a.same b
  | object a, object b => a == b
  | parameter n d r, parameter m e q => n == m && optionSame d e && r == q
  | property p, property q => p == q
  | allProperties t x, allProperties u y => t == u && x == y
  | list xs, list ys => listSame xs ys
  | pattern p, pattern q => p == q
  | comparison o l r, comparison p m s => o == p && l.same m && r.same s
  | like l p n, like m q k => l.same m && p.same q && n == k
  | between l a b n t, between m c d k u => l.same m && a.same c && b.same d && n == k && t == u
  | inList l xs n t, inList m ys k u => l.same m && listSame xs ys && n == k && t == u
  | is l o, is m p => l.same m && o == p
  | arithmetic o l r, arithmetic p m s => o == p && l.same m && r.same s
  | negate e, negate f => e.same f
  | not e, not f => e.same f
  | logical o l r, logical p m s => o == p && l.same m && r.same s
  | call f xs, call g ys => f == g && listSame xs ys
  | _, _ => false

/-- Equality of optional trees. -/
def optionSame : Option Expr → Option Expr → Bool
  | none, none => true
  | some e, some f => e.same f
  | _, _ => false

/-- Equality of lists of trees. -/
def listSame : List Expr → List Expr → Bool
  | [], [] => true
  | e :: es, f :: fs => e.same f && listSame es fs
  | _, _ => false

end

instance : BEq Expr := ⟨same⟩

/-! ### Text -/

/-- An operand of an operator of level `parent`, in parentheses if it needs them. -/
def enclose (parent : Precedence) (child : Expr) (rightSide associative : Bool) (shown : String) : String :=
  if parent.needsParens child.precedence rightSide associative then "(" ++ shown ++ ")" else shown

/-- A word, after `not` if negated. -/
def negatable (negated : Bool) (word : String) : String :=
  if negated then "not " ++ word else word

mutual

/-- The text of an expression in messages; tables have their slot as name. -/
def display : Expr → String
  | literal value => value.display
  | object o => Text.quoted o.value
  | parameter name _ _ => "@" ++ name.text
  | property p => p.table.name ++ "." ++ p.name
  | allProperties table _ => table.name ++ ".*"
  | list items => "(" ++ ", ".intercalate (displays items) ++ ")"
  | pattern value => value.display
  | comparison op l r =>
    enclose .comparison l false false l.display ++ " " ++ op.symbol ++ " "
      ++ enclose .comparison r true false r.display
  | like l p negated =>
    enclose .comparison l false false l.display ++ " " ++ negatable negated "like" ++ " "
      ++ enclose .comparison p true false p.display
  | between l low high negated _ =>
    enclose .comparison l false false l.display ++ " " ++ negatable negated "between" ++ " "
      ++ enclose .subComparison low false false low.display ++ " and "
      ++ enclose .subComparison high true false high.display
  | inList l items negated _ =>
    enclose .comparison l false false l.display ++ " " ++ negatable negated "in" ++ " ("
      ++ ", ".intercalate (displays items) ++ ")"
  | is l operand => enclose .comparison l false false l.display ++ " " ++ operand.condition
  | arithmetic op l r =>
    enclose op.precedence l false op.isAssociative l.display ++ " " ++ op.symbol ++ " "
      ++ enclose op.precedence r true op.isAssociative r.display
  | negate e => "-" ++ enclose .negation e true false e.display
  | not e => "not " ++ enclose .not e true true e.display
  | logical op l r =>
    enclose op.precedence l false true l.display ++ " " ++ op.keyword ++ " "
      ++ enclose op.precedence r true true r.display
  | call function args => function.name ++ "(" ++ ", ".intercalate (displays args) ++ ")"

/-- The texts of a list. -/
def displays : List Expr → List String
  | [] => []
  | e :: es => e.display :: displays es

end

end Expr
end ItemQuery
