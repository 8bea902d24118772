import ItemQuery.Expr.Basic
import ItemQuery.Pattern.Wildcard
import ItemQuery.Xml.Element
import ItemQuery.Xml.Writer

/-! Conditions of stored queries, which are XML fragments: an element per operator, and elements for
    properties, constants and parameters as operands. -/

namespace ItemQuery.StoredQuery

open Xml (Element Event)

/-- The tables that a condition can speak of: its own, and that of the item it is referenced from. -/
structure Scope where
  table : TableId
  parent : Option TableId := none
deriving DecidableEq, Repr, Inhabited

/-- The path by which a property is said to belong to the parent. -/
def parentPath : String :=
  "parent::Item"

/-! ### Reading -/

/-- Where an element stands; properties, constants and parameters are operands only. -/
inductive Position where
  | criterion
  | operand
deriving DecidableEq, Repr, Inhabited

/-- Makes constants values of the property on the left. -/
def bindConstant (left : Expr) (value : Expr) : Expr :=
  match left, value with
  | .property p, .object { value, property := none } => .object { value, property := some p }
  | _, _ => value

/-- All results, or the first failure. -/
def sequence : List (Result Expr) → Result (List Expr)
  | [] => .ok []
  | r :: rs => do
    let first ← r
    let rest ← sequence rs
    return first :: rest

/-- The two operands of an operator; a constant on either side of a property becomes a value of it. -/
def binaryOperands (name : String) (operands : List (Result Expr)) : Result (Expr × Expr) := do
  match ← sequence operands with
  | [left, right] =>
    let right := bindConstant left right
    let left := match left, right with
      | .object o, .property p => Expr.object { value := o.value, property := some p }
      | _, _ => left
    return (left, right)
  | _ => .error (.unsupported ("<" ++ name ++ "> needs two operands"))

/-- A comparison with null. -/
def nullTest (op : ComparisonOp) (operand : Result Expr) : Result Expr :=
  match op with
  | .eq => operand.map fun e => .is e .null
  | .ne => operand.map fun e => .is e .notNull
  | _ => .error (.unsupported ("'" ++ op.symbol ++ "' with null"))

/-- A comparison of operands with these names. If one of them is null, the other one is tested. -/
def comparison (op : ComparisonOp) (names : List String) (operands : List (Result Expr)) : Result Expr :=
  if names.contains "null" then
    match names, operands with
    | "null" :: _, _ :: other :: _ => nullTest op other
    | "null" :: _, _ => .error (.unsupported "comparison of null with null")
    | _, other :: _ => nullTest op other
    | _, [] => .error (.unsupported "comparison of null with null")
  else do
    let (left, right) ← binaryOperands op.name operands
    return .comparison op left right

/-- The right side of a `like`: a constant is read with the wildcards of SQL. -/
def likePattern : Expr → Result Expr
  | .object o => (Pattern.ofWildcard .sqlServer o.value).map .pattern
  | e => .ok e

/-- A property of the table or of its parent. -/
def Scope.property (scope : Scope) (e : Element) : Result Expr :=
  match e.attribute? "name" with
  | none => .error (.unsupported "<property> without a name")
  | some name =>
    match (e.attribute? "query_items_xpath").getD "" with
    | "" => .ok (.prop scope.table name)
    | path =>
      if path = parentPath then
        match scope.parent with
        | some parent => .ok (.prop parent name)
        | none => .error (.ambiguous "parent::Item outside of a query reference")
      else .error (.unsupported ("query_items_xpath '" ++ path ++ "'"))

/-- A parameter. -/
def parameterOperand (e : Element) : Result Expr :=
  match e.attribute? "name" with
  | none => .error (.unsupported "<parameter> without a name")
  | some name => .ok (.parameter (.named name) none false)

/-- Whether the children of an element are criteria or operands. -/
def innerPosition (name : String) : Position :=
  if name = "and" ∨ name = "or" ∨ name = "not" then .criterion else .operand

/-- The expression of an operator element, given the names and the expressions of its children. -/
def operatorExpr (name : String) (names : List String) (operands : List (Result Expr)) : Result Expr :=
  match name with
  | "and" => do
    match Expr.allOf (← sequence operands) with
    | some e => return e
    | none => .error (.unsupported "empty <and>")
  | "or" => do
    match Expr.anyOf (← sequence operands) with
    | some e => return e
    | none => .error (.unsupported "empty <or>")
  | "not" =>
    match operands with
    | [inner] => inner.map .not
    | _ => .error (.unsupported "<not> needs exactly one operand")
  | "like" => do
    let (left, right) ← binaryOperands "like" operands
    return .like left (← likePattern right) false
  | "in" => do
    match ← sequence operands with
    | [] => .error (.unsupported "<in> without operands")
    | left :: items => return .inList left (items.map (bindConstant left)) false none
  | "between" => do
    match ← sequence operands with
    | [left, low, high] => return .between left (bindConstant left low) (bindConstant left high) false none
    | _ => .error (.unsupported "<between> needs three operands")
  | _ =>
    match ComparisonOp.ofName? name with
    | some op => comparison op names operands
    | none => .error (.unsupported ("condition element <" ++ name ++ ">"))

mutual

/-- The expression of an element. -/
def readElement (scope : Scope) (position : Position) : Element → Result Expr
  | .node name attributes children text =>
    let e := Element.node name attributes children text
    if position = .operand ∧ name = "property" then scope.property e
    else if position = .operand ∧ name = "constant" then .ok (.object { value := text })
    else if position = .operand ∧ name = "parameter" then parameterOperand e
    else
      operatorExpr name (children.map (·.name)) (readElements scope (innerPosition name) children)

/-- The expressions of elements, each of which can fail. -/
def readElements (scope : Scope) (position : Position) : List Element → List (Result Expr)
  | [] => []
  | e :: es => readElement scope position e :: readElements scope position es

end

/-- The criterion of a condition element; an empty one has none. Any other element is a criterion itself. -/
def readCondition (scope : Scope) (root : Element) : Result (Option Expr) := do
  if root.name = "condition" then
    return Expr.allOf (← sequence (readElements scope .criterion root.children))
  else return some (← readElement scope .criterion root)

/-- Reads the text of a condition; a blank one has no criterion. -/
def parseCondition (scope : Scope) (source : String) : Result (Option Expr) := do
  if (Text.trim source).isEmpty then return none
  else readCondition scope (← Element.parse source)

/-! ### Writing -/

/-- A constant. -/
def constant (value : String) : List Event :=
  Event.leaf "constant" value

/-- An operand. -/
def operandEvents (scope : Scope) : Expr → Result (List Event)
  | .property p =>
    let named := Event.attr "name" p.name
    if p.table = scope.table then .ok (Event.element "property" named)
    else if scope.parent = some p.table then
      .ok (Event.element "property" (named ++ Event.attr "query_items_xpath" parentPath))
    else .error (.unsupported ("property '" ++ p.name ++ "' of another query item"))
  | .parameter name _ _ => .ok (Event.element "parameter" (Event.attr "name" name.text))
  | .object o => .ok (constant o.value)
  | .literal (.string s) => .ok (constant s)
  | .literal (.integer n) => .ok (constant (Number.int64Text n))
  | .literal (.float x) => .ok (constant (Number.floatText x))
  | .literal (.bool b) => .ok (constant (if b then "1" else "0"))
  | .literal (.dateTime t) => .ok (constant t.isoText)
  | .pattern p => (Pattern.toWildcard .sqlServer p).map constant
  | e => .error (.unsupported ("operand '" ++ e.display ++ "' in a query definition"))

/-- An operator with its operands. -/
def operatorEvents (scope : Scope) (name : String) (operands : List Expr) : Result (List Event) := do
  let inner ← operands.mapM (operandEvents scope)
  return Event.element name inner.flatten

/-- Events inside of a negation, if negated. -/
def negatedEvents (negated : Bool) (events : List Event) : List Event :=
  if negated then Event.element "not" events else events

/-- A test for null. -/
def nullEvents (scope : Scope) (e : Expr) (wantsNull : Bool) : Result (List Event) := do
  let inner ← operandEvents scope e
  return Event.element (if wantsNull then "eq" else "ne") (inner ++ Event.element "null" [])

/-- A criterion inside a chain of a connective; an operand of the same connective joins the chain. Nothing is
    written for a truth, and for a falsehood that the id is null. -/
def criterionEvents (scope : Scope) (chain : Option LogicalOp) : Expr → Result (List Event)
  | .logical op l r => do
    let left ← criterionEvents scope (some op) l
    let right ← criterionEvents scope (some op) r
    return if chain = some op then left ++ right else Event.element op.keyword (left ++ right)
  | .not e => do return Event.element "not" (← criterionEvents scope none e)
  | .comparison op l r => operatorEvents scope op.name [l, r]
  | .like l p negated => (operatorEvents scope "like" [l, p]).map (negatedEvents negated)
  | .between l low high negated _ => (operatorEvents scope "between" [l, low, high]).map (negatedEvents negated)
  | .inList l items negated _ => (operatorEvents scope "in" (l :: items)).map (negatedEvents negated)
  | .is l operand => nullEvents scope l operand.wantsNull
  | .literal (.bool true) => .ok []
  | .literal (.bool false) => nullEvents scope (.prop scope.table "id") true
  | .property p => operatorEvents scope "eq" [.property p, .bool true]
  | e => .error (.unsupported ("condition '" ++ e.display ++ "' in a query definition"))

/-- The condition element of criteria that all have to hold. -/
def conditionEvents (scope : Scope) (terms : List Expr) : Result (List Event) := do
  let inner ← terms.mapM (criterionEvents scope none)
  match inner with
  | [single] => return Event.element "condition" single
  | _ => return Event.element "condition" (Event.element "and" inner.flatten)

/-- The condition text of criteria that all have to hold. -/
def conditionText (scope : Scope) (terms : List Expr) : Result String := do
  Xml.write (← conditionEvents scope terms)

end ItemQuery.StoredQuery
