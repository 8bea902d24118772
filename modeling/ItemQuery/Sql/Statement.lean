import ItemQuery.Coercion
import ItemQuery.Sql.Alias
import ItemQuery.Sql.InLists

/-! Queries as SQL. Foreign keys become joins; a relationship becomes an `exists` criterion on the table it
    starts from. -/

namespace ItemQuery

namespace Expr

/-- The place after a place; a literal or a difference of one is simplified. -/
def nextPlace : Expr → Expr
  | literal (.integer n) => int ((Number.add? n 1).getD n)
  | arithmetic .sub l (literal (.integer n)) =>
    if n = 1 then l else arithmetic .add (arithmetic .sub l (int n)) (int 1)
  | e => arithmetic .add e (int 1)

/-- The start of a `substring` counted from one. -/
def oneBasedArgs : Function → List Expr → List Expr
  | .substring, [s, start, count] => [s, start.nextPlace, count]
  | _, args => args

mutual

/-- The expression with the starts of all `substring` calls counted from one, as SQL does. -/
def oneBased : Expr → Expr
  | parameter name default raw => parameter name (optionOneBased default) raw
  | list items => list (listOneBased items)
  | comparison op l r => comparison op l.oneBased r.oneBased
  | like l p negated => like l.oneBased p.oneBased negated
  | between l low high negated table => between l.oneBased low.oneBased high.oneBased negated table
  | inList l items negated table => inList l.oneBased (listOneBased items) negated table
  | is l operand => is l.oneBased operand
  | arithmetic op l r => arithmetic op l.oneBased r.oneBased
  | negate e => negate e.oneBased
  | not e => not e.oneBased
  | logical op l r => logical op l.oneBased r.oneBased
  | call function args => call function (oneBasedArgs function (listOneBased args))
  | literal value => literal value
  | object value => object value
  | property p => property p
  | allProperties table extended => allProperties table extended
  | pattern value => pattern value

/-- Counts from one in an optional expression. -/
def optionOneBased : Option Expr → Option Expr
  | none => none
  | some e => some e.oneBased

/-- Counts from one in a list. -/
def listOneBased : List Expr → List Expr
  | [] => []
  | e :: es => e.oneBased :: listOneBased es

end

end Expr

namespace Sql

/-- What a statement depends on besides its clauses. -/
structure Writer where
  ctx : Context
  query : Query
  dialect : Dialect
  aliases : Aliases

/-- A writer for a query in a dialect. -/
def Writer.make (ctx : Context) (q : Query) (dialect : Dialect) : Result Writer := do
  return { ctx, query := q, dialect, aliases := ← Aliases.ofQuery ctx q }

namespace Writer

/-! ### Expressions -/

/-- A property of a table. -/
def column (w : Writer) (p : PropertyRef) : String :=
  w.aliases.name p.table ++ "." ++ w.dialect.identifier p.name

/-- A text where a condition is expected: a property is compared, and a truth value becomes a comparison. -/
def asCondition (w : Writer) (e : Expr) (shown : String) : String :=
  match e with
  | .literal (.bool true) => "1 = 1"
  | .literal (.bool false) => "1 = 0"
  | .property _ => shown ++ " = " ++ w.dialect.boolLiteral true
  | _ => shown

/-- An operand of a connective. -/
def conditionOperand (w : Writer) (parent : Precedence) (e : Expr) (rightSide : Bool) (shown : String) : String :=
  Expr.enclose parent e rightSide true (w.asCondition e shown)

/-- The name of a parameter in a statement. -/
def parameterName : ParamName → String
  | .named name => name
  | .positional index => "p" ++ toString index

/-- The value of a parameter: the bound one, then its own default, then the declared one, and else a
    placeholder. A raw parameter is written as it is bound. -/
def parameter (w : Writer) (name : ParamName) (raw : Bool) (default : Option String) : String :=
  let called := parameterName name
  match w.ctx.settings.parameters.get? called, default with
  | some bound, _ => if raw then bound else w.dialect.literal (.infer bound)
  | none, some shown => shown
  | none, none =>
    match (w.query.parameters.find? (·.name == called)).bind (·.default) with
    | some declared => w.dialect.literal (.infer declared)
    | none => w.dialect.placeholder called

/-- Whether a parameter has a bound value, so that its default does not matter. -/
def isBound (w : Writer) (name : ParamName) : Bool :=
  w.ctx.settings.parameters.contains (parameterName name)

/-- The shape that a string test asks for. -/
def testShape : Function → LikeShape
  | .startsWith => .startsWith
  | .endsWith => .endsWith
  | _ => .contains

/-- The text that a string test looks for, if it is known. -/
def soughtText? : Expr → Option String
  | .literal (.string s) => some s
  | .object o => some o.value
  | _ => none

/-- A string test as a `like`. -/
def stringTest (w : Writer) (f : Function) (subject sought : Expr) (subjectText soughtText : String) :
    Result String := do
  let left := Expr.enclose .comparison subject false false subjectText
  let pattern ←
    match soughtText? sought with
    | some part => w.dialect.patternLiteral (Pattern.ofShape (testShape f) part)
    | none =>
      let inner := Expr.enclose .additive sought true true soughtText
      let join := " " ++ w.dialect.concatOperator ++ " "
      pure (match testShape f with
        | .startsWith => inner ++ join ++ "'%'"
        | .endsWith => "'%'" ++ join ++ inner
        | _ => "'%'" ++ join ++ inner ++ join ++ "'%'")
  return left ++ " like " ++ pattern

/-- A call with rendered arguments. -/
def call (w : Writer) (f : Function) (args : List Expr) (shown : List String) : Result String :=
  if f.isPredicate then
    match args, shown with
    | [subject, sought], [subjectText, soughtText] => w.stringTest f subject sought subjectText soughtText
    | _, _ => .ok ""
  else w.dialect.call f shown

/-- The complaint about a string test without its two arguments. -/
def testArity (f : Function) (args : List Expr) : Result Unit :=
  if f.isPredicate && args.length != 2 then
    .error (.unsupported (f.name ++ " expects 2 arguments, got " ++ toString args.length))
  else .ok ()

/-- The symbol of an arithmetic operator. -/
def arithmeticSymbol (w : Writer) : ArithmeticOp → String
  | .concat => w.dialect.concatOperator
  | op => op.symbol

mutual

/-- An expression where a value is expected. -/
def value (w : Writer) : Expr → Result String
  | .literal l => .ok (w.dialect.literal l)
  | .object o => .ok (w.dialect.literal (w.ctx.coerce w.query o))
  | .parameter name default raw =>
    if w.isBound name then .ok (w.parameter name raw none)
    else (w.optionValue default).map (w.parameter name raw)
  | .property p => .ok (w.column p)
  | .allProperties table _ => .ok (w.aliases.name table ++ ".*")
  | .list items => do return "(" ++ ", ".intercalate (← w.values items) ++ ")"
  | .pattern p => w.dialect.patternLiteral p
  | .comparison op l r => do
    let left ← w.value l
    let right ← w.value r
    return Expr.enclose .comparison l false false left ++ " " ++ op.symbol ++ " "
      ++ Expr.enclose .comparison r true false right
  | .like l p negated => do
    let left ← w.value l
    let right ← w.value p
    return Expr.enclose .comparison l false false left ++ " " ++ Expr.negatable negated "like" ++ " "
      ++ Expr.enclose .comparison p true false right
  | .between l low high negated _ => do
    let left ← w.value l
    let first ← w.value low
    let last ← w.value high
    return Expr.enclose .comparison l false false left ++ " " ++ Expr.negatable negated "between" ++ " "
      ++ Expr.enclose .subComparison low false false first ++ " and "
      ++ Expr.enclose .subComparison high true false last
  | .inList l items negated _ =>
    if items.isEmpty then .ok (if negated then "1 = 1" else "1 = 0")
    else do
      let left ← w.value l
      let shown ← w.values items
      return Expr.enclose .comparison l false false left ++ " " ++ Expr.negatable negated "in" ++ " ("
        ++ ", ".intercalate shown ++ ")"
  | .is l operand => do
    let left ← w.value l
    return Expr.enclose .comparison l false false left ++ (if operand.wantsNull then " is null" else " is not null")
  | .arithmetic op l r => do
    let left ← w.value l
    let right ← w.value r
    return Expr.enclose op.precedence l false op.isAssociative left ++ " " ++ w.arithmeticSymbol op ++ " "
      ++ Expr.enclose op.precedence r true op.isAssociative right
  | .negate e => do return "-" ++ Expr.enclose .negation e true false (← w.value e)
  | .not e => do return "not " ++ w.conditionOperand .not e true (← w.value e)
  | .logical op l r => do
    let left ← w.value l
    let right ← w.value r
    return w.conditionOperand op.precedence l false left ++ " " ++ op.keyword ++ " "
      ++ w.conditionOperand op.precedence r true right
  | .call f args => do
    testArity f args
    w.call f args (← w.values args)

/-- The value of an optional expression. -/
def optionValue (w : Writer) : Option Expr → Result (Option String)
  | none => .ok none
  | some e => (w.value e).map some

/-- The values of a list. -/
def values (w : Writer) : List Expr → Result (List String)
  | [] => .ok []
  | e :: es => do
    let first ← w.value e
    let rest ← w.values es
    return first :: rest

end

/-- An expression of the model as a value. -/
def expression (w : Writer) (e : Expr) : Result String :=
  w.value e.oneBased

/-- A criterion. -/
def condition (w : Writer) (e : Expr) : Result String :=
  (w.value e.oneBased).map (w.asCondition e)

/-! ### Clauses -/

/-- A term of a conjunction with its binding strength. -/
abbrev Term : Type :=
  String × Precedence

/-- The conjunction of terms; a weaker term is put in parentheses unless it is alone. -/
def conjunction : List Term → String
  | [(only, _)] => only
  | terms =>
    " and ".intercalate (terms.map fun t => if t.2.weaker .and then "(" ++ t.1 ++ ")" else t.1)

/-- The name of a table: its type, or the property that leads to it if the type is not known. -/
def tableName (w : Writer) (id : TableId) : Result String := do
  let name ←
    match w.ctx.tableTypeName w.query id with
    | some name => pure name
    | none =>
      match (← w.query.item id).provider with
      | some p => pure p.name
      | none => .error (.unsupported ("item type of table " ++ id.name ++ " is unknown"))
  return w.dialect.identifier (name.map fun c => if c = ' ' then '_' else c)

/-- The columns of a select list. -/
def selectList (w : Writer) (tables : List TableId) : Result String := do
  let columns ← tables.mapM fun id => do
    (← w.query.item id).select.mapM fun s => do
      let shown ← w.expression s.expr
      return (s.aliasName.map fun name => shown ++ " as " ++ w.dialect.identifier name).getD shown
  if columns.flatten.isEmpty then return w.aliases.name w.query.root ++ ".*"
  return ", ".intercalate columns.flatten

/-- A joined table. -/
def joinText (w : Writer) (j : Join) : Result String := do
  let keyword := match j.kind with
    | .inner => "inner join"
    | .leftOuter => "left join"
  return " " ++ keyword ++ " " ++ (← w.tableName j.right) ++ " " ++ w.aliases.name j.right ++ " on "
    ++ w.column ⟨j.left, j.leftProperty⟩ ++ " = " ++ w.column ⟨j.right, j.rightProperty⟩

/-- A table with the tables behind its foreign keys. -/
def fromTables (w : Writer) (id : TableId) : Result String := do
  let first := (← w.tableName id) ++ " " ++ w.aliases.name id
  let joined ← (w.query.foreignKeyTree id).mapM fun t => do (← w.query.item t).foreignKeys.mapM w.joinText
  return first ++ "".intercalate joined.flatten

/-- The criteria of a table's own fields. -/
def idTerms (w : Writer) (id : TableId) (item : QueryItem) : List Term :=
  let column (name : String) := w.aliases.name id ++ "." ++ name
  let own := item.id.map fun value => column "id" ++ " = " ++ Text.quoted value
  let listed :=
    if item.idList.isEmpty then none
    else some (column "id" ++ " in (" ++ ", ".intercalate (item.idList.map Text.quoted) ++ ")")
  let typed := item.typeId.map fun value => column "itemtype" ++ " = " ++ Text.quoted value
  (own.toList ++ listed.toList ++ typed.toList).map fun shown => (shown, .comparison)

/-- The criterion of a table's filter. -/
def filterTerm (w : Writer) (item : QueryItem) : Result (List Term) :=
  match item.filter with
  | none => .ok []
  | some filter => do
    let collapsed := filter.collapseIn
    return [(← w.condition collapsed, collapsed.precedence)]

/-- The criteria of a table and of the tables behind its foreign keys. `depth` bounds how deep relationships
    lie inside each other. -/
def terms (w : Writer) : Nat → TableId → Result (List Term)
  | 0, _ => .ok []
  | depth + 1, id => do
    let found ← (w.query.foreignKeyTree id).mapM fun t => do
      let item ← w.query.item t
      let own ← w.filterTerm item
      let related ← item.relationships.mapM fun j => do
        let link := w.column ⟨j.right, j.rightProperty⟩ ++ " = " ++ w.column ⟨j.left, j.leftProperty⟩
        let inner ← w.terms depth j.right
        let tables ← w.fromTables j.right
        return ("exists (select null from " ++ tables ++ " where "
          ++ conjunction ((link, .comparison) :: inner) ++ ")", Precedence.comparison)
      return w.idTerms t item ++ own ++ related
    return found.flatten

/-- The criteria of the whole query. -/
def rootTerms (w : Writer) : Result (List Term) :=
  w.terms (w.query.tableCount + 1) w.query.root

/-- The body of the `where` clause; none without criteria. -/
def whereClause (w : Writer) : Result (Option String) := do
  let terms ← w.rootTerms
  return if terms.isEmpty then none else some (conjunction terms)

/-- The sort keys. -/
def orderList (w : Writer) (tables : List TableId) : Result (List String) := do
  let keys ← tables.mapM fun id => do
    (← w.query.item id).orderBy.mapM fun key => do
      let shown ← w.expression key.expr
      return if key.direction = .descending then shown ++ " desc" else shown
  return keys.flatten

/-- The statement with these clauses. Paging needs an order, so one by id is added. -/
def statement (w : Writer) (clauses : List SqlClause) : Result String := do
  let root := w.query.root
  let tables := w.query.foreignKeyTree root
  let select ← if clauses.contains .select then do pure ["select " ++ (← w.selectList tables)] else pure []
  let source ← if clauses.contains .fromTables then do pure ["from " ++ (← w.fromTables root)] else pure []
  let filter ←
    if clauses.contains .filter then do pure ((← w.whereClause).map ("where " ++ ·)).toList else pure []
  let item ← w.query.item root
  let pages := clauses.contains .offset && (item.offset.isSome || item.fetch.isSome)
  let keys ← if clauses.contains .orderBy || pages then w.orderList tables else pure []
  let keys := if keys.isEmpty && pages then [w.aliases.name root ++ ".id"] else keys
  let order := if keys.isEmpty then [] else ["order by " ++ ", ".intercalate keys]
  let paging := if pages then w.dialect.paging item.offset item.fetch else []
  return " ".intercalate (select ++ source ++ filter ++ order ++ paging)

end Writer

/-- A single criterion in the context of a query. -/
def renderExpr (ctx : Context) (q : Query) (dialect : Dialect) (e : Expr) : Result String := do
  (← Writer.make ctx q dialect).condition e.collapseIn

/-- The body of the `where` clause of a query. -/
def renderWhere (ctx : Context) (q : Query) (dialect : Dialect) : Result (Option String) := do
  (← Writer.make ctx q dialect).whereClause

/-- The statement of a query with these clauses. -/
def render (ctx : Context) (q : Query) (dialect : Dialect) (clauses : List SqlClause) : Result String := do
  (← Writer.make ctx q dialect).statement clauses

end Sql

/-- The statement of a query in the dialect and with the clauses of the settings. -/
def Query.toSql (ctx : Context) (q : Query) : Result String :=
  Sql.render ctx q ctx.settings.dialect ctx.settings.clauses

end ItemQuery
