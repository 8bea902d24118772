import ItemQuery.Coercion

/-! Queries as OData: an entity with query options. Tables behind foreign keys are reached by property paths,
    relationships by `any` with a variable of their own. -/

namespace ItemQuery.OData

/-- What an expression depends on. The scopes are the tables at which property paths start, the innermost
    first, each with its variable; the root has an empty one. -/
structure Writer where
  ctx : Context
  query : Query
  scopes : List (TableId × String)

/-- Alternatives in parentheses, unless there is only one. -/
def group (terms : List String) (joiner : String) : String :=
  match terms with
  | [only] => only
  | _ => "(" ++ joiner.intercalate terms ++ ")"

/-- The name of a function. -/
def functionName? : Function → Option String
  | .currentDateTime | .currentUtcDateTime => some "now"
  | .startsWith => some "startswith"
  | .endsWith => some "endswith"
  | .contains => some "contains"
  | .indexOf => some "indexof"
  | .length => some "length"
  | .toLower => some "tolower"
  | .toUpper => some "toupper"
  | .trim => some "trim"
  | .substring => some "substring"
  | .year => some "year"
  | .month => some "month"
  | .day => some "day"
  | .hour => some "hour"
  | .minute => some "minute"
  | .second => some "second"
  | .addDays | .addHours | .addMinutes | .diffDays | .other _ => none

/-- The word of an arithmetic operator; concatenation is a function. -/
def arithmeticWord? : ArithmeticOp → Option String
  | .add => some "add"
  | .sub => some "sub"
  | .mul => some "mul"
  | .div => some "div"
  | .mod => some "mod"
  | .concat => none

/-- A string test of a known shape. -/
def shapeTest (shape : LikeShape) (subject part : String) : String :=
  match shape with
  | .equals => subject ++ " eq " ++ Text.quoted part
  | .startsWith => "startswith(" ++ subject ++ "," ++ Text.quoted part ++ ")"
  | .endsWith => "endswith(" ++ subject ++ "," ++ Text.quoted part ++ ")"
  | .contains => "contains(" ++ subject ++ "," ++ Text.quoted part ++ ")"

namespace Writer

/-! ### Paths -/

/-- A name after a path, if there is one. -/
def join (path : Option String) (name : String) : String :=
  (path.map fun before => before ++ "/" ++ name).getD name

/-- The path to a table from the innermost scope on its way, looked for in at most `steps` steps. -/
def pathWithin (w : Writer) : Nat → TableId → Result (Option String)
  | 0, id => .error (.ambiguous ("table " ++ id.name ++ " is not reachable from the filter"))
  | steps + 1, id =>
    match w.scopes.find? (·.1 == id) with
    | some (_, var) => .ok (if var.isEmpty then none else some var)
    | none =>
      match (w.query.parentJoin? id).filter (·.isForeignKey) with
      | none => .error (.ambiguous ("table " ++ id.name ++ " is not reachable from the filter"))
      | some j => (w.pathWithin steps j.left).map fun path => some (join path j.leftProperty)

/-- The path to a table. -/
def path (w : Writer) (id : TableId) : Result (Option String) :=
  w.pathWithin (w.query.tableCount + 1) id

/-- A property with the path to its table. -/
def property (w : Writer) (p : PropertyRef) : Result String :=
  (w.path p.table).map fun path => join path p.name

/-! ### Expressions -/

/-- A point in time, in universal time. -/
def dateTime (w : Writer) (t : DateTime) : String :=
  (t.minusSeconds w.ctx.settings.zoneSeconds).isoText ++ "Z"

/-- A literal. -/
def literal (w : Writer) : Literal → String
  | .dateTime t => w.dateTime t
  | l => l.display

/-- The bound value of a named parameter. -/
def bound? (w : Writer) : ParamName → Option String
  | .named name => w.ctx.settings.parameters.get? name
  | .positional _ => none

/-- A `like`, which has to be a string test. -/
def like (pattern : Expr) (negated : Bool) (subject : Result String) : Result String :=
  match pattern with
  | .pattern p =>
    match p.shape? with
    | none => .error (.unsupported ("pattern " ++ p.display ++ " has no OData equivalent"))
    | some (shape, part) =>
      subject.map fun shown =>
        let test := shapeTest shape shown part
        if negated then "not (" ++ test ++ ")" else test
  | _ => .error (.unsupported "OData like needs a literal pattern")

/-- The comparisons of a subject with each of several values. -/
def equalities (subject op : String) (items : List Expr) (shown : List String) : List String :=
  (items.zip shown).map fun entry =>
    subject ++ " " ++ op ++ " " ++ Expr.enclose .comparison entry.1 true false entry.2

mutual

/-- The text of an expression. -/
def value (w : Writer) : Expr → Result String
  | .literal l => .ok (w.literal l)
  | .object o => .ok (w.literal (w.ctx.coerce w.query o))
  | .parameter name default raw =>
    match w.bound? name with
    | some bound => .ok (if raw then bound else w.literal (.infer bound))
    | none => w.optionValue name default
  | .property p => w.property p
  | .allProperties _ _ => .error (.unsupported "'*' inside an OData expression")
  | .list items => do return "(" ++ ",".intercalate (← w.values items) ++ ")"
  | .pattern p => .error (.unsupported ("pattern " ++ p.display ++ " outside of like"))
  | .comparison op l r => do
    let left ← w.value l
    let right ← w.value r
    return Expr.enclose .comparison l false false left ++ " " ++ op.name ++ " "
      ++ Expr.enclose .comparison r true false right
  | .like l p negated => like p negated (w.value l)
  | .between l low high negated _ => do
    let subject := Expr.enclose .comparison l false false (← w.value l)
    let first := Expr.enclose .comparison low true false (← w.value low)
    let last := Expr.enclose .comparison high true false (← w.value high)
    return if negated then "(" ++ subject ++ " lt " ++ first ++ " or " ++ subject ++ " gt " ++ last ++ ")"
      else "(" ++ subject ++ " ge " ++ first ++ " and " ++ subject ++ " le " ++ last ++ ")"
  | .inList l items negated _ =>
    if items.isEmpty then .ok (if negated then "true" else "false")
    else do
      let subject := Expr.enclose .comparison l false false (← w.value l)
      let shown ← w.values items
      return if negated then group (equalities subject "ne" items shown) " and "
        else group (equalities subject "eq" items shown) " or "
  | .is l operand => do
    let left ← w.value l
    return Expr.enclose .comparison l false false left ++ (if operand.wantsNull then " eq null" else " ne null")
  | .arithmetic op l r => do
    let left ← w.value l
    let right ← w.value r
    match arithmeticWord? op with
    | some word =>
      return Expr.enclose op.precedence l false false left ++ " " ++ word ++ " "
        ++ Expr.enclose op.precedence r true false right
    | none => return "concat(" ++ left ++ "," ++ right ++ ")"
  | .negate e => do return "-" ++ Expr.enclose .negation e true false (← w.value e)
  | .not e => do
    let inner ← w.value e
    return if e.precedence = .parentheses then "not " ++ inner else "not (" ++ inner ++ ")"
  | .logical op l r => do
    let left ← w.value l
    let right ← w.value r
    return Expr.enclose op.precedence l false false left ++ " " ++ op.keyword ++ " "
      ++ Expr.enclose op.precedence r true false right
  | .call f args =>
    match functionName? f with
    | some name => do return name ++ "(" ++ ",".intercalate (← w.values args) ++ ")"
    | none => .error (.unsupported ("function " ++ f.name ++ " has no OData equivalent"))

/-- The default of a parameter, or its placeholder. -/
def optionValue (w : Writer) (name : ParamName) : Option Expr → Result String
  | some e => w.value e
  | none => .ok ("@" ++ name.text)

/-- The texts of a list. -/
def values (w : Writer) : List Expr → Result (List String)
  | [] => .ok []
  | e :: es => do
    let first ← w.value e
    let rest ← w.values es
    return first :: rest

end

/-! ### Options -/

/-- The criteria of a table's id fields. -/
def idTerms (w : Writer) (id : TableId) (item : QueryItem) : Result (List String) := do
  let equal (column value : String) := column ++ " eq " ++ Text.quoted value
  let own ← match item.id with
    | some value => do pure [equal (← w.property ⟨id, "id"⟩) value]
    | none => pure []
  if item.idList.isEmpty then return own
  else
    let column ← w.property ⟨id, "id"⟩
    return own ++ [group (item.idList.map (equal column)) " or "]

/-- The criterion of a table's filter. -/
def filterTerm (w : Writer) (item : QueryItem) : Result (List String) :=
  match item.filter with
  | none => .ok []
  | some filter => (w.value filter).map fun shown => [Expr.enclose .and filter false false shown]

/-- The writer inside the scope of one more table. -/
def inScope (w : Writer) (id : TableId) (var : String) : Writer :=
  { w with scopes := (id, var) :: w.scopes }

/-- The variable of the next scope. -/
def nextVariable (w : Writer) : String :=
  if w.scopes.length = 1 then "r" else "r" ++ toString w.scopes.length

/-- The path to the relationship behind a join. -/
def navigation (w : Writer) (j : Join) : Result String := do
  match w.ctx.tableTypeName w.query j.right with
  | none => .error (.unsupported "relationship item type is unknown")
  | some typeName =>
    let path ← w.path j.left
    return join path (typeName.map fun c => if c = ' ' then '_' else c)

/-- The criteria of a table, its relationships from the last to the first, and then those of the tables
    behind its foreign keys. `depth` bounds how deep joins lie. -/
def terms : Nat → Writer → TableId → Result (List String)
  | 0, _, _ => .ok []
  | depth + 1, w, id => do
    let item ← w.query.item id
    let ids ← w.idTerms id item
    let own ← w.filterTerm item
    let related ← item.relationships.reverse.mapM fun j => do
      let source ← w.navigation j
      let inner ← terms depth (w.inScope j.right w.nextVariable) j.right
      return if inner.isEmpty then source ++ "/any()"
        else source ++ "/any(" ++ w.nextVariable ++ ":" ++ " and ".intercalate inner ++ ")"
    let behind ← item.foreignKeys.mapM fun j => terms depth w j.right
    return ids ++ own ++ related ++ behind.flatten

/-- The filter of the root; none without criteria. -/
def filter (w : Writer) : Result (Option String) := do
  let found ← terms (w.query.tableCount + 1) w w.query.root
  return if found.isEmpty then none else some (" and ".intercalate found)

/-- The names of a select list up to an entry that selects everything; none if there is one. -/
def selectNames (id : TableId) : List Selection → Result (Option (List String))
  | [] => .ok (some [])
  | s :: rest =>
    match s.expr with
    | .allProperties _ _ => .ok none
    | .property p =>
      (selectNames id rest).map fun names =>
        names.map fun names => if p.table = id then p.name :: names else names
    | e => .error (.unsupported ("OData cannot select '" ++ e.display ++ "'"))

/-- The select option of a table; empty if everything is selected. -/
def select (w : Writer) (id : TableId) : Result String := do
  let names ← selectNames id (← w.query.item id).select
  return ",".intercalate (names.getD [])

/-- The expand option for the tables behind the foreign keys of a table. -/
def expand (w : Writer) : Nat → TableId → Result String
  | 0, _ => .ok ""
  | depth + 1, id => do
    let parts ← (← w.query.item id).foreignKeys.mapM fun j => do
      let select ← w.select j.right
      let nested ← w.expand depth j.right
      let options := (if select.isEmpty then [] else ["$select=" ++ select])
        ++ (if nested.isEmpty then [] else ["$expand=" ++ nested])
      return if options.isEmpty then j.leftProperty else j.leftProperty ++ "(" ++ ";".intercalate options ++ ")"
    return ",".intercalate parts

/-- The sort keys of a table and of the tables behind its foreign keys. -/
def orderBy (w : Writer) : Nat → TableId → Result (List String)
  | 0, _ => .ok []
  | depth + 1, id => do
    let item ← w.query.item id
    let own ← item.orderBy.mapM fun key => do
      let shown ← w.value key.expr
      return if key.direction = .descending then shown ++ " desc" else shown
    let behind ← item.foreignKeys.mapM fun j => w.orderBy depth j.right
    return own ++ behind.flatten

/-- The entity and its options. -/
def resource (w : Writer) : Result String := do
  let root := w.query.root
  let depth := w.query.tableCount + 1
  let item ← w.query.item root
  match w.ctx.tableTypeName w.query root with
  | none => .error (.unsupported "root item type is unknown")
  | some entity =>
    let select ← w.select root
    let filter ← w.filter
    let order ← w.orderBy depth root
    let expand ← w.expand depth root
    let option (name value : String) := if value.isEmpty then [] else ["$" ++ name ++ "=" ++ value]
    let options := option "select" select ++ (filter.map ("$filter=" ++ ·)).toList
      ++ (if order.isEmpty then [] else ["$orderby=" ++ ",".intercalate order])
      ++ (item.fetch.map fun n => "$top=" ++ Number.uint64Text n).toList
      ++ (item.offset.map fun n => "$skip=" ++ Number.uint64Text n).toList ++ option "expand" expand
    return if options.isEmpty then entity else entity ++ "?" ++ "&".intercalate options

end Writer

/-- The writer of a query, at its root. -/
def writer (ctx : Context) (q : Query) : Writer :=
  { ctx, query := q, scopes := [(q.root, "")] }

end ItemQuery.OData

namespace ItemQuery

/-- The filter of a query as OData; none without criteria. -/
def Query.toODataFilter (ctx : Context) (q : Query) : Result (Option String) :=
  (OData.writer ctx q).filter

/-- The query as OData. -/
def Query.toOData (ctx : Context) (q : Query) : Result String :=
  (OData.writer ctx q).resource

end ItemQuery
