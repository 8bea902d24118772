import ItemQuery.Coercion
import ItemQuery.Pattern.Wildcard
import ItemQuery.Xml.Writer

/-! Queries as AML. Criteria about a table behind a foreign key stand inside the property element as an item
    of their own; relationships stand in an element of theirs. -/

namespace ItemQuery.Aml

/-! ### Values -/

/-- What the text of AML depends on. -/
structure Writer where
  ctx : Context
  query : Query

/-- The complaint about a value without a form in AML. -/
def valueFault (e : Expr) : QueryError :=
  .unsupported ("value '" ++ e.display ++ "' cannot be expressed in AML")

/-- The bound value of a named parameter. -/
def Writer.bound? (w : Writer) : ParamName → Option String
  | .named name => w.ctx.settings.parameters.get? name
  | .positional _ => none

mutual

/-- A value as the text of an element. -/
def Writer.valueText (w : Writer) : Expr → Result String
  | .object o => .ok o.value
  | .literal (.string s) => .ok s
  | .literal (.integer n) => .ok (Number.int64Text n)
  | .literal (.float x) => .ok (Number.floatText x)
  | .literal (.bool b) => .ok (if b then "1" else "0")
  | .literal (.dateTime t) => .ok t.isoText
  | .call .currentDateTime [] => .ok "__now()"
  | .parameter name default _ =>
    match w.bound? name with
    | some value => .ok value
    | none => w.optionValueText name default
  | e => .error (valueFault e)

/-- The default of a parameter as the text of an element, or its placeholder. -/
def Writer.optionValueText (w : Writer) (name : ParamName) : Option Expr → Result String
  | some e => w.valueText e
  | none => .ok ("@" ++ name.text)

end

/-- A literal in a value list. -/
def listLiteral : Literal → String
  | .bool b => if b then "1" else "0"
  | .dateTime t => Text.quoted t.isoText
  | l => l.display

mutual

/-- A value as it stands in a value list or a range. -/
def Writer.listText (w : Writer) : Expr → Result String
  | .object o => .ok (Text.quoted o.value)
  | .literal l => .ok (listLiteral l)
  | .negate e => .ok (Expr.negate e).display
  | .parameter name default _ =>
    match w.bound? name with
    | some value => .ok (listLiteral (.infer value))
    | none => w.optionListText name default
  | e => .error (valueFault e)

/-- The default of a parameter in a value list, or its placeholder. -/
def Writer.optionListText (w : Writer) (name : ParamName) : Option Expr → Result String
  | some e => w.listText e
  | none => .ok ("@" ++ name.text)

end

/-! ### Leaves -/

/-- The name of a property of this table. -/
def ownProperty (table : TableId) (e : Expr) : Result String :=
  let fault : Result String :=
    .error (.unsupported ("'" ++ e.display ++ "' is not a property of table " ++ table.name))
  match e with
  | .property p => if p.table = table then .ok p.name else fault
  | _ => fault

/-- A property element with a condition and a text. -/
def conditionElement (name : String) (condition : Option String) (value : String) : List Xml.Event :=
  Xml.Event.element name
    ((condition.elim [] (Xml.Event.attr "condition")) ++ if value.isEmpty then [] else [.text value])

/-- The shape that a string test asks for. -/
def testShape : Function → LikeShape
  | .startsWith => .startsWith
  | .endsWith => .endsWith
  | _ => .contains

/-- A string test as a `like`. -/
def stringTest (table : TableId) (f : Function) (args : List Expr) : Result (List Xml.Event) :=
  match args with
  | [subject, sought] => do
    let part ← match sought with
      | .literal (.string s) => pure s
      | .object o => pure o.value
      | _ => .error (.unsupported (f.name ++ " of a computed value"))
    let name ← ownProperty table subject
    let shown ← Pattern.toWildcard .aml (Pattern.ofShape (testShape f) part)
    return conditionElement name (some "like") shown
  | _ => .error (.unsupported (f.name ++ " arguments"))

/-- The complaint about a criterion without a form in AML. -/
def criterionFault (e : Expr) : QueryError :=
  .unsupported ("criterion '" ++ e.display ++ "' cannot be expressed in AML")

/-- A criterion that is no combination of others. Nothing is written for a truth, and for a falsehood that
    the id is null. -/
def Writer.leaf (w : Writer) (table : TableId) (e : Expr) : Result (List Xml.Event) :=
  match e with
  | .literal (.bool true) => .ok []
  | .literal (.bool false) => .ok (conditionElement "id" (some "is null") "")
  | .comparison op l r => do
    let name ← ownProperty table l
    let value ← w.valueText r
    return conditionElement name (if op = .eq then none else some op.name) value
  | .like l p negated =>
    match p with
    | .pattern pattern => do
      let name ← ownProperty table l
      let shown ← Pattern.toWildcard .aml pattern
      return conditionElement name (some (Expr.negatable negated "like")) shown
    | _ => .error (.unsupported "like with a computed pattern")
  | .between l low high negated _ => do
    let name ← ownProperty table l
    let first ← w.listText low
    let last ← w.listText high
    return conditionElement name (some (Expr.negatable negated "between")) (first ++ " and " ++ last)
  | .inList l items negated _ => do
    let values ← items.mapM w.listText
    let name ← ownProperty table l
    return conditionElement name (some (Expr.negatable negated "in")) (", ".intercalate values)
  | .is l operand => do
    let name ← ownProperty table l
    return conditionElement name (some operand.condition) ""
  | .call f args => if f.isPredicate then stringTest table f args else .error (criterionFault e)
  | .property p =>
    if p.table = table then .ok (conditionElement p.name none "1") else .error (criterionFault e)
  | _ => .error (criterionFault e)

/-! ### Parts in order

A filter is written where its table first comes up, so writing a part depends on the tables written before
it and tells which are written after it. -/

/-- A part of the output, given the tables whose filters are written. -/
abbrev Part : Type :=
  List TableId → Result (List Xml.Event × List TableId)

namespace Part

/-- Events that involve no table. -/
def ofEvents (events : Result (List Xml.Event)) : Part :=
  fun seen => events.map fun es => (es, seen)

/-- Parts one after the other. -/
def all : List Part → Part
  | [], seen => .ok ([], seen)
  | part :: parts, seen => do
    let first ← part seen
    let rest ← all parts first.2
    return (first.1 ++ rest.1, rest.2)

/-- A part inside of an element. -/
def within (name : String) (part : Part) : Part :=
  fun seen => (part seen).map fun found => (Xml.Event.element name found.1, found.2)

end Part

namespace Writer

/-! ### Criteria -/

/-- The table behind the one foreign key of `table` through which all properties of a criterion are
    reached. -/
def hop? (w : Writer) (table : TableId) (e : Expr) : Option TableId :=
  let steps := e.tables.map fun t =>
    if t = table then none
    else ((w.query.childTowards table t).filter (·.isForeignKey)).map (·.right)
  match steps with
  | some child :: rest => if rest.all (· == some child) then some child else none
  | _ => none

/-- A criterion with the part that writes it on its own table. -/
abbrev Operand : Type :=
  Expr × Part

/-- What is written for criteria that lead to tables behind foreign keys. -/
abbrev Nested : Type :=
  TableId → List Expr → Part

/-- The parts of criteria that all have to hold. Those that lead to one table behind a foreign key stand
    together in the place of the first of them; `done` are the tables that have their part. -/
def conjunctionParts (w : Writer) (table : TableId) (nested : Nested) (all : List Operand) :
    List TableId → List Operand → List Part
  | _, [] => []
  | done, (e, part) :: rest =>
    match w.hop? table e with
    | none => part :: w.conjunctionParts table nested all done rest
    | some child =>
      if done.contains child then w.conjunctionParts table nested all done rest
      else
        let terms := (all.map (·.1)).filter fun other => w.hop? table other == some child
        nested child terms :: w.conjunctionParts table nested all (child :: done) rest

/-- Criteria that all have to hold. -/
def conjunction (w : Writer) (table : TableId) (nested : Nested) (operands : List Operand) : Part :=
  Part.all (w.conjunctionParts table nested operands [] operands)

/-- Criteria of which one has to hold. -/
def disjunction (w : Writer) (table : TableId) (nested : Nested) (operands : List Operand) : Part :=
  Part.all <| operands.map fun operand =>
    match w.hop? table operand.1 with
    | some child => nested child [operand.1]
    | none => operand.2

/-- The operands of a chain of one connective, each with its part; another connective is an element. -/
def operands (w : Writer) (table : TableId) (nested : Nested) (chain : LogicalOp) : Expr → List Operand
  | .logical op l r =>
    let inner := w.operands table nested op l ++ w.operands table nested op r
    if op = chain then inner
    else
      let part := match op with
        | .and => Part.within "and" (w.conjunction table nested inner)
        | .or => Part.within "or" (w.disjunction table nested inner)
      [(.logical op l r, part)]
  | .not e => [(.not e, Part.within "not" (w.conjunction table nested (w.operands table nested .and e)))]
  | e => [(e, Part.ofEvents (w.leaf table e))]

/-! ### Items -/

/-- Whether a table or one behind it restricts the rows, looked for in at most `depth` steps. -/
def hasCriteria (w : Writer) : Nat → TableId → Bool
  | 0, _ => false
  | depth + 1, id =>
    (w.query.get? id).any fun item =>
      item.filter.isSome || item.id.isSome || !item.idList.isEmpty
        || item.joins.any fun j => !j.isForeignKey || w.hasCriteria depth j.right

/-- Whether an entry selects all properties. -/
def selectsAll (s : Selection) : Bool :=
  match s.expr with
  | .allProperties _ _ => true
  | _ => false

/-- The select attribute of a table and of the tables behind its foreign keys; none if all is selected. -/
def select? (w : Writer) : Nat → TableId → Option String
  | 0, _ => none
  | depth + 1, id =>
    (w.query.get? id).bind fun item =>
      let inner (name : String) : Option String :=
        (item.foreignKeys.find? (·.leftProperty == name)).bind fun j => w.select? depth j.right
      let withInner (name sub : String) := name ++ "(" ++ sub ++ ")"
      let own := (item.select.filterMap (·.expr.property?)).filter (·.table == id)
      let listed := own.map fun p => ((inner p.name).map (withInner p.name)).getD p.name
      let nested := (own.filter fun p => (inner p.name).isSome).map (·.name)
      let others := (item.foreignKeys.filter fun j => !nested.contains j.leftProperty).filterMap fun j =>
        (w.select? depth j.right).map (withInner j.leftProperty)
      let parts := listed ++ others
      if item.select.any selectsAll || parts.isEmpty then none else some (",".intercalate parts)

/-- The attributes for a limit and an offset. An offset has to be a whole number of pages. -/
def pagingAttributes (item : QueryItem) : Result (List Xml.Event) :=
  match item.offset.filter (0 < ·), item.fetch with
  | none, none => .ok []
  | none, some fetch => .ok (Xml.Event.attr "maxRecords" (Number.uint64Text fetch))
  | some offset, fetch =>
    let size := fetch.getD 0
    if 0 < size ∧ offset % size = 0 then
      .ok (Xml.Event.attr "page" (Number.uint64Text (offset / size + 1))
        ++ Xml.Event.attr "pagesize" (Number.uint64Text size))
    else
      .error (.unsupported ("offset " ++ Number.uint64Text offset ++ " is not a whole page of "
        ++ (fetch.map Number.uint64Text).getD "unlimited"))

/-- A sort key of the table itself. -/
def sortKey (table : TableId) (key : SortKey) : Result String := do
  let name ← ownProperty table key.expr
  return if key.direction = .descending then name ++ " DESC" else name

/-- The attributes of items that are listed and not only restricted. -/
def listingAttributes (w : Writer) (table : TableId) (item : QueryItem) : Result (List Xml.Event) := do
  let aliasName := item.aliasName.elim [] (Xml.Event.attr "alias")
  let select := (w.select? (w.query.tableCount + 1) table).elim [] (Xml.Event.attr "select")
  let keys ← item.orderBy.mapM (sortKey table)
  let order := if keys.isEmpty then [] else Xml.Event.attr "orderBy" (",".intercalate keys)
  return aliasName ++ select ++ order ++ (← pagingAttributes item)

/-- The attributes that every item has. -/
def identityAttributes (w : Writer) (table : TableId) (item : QueryItem) : List Xml.Event :=
  (w.ctx.tableTypeName w.query table).elim [] (Xml.Event.attr "type") ++ Xml.Event.attr "action" "get"
    ++ item.id.elim [] (Xml.Event.attr "id")
    ++ (if item.idList.isEmpty then [] else Xml.Event.attr "idlist" (",".intercalate item.idList))
    ++ item.typeId.elim [] (Xml.Event.attr "typeId")

/-- The item of a table with further criteria. Its own filter is added if it is not written yet, and tables
    behind foreign keys that restrict the rows follow unless a criterion led to them. `depth` bounds how deep
    items lie inside each other. -/
def item (w : Writer) : Nat → TableId → List Expr → Bool → Part
  | 0, _, _, _ => fun seen => .ok ([], seen)
  | depth + 1, table, terms, listed => fun seen => do
    let item ← w.query.item table
    let listing ← if listed then w.listingAttributes table item else pure []
    let nested : Nested := fun child terms =>
      match w.query.parentJoin? child with
      | some j => Part.within j.leftProperty (w.item depth child terms false)
      | none => fun _ => .error (.ambiguous ("table " ++ child.name ++ " is not joined"))
    let filter := if seen.contains table then [] else item.filter.toList
    let operands := (terms ++ filter).flatMap (w.operands table nested .and)
    let keyPart (j : Join) : Part := fun seen =>
      if seen.contains j.right || !w.hasCriteria (w.query.tableCount + 1) j.right then .ok ([], seen)
      else Part.within j.leftProperty (w.item depth j.right [] false) seen
    let related := item.relationships.map fun j => w.item depth j.right [] true
    let relationships := if related.isEmpty then [] else [Part.within "Relationships" (Part.all related)]
    let body := Part.all
      (w.conjunction table nested operands :: (item.foreignKeys.map keyPart ++ relationships))
    let found ← body (if seen.contains table then seen else table :: seen)
    return (Xml.Event.element "Item" (w.identityAttributes table item ++ listing ++ found.1), found.2)

end Writer

/-- The events of a query. -/
def events (ctx : Context) (q : Query) : Result (List Xml.Event) :=
  (Writer.item { ctx, query := q } (q.tableCount + 1) q.root [] true []).map (·.1)

end ItemQuery.Aml

namespace ItemQuery

/-- The AML text of a query. -/
def Query.toAml (ctx : Context) (q : Query) : Result String := do
  Xml.write (← Aml.events ctx q)

end ItemQuery
