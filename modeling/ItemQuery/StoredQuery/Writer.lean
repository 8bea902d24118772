import ItemQuery.Settings
import ItemQuery.StoredQuery.Condition

/-! Queries as stored queries. Every table becomes an item with a reference id, and every join a reference
    whose condition is the join key. The ids are chosen by the caller. -/

namespace ItemQuery.StoredQuery

open Xml (Event)

/-- What a document depends on. -/
structure Writer where
  ctx : Context
  query : Query
  refIds : List (TableId × String)

/-- An item to be added. -/
def addedItem (typeName : String) (contents : List Event) : List Event :=
  Event.element "Item" (Event.attr "type" typeName ++ Event.attr "action" "add" ++ contents)

namespace Writer

/-- The reference id of a table. -/
def refId (w : Writer) (id : TableId) : String :=
  ((w.refIds.find? (·.1 == id)).map (·.2)).getD ""

/-! ### Criteria by table -/

/-- The table that a term of the filter of `table` is about: the one it names, or `table` itself. -/
def target (table : TableId) (term : Expr) : Result (TableId × Expr) :=
  match term.tables with
  | [] => .ok (table, term)
  | [only] => .ok (only, term)
  | _ => .error (.unsupported ("criterion '" ++ term.display ++ "' spans more than one query item"))

/-- The terms of all filters, each with the table it is about. -/
def targets (w : Writer) : Result (List (TableId × Expr)) := do
  let found ← w.query.walk.mapM fun id => do
    match (← w.query.item id).filter with
    | none => return []
    | some filter => (filter.flatten .and).mapM (target id)
  return found.flatten

/-- Whether a term always holds. -/
def isTrue : Expr → Bool
  | .literal (.bool b) => b
  | _ => false

/-- The criteria of a table's id fields. -/
def idTerms (table : TableId) (item : QueryItem) : List Expr :=
  (item.id.map fun id => Expr.comparison .eq (.prop table "id") (.text id)).toList
    ++ if item.idList.isEmpty then [] else [.inList (.prop table "id") (item.idList.map .text) false none]

/-! ### Items -/

/-- The paging configuration; none without a limit and an offset. -/
def pagingEvents (item : QueryItem) : Result (List Event) := do
  if item.offset.isNone && item.fetch.isNone then return []
  else
    let option := item.offset.elim [] (fun n => Event.leaf "offset" (Number.uint64Text n))
      ++ item.fetch.elim [] (fun n => Event.leaf "fetch" (Number.uint64Text n))
    let shown ← Xml.write (Event.element "configuration" (Event.element "option" option))
    return Event.leaf "offset_fetch_xml" shown

/-- A select entry. -/
def selectEvents (table : TableId) (s : Selection) : Result (List Event) :=
  let entry (name : String) := addedItem "qry_QueryItemSelectProperty" (Event.leaf "property_name" name)
  let fault : Result (List Event) :=
    .error (.unsupported ("select '" ++ s.expr.display ++ "' in a query definition"))
  match s.expr with
  | .allProperties _ _ => .ok (entry "*")
  | .property p => if p.table = table then .ok (entry p.name) else fault
  | _ => fault

/-- A sort key; `place` counts from zero, and places lie 128 apart. -/
def sortEvents (place : Nat) (key : SortKey) : Result (List Event) :=
  match key.expr with
  | .property p =>
    .ok (addedItem "qry_QueryItemSortProperty"
      (Event.leaf "property_name" p.name ++ Event.leaf "sort_order" (toString ((place + 1) * 128))
        ++ Event.leaf "sort_order_direction" (if key.direction = .descending then "desc" else "asc")))
  | _ => .error (.unsupported ("sort by '" ++ key.expr.display ++ "' in a query definition"))

/-- The select entries and sort keys of a table. -/
def propertyEvents (table : TableId) (item : QueryItem) : Result (List Event) := do
  if item.select.isEmpty && item.orderBy.isEmpty then return []
  else
    let select ← item.select.mapM (selectEvents table)
    let order ← item.orderBy.zipIdx.mapM fun entry => sortEvents entry.2 entry.1
    return Event.element "Relationships" (select.flatten ++ order.flatten)

/-- The condition that is stored for the terms of a filter; none without terms. -/
def storedCondition (scope : Scope) (terms : List Expr) : Result (Option String) :=
  if terms.isEmpty then .ok none else (conditionText scope terms).map some

/-- The filter of a table as a condition. -/
def filterEvents (table : TableId) (terms : List Expr) : Result (List Event) :=
  (storedCondition { table } terms).map fun text => text.elim [] (Event.leaf "filter_xml")

/-- The item of a table with the terms that are about it. -/
def itemEvents (w : Writer) (terms : List (TableId × Expr)) (id : TableId) : Result (List Event) := do
  let item ← w.query.item id
  match w.ctx.tableTypeName w.query id with
  | none => .error (.unsupported ("item type of table " ++ id.name ++ " is unknown"))
  | some typeName =>
    let own := (terms.filter (·.1 == id)).map (·.2)
    let filter ← filterEvents id (idTerms id item ++ own.filter (!isTrue ·))
    let paging ← pagingEvents item
    let properties ← propertyEvents id item
    return addedItem "qry_QueryItem"
      (Event.leaf "ref_id" (w.refId id) ++ item.aliasName.elim [] (Event.leaf "alias")
        ++ Event.element "item_type" (Event.attr "keyed_name" typeName ++ [.text typeName])
        ++ filter ++ paging ++ properties)

/-- The reference of a join. -/
def referenceEvents (w : Writer) (j : Join) : Result (List Event) := do
  let key ← conditionText { table := j.right, parent := some j.left } [j.condition]
  return addedItem "qry_QueryReference"
    (Event.leaf "parent_ref_id" (w.refId j.left) ++ Event.leaf "child_ref_id" (w.refId j.right)
      ++ Event.leaf "filter_xml" key)

/-- A declared parameter. -/
def parameterEvents (p : ParameterDef) : List Event :=
  addedItem "qry_QueryParameter" (Event.leaf "name" p.name ++ p.default.elim [] (Event.leaf "value"))

/-- The whole document. -/
def document (w : Writer) : Result (List Event) := do
  let terms ← w.targets
  let tables := w.query.walk
  let items ← tables.mapM (w.itemEvents terms)
  let references ← tables.mapM fun id => do (← w.query.item id).joins.mapM w.referenceEvents
  let parameters := w.query.parameters.map parameterEvents
  return addedItem "qry_QueryDefinition"
    (Event.element "Relationships" (items.flatten ++ references.flatten.flatten ++ parameters.flatten))

end Writer

/-- The events of a query, whose tables get the given ids in the order in which they are reached. -/
def events (ctx : Context) (q : Query) (refIds : List String) : Result (List Event) :=
  Writer.document { ctx, query := q, refIds := q.walk.zip refIds }

end ItemQuery.StoredQuery

namespace ItemQuery

/-- The stored query of a query, whose tables get the given ids in the order in which they are reached. -/
def Query.toStoredQuery (ctx : Context) (q : Query) (refIds : List String) : Result String := do
  Xml.write (← StoredQuery.events ctx q refIds)

end ItemQuery
