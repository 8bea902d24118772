import ItemQuery.Dictionary
import ItemQuery.Normalize
import ItemQuery.StoredQuery.Condition

/-! Stored queries as queries. The items of a definition have reference ids, and references between them say
    which item is joined below which. The item that no reference leads to is the root. -/

namespace ItemQuery.StoredQuery

open Xml (Element)

/-! ### Parts of a definition -/

mutual

/-- The items of a type in an element and below it, in the order of the document. -/
def itemsOfType (typeName : String) : Element → List Element
  | .node name attributes children text =>
    let e := Element.node name attributes children text
    let below := itemsOfTypeIn typeName children
    if name = "Item" ∧ e.attribute? "type" = some typeName then e :: below else below

/-- The items of a type in a list of elements and below them. -/
def itemsOfTypeIn (typeName : String) : List Element → List Element
  | [] => []
  | e :: es => itemsOfType typeName e ++ itemsOfTypeIn typeName es

end

mutual

/-- The first element of a name in an element or below it. -/
def findElement? (key : String) : Element → Option Element
  | .node name attributes children text =>
    if name = key then some (.node name attributes children text) else findElementIn? key children

/-- The first element of a name in a list of elements or below them. -/
def findElementIn? (key : String) : List Element → Option Element
  | [] => none
  | e :: es => (findElement? key e).orElse fun _ => findElementIn? key es

end

/-- A reference from one item to another. -/
structure Reference where
  parent : String
  child : String
  filter : Option String
deriving DecidableEq, Repr, Inhabited

/-- The items by their ids, the references and the parameters of a definition. -/
structure Definition where
  items : Dictionary Element
  references : List Reference
  parameters : List ParameterDef

/-- Collects the parts of a definition. Items without an id, references without ends and parameters without
    a name are left out. -/
def Definition.ofElement (document : Element) : Definition :=
  { items := .ofList <| (itemsOfType "qry_QueryItem" document).filterMap fun e =>
      (e.value? "ref_id").map fun id => (id, e)
    references := (itemsOfType "qry_QueryReference" document).filterMap fun e =>
      (e.value? "parent_ref_id").bind fun parent =>
        (e.value? "child_ref_id").map fun child => { parent, child, filter := e.value? "filter_xml" }
    parameters := (itemsOfType "qry_QueryParameter" document).filterMap fun e =>
      (e.value? "name").map fun name => { name, default := e.value? "value" } }

/-- The one item that no reference leads to. -/
def Definition.root (d : Definition) : Result (String × Element) :=
  match d.items.entries.filter fun entry => !d.references.any (·.child == entry.1) with
  | [root] => .ok root
  | [] => .error (.ambiguous "query definition has no root item")
  | _ => .error (.ambiguous "query definition has more than one root item")

/-! ### Tables -/

/-- The table of an item, with its type and alias. -/
def tableItem (e : Element) : Result QueryItem :=
  let typeName := match e.child? "item_type" with
    | some t => ((t.attribute? "keyed_name").orElse fun _ => t.attribute? "name").getD t.text
    | none => (e.attribute? "item_type").getD ""
  if typeName.isEmpty then .error (.unsupported "query item without an item type")
  else .ok { QueryItem.ofType typeName with aliasName := e.value? "alias" }

/-- The properties of parent and child that an equality joins. -/
def joinKey? (parent child : TableId) : Expr → Option (String × String)
  | .comparison .eq (.property a) (.property b) =>
    if a.table = parent ∧ b.table = child then some (a.name, b.name)
    else if a.table = child ∧ b.table = parent then some (b.name, a.name)
    else none
  | _ => none

/-- The first join key among terms, and the other terms. -/
def takeKey (parent child : TableId) : List Expr → Option (String × String) × List Expr
  | [] => (none, [])
  | term :: rest =>
    match joinKey? parent child term with
    | some key => (some key, rest)
    | none =>
      let found := takeKey parent child rest
      (found.1, term :: found.2)

/-- Joins a child by the condition of its reference: the first equality between both tables is the key, and
    what else it asks for filters the child. A key to the id of the child follows a foreign key. -/
def addReference (q : Query) (parent child : TableId) (filter : Option String) : Result Query := do
  let condition ← match filter with
    | some source => parseCondition { table := child, parent := some parent } source
    | none => pure none
  match condition with
  | none => .error (.unsupported "query reference without a condition")
  | some condition =>
    let terms := takeKey parent child (condition.flatten .and)
    match terms.1 with
    | none => .error (.unsupported "query reference without an equality between its items")
    | some (leftProperty, rightProperty) =>
      let isKey := rightProperty = "id"
      let q := if isKey then
          q.modify child fun item => { item with provider := some ⟨parent, leftProperty⟩ }
        else q
      let q ← q.addJoin
        { left := parent, right := child, kind := if isKey then .leftOuter else .inner,
          cardinality := if isKey then .oneToOne else .oneToMany, leftProperty, rightProperty }
      match Expr.allOf terms.2 with
      | none => return q
      | some extra =>
        let extra ← extra.normalize
        return q.modify child (·.addFilter extra)

/-- The query so far and the tables of the items that are in it. -/
structure Growth where
  query : Query
  tables : Dictionary TableId

/-- Adds the items that the given references lead to, below their parent. -/
def addChildren (d : Definition) (parent : TableId) : Growth → List Reference → Result Growth
  | g, [] => .ok g
  | g, r :: rest => do
    match d.items.get? r.child with
    | none => .error (.ambiguous ("unknown query item '" ++ r.child ++ "'"))
    | some e =>
      if g.tables.contains r.child then
        .error (.unsupported ("query item '" ++ r.child ++ "' is referenced twice"))
      else
        let added := g.query.addTable (← tableItem e)
        let q ← addReference added.2 parent added.1 r.filter
        addChildren d parent { query := q, tables := g.tables.insert r.child added.1 } rest

/-- Goes through a queue of items, adding the items referenced from them. Every item is queued at most once,
    so as much fuel as there are items is enough. -/
def grow (d : Definition) : Nat → Growth → List String → Result Growth
  | 0, g, _ => .ok g
  | _, g, [] => .ok g
  | fuel + 1, g, id :: queue =>
    match g.tables.get? id with
    | none => grow d fuel g queue
    | some parent => do
      let references := d.references.filter (·.parent == id)
      let g ← addChildren d parent g references
      grow d fuel g (queue ++ references.map (·.child))

/-! ### Details of a table -/

/-- A count of a paging configuration; an empty one counts as absent. -/
def pagingValue (root : Element) (name : String) : Result (Option UInt64) :=
  match (findElement? name root).map fun e => Text.trim e.text with
  | none => .ok none
  | some "" => .ok none
  | some shown =>
    match Number.readUInt64? shown with
    | some n => .ok (some n)
    | none => .error (.unsupported (name ++ " '" ++ shown ++ "' is not a number"))

/-- Reads the limit and the offset of a paging configuration. -/
def applyPaging (item : QueryItem) (source : String) : Result QueryItem := do
  let root ← Element.parse source
  let offset ← pagingValue root "offset"
  let fetch ← pagingValue root "fetch"
  return { item with offset := offset.filter (0 < ·), fetch }

/-- A property of a table, or all of them for a star. -/
def propertyExpr (table : TableId) (name : String) : Expr :=
  if name = "*" then .allProperties table false else .prop table name

/-- The select entries of an item. -/
def selections (e : Element) (table : TableId) : List Selection :=
  ((itemsOfType "qry_QueryItemSelectProperty" e).filterMap (·.value? "property_name")).map fun name =>
    { expr := propertyExpr table name }

/-- A sort key with its place in the order. -/
def sortEntry (table : TableId) (name : String) (e : Element) : Result (Int × SortKey) := do
  let place ← match e.value? "sort_order" with
    | none => pure 0
    | some shown =>
      match Number.readInt64? (Text.trim shown) with
      | some n => pure n.toInt
      | none => .error (.unsupported ("sort order '" ++ shown ++ "'"))
  let descending := (e.value? "sort_order_direction").any (·.toLower == "desc")
  return (place, { expr := propertyExpr table name, direction := if descending then .descending else .ascending })

/-- The sort keys of an item, by their places; keys of one place stay in the order of the document. -/
def sortKeys (e : Element) (table : TableId) : Result (List SortKey) := do
  let named := (itemsOfType "qry_QueryItemSortProperty" e).filterMap fun p =>
    (p.value? "property_name").map fun name => (name, p)
  let entries ← named.mapM fun entry => sortEntry table entry.1 entry.2
  return (entries.mergeSort fun a b => decide (a.1 ≤ b.1)).map (·.2)

/-- Completes a table with the filter, the paging, the select entries and the sort keys of its item. -/
def addDetails (q : Query) (e : Element) (table : TableId) : Result Query := do
  let filter ← match e.value? "filter_xml" with
    | some source => parseCondition { table } source
    | none => pure none
  let q ← match filter with
    | some condition => do
      let condition ← condition.normalize
      pure (q.modify table (·.addFilter condition))
    | none => pure q
  let q ← match e.value? "offset_fetch_xml" with
    | some source => do
      let item ← applyPaging (← q.item table) source
      pure (q.modify table fun _ => item)
    | none => pure q
  let orderBy ← sortKeys e table
  return q.modify table fun item => { item with select := selections e table, orderBy }

/-! ### Documents -/

/-- The query of a definition. -/
def Definition.toQuery (d : Definition) : Result Query := do
  let (rootId, rootElement) ← d.root
  let q := { Query.ofItem (← tableItem rootElement) with parameters := d.parameters }
  let g ← grow d (d.items.size + 1) { query := q, tables := .ofList [(rootId, q.root)] } [rootId]
  if g.tables.size ≠ d.items.size then
    .error (.ambiguous "query definition has items not connected to the root")
  else
    g.tables.entries.foldlM
      (fun q entry => match d.items.get? entry.1 with
        | some e => addDetails q e entry.2
        | none => pure q)
      g.query

/-- The query of an element tree. -/
def ofElement (document : Element) : Result Query :=
  (Definition.ofElement document).toQuery

/-- Reads the text of a stored query. -/
def parse (source : String) : Result Query := do
  ofElement (← Element.parse source)

end ItemQuery.StoredQuery
