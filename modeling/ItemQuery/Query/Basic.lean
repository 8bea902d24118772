import ItemQuery.Error
import ItemQuery.Expr.Basic

/-! Queries: tables joined to a root. A join is stored on its left table, and the operations that add joins
    keep them a forest: no table is joined twice, and no path leads back to where it came from. -/

namespace ItemQuery

/-- Whether left rows without a partner are kept. -/
inductive JoinKind where
  | inner
  | leftOuter
deriving DecidableEq, Repr, Inhabited

/-- Whether a join finds at most one row (a foreign key) or any number (a relationship). -/
inductive Cardinality where
  | oneToOne
  | oneToMany
deriving DecidableEq, Repr, Inhabited

/-- The direction of a sort key. -/
inductive Direction where
  | ascending
  | descending
deriving DecidableEq, Repr, Inhabited

/-- An entry of a select list. -/
structure Selection where
  expr : Expr
  aliasName : Option String := none
deriving Inhabited

/-- A sort key. -/
structure SortKey where
  expr : Expr
  direction : Direction := .ascending
deriving Inhabited

/-- Two tables with one equal property each. -/
structure Join where
  left : TableId
  right : TableId
  kind : JoinKind
  cardinality : Cardinality
  leftProperty : String
  rightProperty : String
deriving DecidableEq, Repr, Inhabited

/-- A queried table. -/
structure QueryItem where
  /-- The item type; none if it follows from the property that leads here. -/
  typeName : Option String := none
  aliasName : Option String := none
  id : Option String := none
  idList : List String := []
  typeId : Option String := none
  fetch : Option UInt64 := none
  offset : Option UInt64 := none
  filter : Option Expr := none
  select : List Selection := []
  orderBy : List SortKey := []
  joins : List Join := []
  /-- The property that leads to this table. -/
  provider : Option PropertyRef := none
deriving Inhabited

/-- A declared parameter. -/
structure ParameterDef where
  name : String
  default : Option String := none
deriving DecidableEq, Repr, Inhabited

/-- Tables, one of them the root, and declared parameters. -/
structure Query where
  arena : Arena QueryItem
  root : TableId
  parameters : List ParameterDef := []

namespace Join

/-- The equality that the join asks for. -/
def condition (j : Join) : Expr :=
  .comparison .eq (.prop j.left j.leftProperty) (.prop j.right j.rightProperty)

/-- Whether the join follows a foreign key. -/
def isForeignKey (j : Join) : Bool :=
  j.cardinality == .oneToOne

end Join

namespace QueryItem

/-- A table of this type. -/
def ofType (typeName : String) : QueryItem :=
  { typeName := some typeName }

/-- Adds a criterion to the filter. -/
def addFilter (item : QueryItem) (criterion : Expr) : QueryItem :=
  { item with filter := some (item.filter.elim criterion fun e => e.and criterion) }

/-- The joins that follow a foreign key. -/
def foreignKeys (item : QueryItem) : List Join :=
  item.joins.filter (·.isForeignKey)

/-- The joins that lead to any number of rows. -/
def relationships (item : QueryItem) : List Join :=
  item.joins.filter (!·.isForeignKey)

end QueryItem

namespace Query

/-! ### Tables -/

/-- A query of one table. -/
def ofItem (item : QueryItem) : Query :=
  let (root, arena) := Arena.empty.insert item
  { arena, root }

/-- A query of one table of this type. -/
def ofType (typeName : String) : Query :=
  ofItem (.ofType typeName)

/-- The table of a handle, unless it is stale. -/
def get? (q : Query) (id : TableId) : Option QueryItem :=
  q.arena.get? id

/-- The table of a handle that ought to be live. -/
def item (q : Query) (id : TableId) : Result QueryItem :=
  match q.get? id with
  | some item => .ok item
  | none => .error (.stale id.slot)

/-- Whether the handle is live. -/
def contains (q : Query) (id : TableId) : Bool :=
  q.arena.contains id

/-- All tables by slot. -/
def tables (q : Query) : List (TableId × QueryItem) :=
  q.arena.toList

/-- The number of tables, counted in the slots: what bounds the traversals below of any query. The number that the
    slots keep is the same for every query that calls lead to. -/
def tableCount (q : Query) : Nat :=
  q.tables.length

/-- Changes a table; a stale handle changes nothing. -/
def modify (q : Query) (id : TableId) (f : QueryItem → QueryItem) : Query :=
  { q with arena := q.arena.modify id f }

/-- Sets the filter of a table. -/
def setFilter (q : Query) (id : TableId) (criterion : Expr) : Query :=
  q.modify id fun item => { item with filter := some criterion }

/-- Adds a criterion to the filter of a live table. -/
def addFilter (q : Query) (id : TableId) (criterion : Expr) : Result Query := do
  let _ ← q.item id
  return q.modify id fun item => item.addFilter criterion

/-- Makes a live table the root. -/
def setRoot (q : Query) (id : TableId) : Result Query :=
  if q.contains id then .ok { q with root := id } else .error (.ambiguous ("unknown table " ++ id.name))

/-- Adds a table that nothing leads to. -/
def addTable (q : Query) (item : QueryItem) : TableId × Query :=
  let (id, arena) := q.arena.insert item
  (id, { q with arena })

/-- Removes a table and every join that leads to it. -/
def removeTable (q : Query) (id : TableId) : Option QueryItem × Query :=
  match q.arena.erase id with
  | (none, _) => (none, q)
  | (some item, arena) =>
    let unjoin (item : QueryItem) := { item with joins := item.joins.filter (·.right != id) }
    (some item, { q with arena := arena.ids.foldl (fun a other => a.modify other unjoin) arena })

/-! ### Joins -/

/-- All joins, by the slot of their left table. -/
def joins (q : Query) : List Join :=
  q.tables.flatMap (·.2.joins)

/-- The join that leads to a table. -/
def parentJoin? (q : Query) (id : TableId) : Option Join :=
  q.joins.find? (·.right == id)

/-- Whether `ancestor` is reached from `id` within `steps` steps towards the root. -/
def ancestorWithin (q : Query) (ancestor : TableId) : Nat → TableId → Bool
  | 0, _ => false
  | steps + 1, id => id == ancestor || (q.parentJoin? id).any fun j => q.ancestorWithin ancestor steps j.left

/-- Whether `ancestor` is `id` or lies on its way to the root. A forest has no way of more tables than there
    are. -/
def isAncestor (q : Query) (ancestor id : TableId) : Bool :=
  q.ancestorWithin ancestor (q.tableCount + 1) id

/-- Adds a join between two live tables, unless the right one is joined already or the join would close a
    cycle. -/
def addJoin (q : Query) (j : Join) : Result Query :=
  if !q.contains j.left || !q.contains j.right then .error (.ambiguous "join refers to an unknown table")
  else if q.isAncestor j.right j.left then
    .error (.unsupported ("join from " ++ j.left.name ++ " to " ++ j.right.name ++ " would form a cycle"))
  else if (q.parentJoin? j.right).isSome then
    .error (.ambiguous ("table " ++ j.right.name ++ " is already joined"))
  else .ok (q.modify j.left fun item => { item with joins := item.joins ++ [j] })

/-- Turns the first join that satisfies `p` into an outer join. -/
def loosen (p : Join → Bool) : List Join → List Join
  | [] => []
  | j :: js => if p j then { j with kind := .leftOuter } :: js else j :: loosen p js

/-- The table behind a foreign key, made on first use. A request for an outer join turns the join into one
    for good. -/
def joinProperty (q : Query) (table : TableId) (property : String) (kind : JoinKind) : TableId × Query :=
  let leads (j : Join) := j.leftProperty == property && j.rightProperty == "id"
  match (q.get? table).bind fun item => item.joins.find? leads with
  | some j =>
    let loosened (item : QueryItem) := { item with joins := loosen leads item.joins }
    (j.right, if kind = .leftOuter then q.modify table loosened else q)
  | none =>
    let (right, q) := q.addTable { provider := some ⟨table, property⟩ }
    let j : Join :=
      { left := table, right, kind, cardinality := .oneToOne, leftProperty := property, rightProperty := "id" }
    (right, q.modify table fun item => { item with joins := item.joins ++ [j] })

/-- Adds a relationship table below `source`; every call makes a new one. -/
def addRelationship (q : Query) (source : TableId) (typeName : String) : TableId × Query :=
  let (right, q) := q.addTable (.ofType typeName)
  let j : Join :=
    { left := source, right, kind := .inner, cardinality := .oneToMany, leftProperty := "id",
      rightProperty := "source_id" }
  (right, q.modify source fun item => { item with joins := item.joins ++ [j] })

/-- Follows the foreign keys before the last name of a path. -/
def follow (q : Query) (table : TableId) (kind : JoinKind) : List String → PropertyRef × Query
  | [] => (⟨table, ""⟩, q)
  | [name] => (⟨table, name⟩, q)
  | step :: path =>
    let (next, q) := q.joinProperty table step kind
    q.follow next kind path

/-- The property at the end of a path with slashes; every name before the last is a foreign key. -/
def propertyPath (q : Query) (table : TableId) (path : String) (kind : JoinKind) : PropertyRef × Query :=
  q.follow table kind (Text.pieces (· == '/') path)

/-! ### Traversal -/

/-- Appends what is reached from `id` in at most `depth` steps, depth first, without repetitions. -/
def walkFrom (q : Query) : Nat → List TableId → TableId → List TableId
  | 0, seen, _ => seen
  | depth + 1, seen, id =>
    if seen.contains id then seen
    else
      match q.get? id with
      | none => seen ++ [id]
      | some item => (item.joins.map (·.right)).foldl (q.walkFrom depth) (seen ++ [id])

/-- The tables reached from the root, parents before children. -/
def walk (q : Query) : List TableId :=
  q.walkFrom (q.tableCount + 1) [] q.root

/-- The first join on the way from `ancestor` to `id`, looked for in at most `steps` steps. -/
def childWithin (q : Query) (ancestor : TableId) : Nat → TableId → Option Join
  | 0, _ => none
  | steps + 1, id =>
    (q.parentJoin? id).bind fun j => if j.left == ancestor then some j else q.childWithin ancestor steps j.left

/-- The first join on the way from `ancestor` to `id`. -/
def childTowards (q : Query) (ancestor id : TableId) : Option Join :=
  q.childWithin ancestor (q.tableCount + 1) id

/-- Goes through a queue of tables, appending the tables behind their foreign keys. -/
def foreignKeyQueue (q : Query) : Nat → List TableId → List TableId
  | 0, queue => queue
  | _, [] => []
  | fuel + 1, id :: queue =>
    id :: q.foreignKeyQueue fuel (queue ++ ((q.get? id).elim [] fun item => item.foreignKeys.map (·.right)))

/-- A table and the tables reached from it through foreign keys, level by level. -/
def foreignKeyTree (q : Query) (id : TableId) : List TableId :=
  q.foreignKeyQueue (q.tableCount + 1) [id]

end Query
end ItemQuery
