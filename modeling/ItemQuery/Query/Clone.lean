import ItemQuery.Query.Basic

/-! Copies of tables from one query into another. Handles of copied tables are replaced by those of their
    copies; other handles stay as they are. -/

namespace ItemQuery

/-- The copies made so far, the last one first. -/
structure Cloner where
  copies : List (TableId × TableId) := []
deriving DecidableEq, Repr, Inhabited

namespace Cloner

/-- The copy of a table. -/
def mapped? (c : Cloner) (id : TableId) : Option TableId :=
  (c.copies.find? (·.1 == id)).map (·.2)

/-- The copy of a table, or the table itself if it has none. -/
def renamed (c : Cloner) (id : TableId) : TableId :=
  (c.mapped? id).getD id

/-- An expression about the copies. -/
def remap (c : Cloner) (e : Expr) : Expr :=
  e.mapTables c.renamed

/-- A table as it stands in the copy, without its joins. -/
def remapItem (c : Cloner) (item : QueryItem) : QueryItem :=
  { item with
    filter := item.filter.map c.remap
    select := item.select.map fun s => { s with expr := c.remap s.expr }
    orderBy := item.orderBy.map fun key => { key with expr := c.remap key.expr }
    joins := []
    provider := item.provider.map fun p => { p with table := c.renamed p.table } }

/-- A join between the copies. -/
def remapJoin (c : Cloner) (j : Join) : Join :=
  { j with left := c.renamed j.left, right := c.renamed j.right }

/-- Makes room for a copy of a table. -/
def allocate (state : Cloner × Query) (id : TableId) : Cloner × Query :=
  let added := state.2.addTable {}
  ({ copies := (id, added.1) :: state.1.copies }, added.2)

/-- Makes room for the tables below a queue of tables, level by level, and lists all of them. Every table is
    queued at most once, so as much fuel as there are tables is enough. -/
def allocateBelow (source : Query) : Nat → Cloner × Query → List TableId → Result (List TableId × Cloner × Query)
  | 0, state, _ => .ok ([], state)
  | _, state, [] => .ok ([], state)
  | fuel + 1, state, id :: queue => do
    let below := (← source.item id).joins.map (·.right)
    let rest ← allocateBelow source fuel (below.foldl allocate state) (queue ++ below)
    return (id :: rest.1, rest.2)

/-- Copies what is below a table that has a place in the target already. -/
def copySubtree (c : Cloner) (source : Query) (id : TableId) (target : Query) : Result (Cloner × Query) := do
  let (order, c, target) ← allocateBelow source (source.tableCount + 1) (c, target) [id]
  let items ← order.mapM fun old => do return (old, ← source.item old)
  let target := items.foldl (fun t entry => t.modify (c.renamed entry.1) fun _ => c.remapItem entry.2) target
  let joins := items.flatMap fun entry => entry.2.joins.map c.remapJoin
  return (c, ← joins.foldlM (fun t j => t.addJoin j) target)

/-- Copies a table and everything below it, and gives the handle of the copy, which nothing leads to. -/
def cloneTable (c : Cloner) (source : Query) (id : TableId) (target : Query) :
    Result (TableId × Cloner × Query) :=
  if source.contains id then do
    let (c, target) := allocate (c, target) id
    let copy := c.renamed id
    return (copy, ← c.copySubtree source id target)
  else .error (.ambiguous ("unknown table " ++ id.name))

end Cloner

/-- A copy of a query with handles of its own. -/
def Query.clone (q : Query) : Result Query := do
  let target := Query.ofItem {}
  let c : Cloner := { copies := [(q.root, target.root)] }
  let copied ← c.copySubtree q q.root target
  return { copied.2 with parameters := q.parameters }

end ItemQuery
