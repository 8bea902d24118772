import ItemQuery.Search.Writer

/-! A grid of search boxes: the text of each property and the condition next to it. -/

namespace ItemQuery.Search

/-- The state of a grid. -/
structure Criteria where
  values : Dictionary String := {}
  conditions : Dictionary Condition := {}

/-- The name of the only property of a criterion, if it belongs to the table. -/
def singleProperty? (e : Expr) (table : TableId) : Option String :=
  match e.properties with
  | [] => none
  | first :: rest => if first.table = table ∧ rest.all (· == first) then some first.name else none

/-- The condition and the text of a criterion. -/
def describe (s : SearchSettings) (e : Expr) : Result (Option Condition × String) :=
  match e with
  | .is _ operand => .ok (some (if operand.wantsNull then .isNull else .isNotNull), "")
  | .inList l items true table =>
    (render s (.inList l items false table)).map fun shown => (some .notIn, shown)
  | .like l p true => (render s (.like l p false)).map fun shown => (some .notLike, shown)
  | _ => (render s e).map fun shown => (none, shown)

namespace Criteria

/-- Adds a criterion, unless it has no form in a search box or its property has a text already. -/
def add (s : SearchSettings) (table : TableId) (c : Criteria) (e : Expr) : Criteria :=
  match singleProperty? e table with
  | none => c
  | some name =>
    if c.values.contains name then c
    else
      match describe s e with
      | .error _ => c
      | .ok (condition, shown) =>
        { values := c.values.insert name shown
          conditions := condition.elim c.conditions fun chosen => c.conditions.insert name chosen }

/-- The grid of a table's filter. -/
def ofTable (ctx : Context) (q : Query) (table : TableId) : Criteria :=
  match (q.get? table).bind (·.filter) with
  | none => {}
  | some filter => (filter.flatten .and).foldl (add ctx.settings.search table) {}

/-- The grid of the root. -/
def ofQuery (ctx : Context) (q : Query) : Criteria :=
  ofTable ctx q q.root

/-- The criteria of the texts, in the order of the names. -/
def terms (ctx : Context) (q : Query) (table : TableId) (c : Criteria) : Result (List Expr) := do
  let found ← c.values.entries.mapM fun entry =>
    Search.parse ctx q ⟨table, entry.1⟩ (c.conditions.get? entry.1) entry.2
  return found.filterMap id

/-- Replaces the criteria of a table on the properties of the grid by those of its texts; a blank text only
    removes. -/
def apply (ctx : Context) (q : Query) (table : TableId) (c : Criteria) : Result Query := do
  let parsed ← c.terms ctx q table
  match q.get? table with
  | none => .error (.ambiguous ("table " ++ table.name ++ " is not part of the query"))
  | some item =>
    let old := item.filter.elim [] (·.flatten .and)
    let kept := old.filter fun e => !(singleProperty? e table).any (c.values.contains ·)
    return q.modify table fun item => { item with filter := Expr.allOf (kept ++ parsed) }

end Criteria
end ItemQuery.Search
