import ItemQuery.Config.Document

/-! The tables of a TOML text while it is read. A table comes into being under its own header, on the way to
    the table of a longer header, or on the way of a key with points; that decides who may add to it. -/

namespace ItemQuery.Config.Toml

/-- How a table came into being. -/
inductive Origin where
  | header
  | onTheWay
  | dottedKey
deriving DecidableEq, Repr

/-- What stands under a name. -/
inductive Node where
  /-- A finished value; nothing is added to it. -/
  | value (d : Document)
  | table (origin : Origin) (entries : List (String × Node))
  /-- The tables of one header in double brackets. -/
  | tables (elements : List (List (String × Node)))
deriving Inhabited

/-- The contents of a table. -/
abbrev Entries : Type :=
  List (String × Node)

mutual

/-- The document of a node. -/
def Node.toDocument : Node → Document
  | .value d => d
  | .table _ entries => .table (entryDocuments entries)
  | .tables elements => .list (elementDocuments elements)

/-- The documents of entries. -/
def entryDocuments : List (String × Node) → List (String × Document)
  | [] => []
  | (name, node) :: rest => (name, node.toDocument) :: entryDocuments rest

/-- The documents of tables. -/
def elementDocuments : List (List (String × Node)) → List Document
  | [] => []
  | entries :: rest => .table (entryDocuments entries) :: elementDocuments rest

end

namespace Entries

/-- The node under a name. -/
def get? (entries : Entries) (name : String) : Option Node :=
  (entries.find? (·.1 == name)).map (·.2)

/-- Sets the node under a name. -/
def set (name : String) (node : Node) : Entries → Entries
  | [] => [(name, node)]
  | entry :: rest => if entry.1 = name then (name, node) :: rest else entry :: set name node rest

/-- Changes the table at the end of a path, and makes the tables that are missing on the way. A key with points
    does not go through a table that has a header; any path goes through the last of several tables. -/
def update? (dotted : Bool) (change? : Origin → Entries → Option Entries) :
    List String → Origin → Entries → Option Entries
  | [], origin, entries => change? origin entries
  | name :: path, _, entries =>
    match entries.get? name with
    | none =>
      let origin := if dotted then .dottedKey else .onTheWay
      (update? dotted change? path origin []).map fun inner => entries.set name (.table origin inner)
    | some (.value _) => none
    | some (.table origin inner) =>
      if dotted ∧ origin = .header then none
      else (update? dotted change? path origin inner).map fun inner => entries.set name (.table origin inner)
    | some (.tables elements) =>
      match elements.reverse with
      | [] => none
      | last :: before =>
        (update? dotted change? path .header last).map fun inner =>
          entries.set name (.tables (inner :: before).reverse)

/-- Adds a value under a key. The table of a key with points was made by such keys, and a name is used once. -/
def insert? (entries : Entries) (key : List String) (d : Document) : Option Entries :=
  match key.reverse with
  | [] => none
  | name :: path =>
    let add? (origin : Origin) (table : Entries) : Option Entries :=
      if (origin = .dottedKey ↔ path = []) ∨ (table.get? name).isSome then none
      else some (table.set name (.value d))
    entries.update? true add? path.reverse .header

/-- What stands at a path; a value on the way is a failure. -/
def find? : List String → Entries → Option (Option Node)
  | [], _ => none
  | name :: path, entries =>
    match path, entries.get? name with
    | [], found => some found
    | _, none => some none
    | _, some (.value _) => none
    | path, some (.table _ inner) => find? path inner
    | path, some (.tables elements) => (elements.getLast?).bind (find? path)

end Entries

/-! ### Headers -/

/-- The tables so far and the one that is open. -/
structure State where
  root : Entries := []
  /-- The contents of the open table. -/
  current : Entries := []
  /-- Where the open table belongs; nothing for the table without a header. -/
  path : List String := []
  /-- Whether the header of the open table has double brackets. -/
  isElement : Bool := false

namespace State

/-- Adds the open table to the others. -/
def close? (s : State) : Option Entries :=
  match s.path.reverse with
  | [] => some s.current
  | name :: parents =>
    let place? (_ : Origin) (table : Entries) : Option Entries :=
      if s.isElement then
        match table.get? name with
        | none => some (table.set name (.tables [s.current]))
        | some (.tables elements) => some (table.set name (.tables (elements ++ [s.current])))
        | some _ => none
      else some (table.set name (.table .header s.current))
    s.root.update? false place? parents.reverse .header

/-- Opens the table of a header, which has no header yet. -/
def openTable? (s : State) (path : List String) : Option State := do
  let root ← s.close?
  match ← root.find? path with
  | none => return { root, path }
  | some (.table .onTheWay inner) => return { root, path, current := inner }
  | some _ => none

/-- Opens one more table of a header in double brackets. -/
def openElement? (s : State) (path : List String) : Option State := do
  return { root := ← s.close?, path, isElement := true }

end State
end ItemQuery.Config.Toml
