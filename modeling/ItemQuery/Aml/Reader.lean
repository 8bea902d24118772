import ItemQuery.Aml.Select
import ItemQuery.Sql.Where
import ItemQuery.Xml.Reader

/-! Queries from AML, event by event. A stack holds the constructs that are open. The attributes of an
    element are collected until its first child, text or end arrives, and take effect then. -/

namespace ItemQuery.Aml

/-! ### Values and conditions -/

/-- A value of a property; `__now()` is the current time. -/
def propertyValue (p : PropertyRef) (value : String) : Expr :=
  if (Text.trim value).toLower = "__now()" then .call .currentDateTime []
  else .object { value, property := some p }

/-- Makes a text of a value list a value of the property. -/
def bindValue (p : PropertyRef) : Expr → Expr
  | .literal (.string s) => propertyValue p s
  | e => e

/-- A condition in small letters with single spaces. -/
def normalizedCondition (condition : String) : String :=
  (" ".intercalate (Text.words condition)).toLower

/-- The criterion of a property element with a condition. -/
def criterion (q : Query) (p : PropertyRef) (condition value : String) : Result Expr :=
  let left := Expr.property p
  let like (negated : Bool) : Result Expr := do
    return .like left (.pattern (← Pattern.ofWildcard .aml value)) negated
  let inList (negated : Bool) : Result Expr := do
    return .inList left ((← Sql.parseInList q p.table value).map (bindValue p)) negated none
  let between (negated : Bool) : Result Expr := do
    let bounds ← Sql.parseBetween q p.table value
    return .between left (bindValue p bounds.1) (bindValue p bounds.2) negated none
  match normalizedCondition condition with
  | "like" => like false
  | "not like" => like true
  | "in" => inList false
  | "not in" => inList true
  | "between" => between false
  | "not between" => between true
  | "is" => .ok (.is left .null)
  | "is null" => .ok (.is left .null)
  | "is not null" => .ok (.is left .notNull)
  | "is defined" => .ok (.is left .defined)
  | "is not defined" => .ok (.is left .notDefined)
  | other =>
    match ComparisonOp.ofName? other with
    | some op => .ok (.comparison op left (propertyValue p value))
    | none => .error (.unsupported ("condition '" ++ condition ++ "'"))

/-! ### Item attributes -/

/-- Reads a count. -/
def readCount (name value : String) : Result UInt64 :=
  match Number.readUInt64? (Text.trim value) with
  | some n => .ok n
  | none => .error (.unsupported (name ++ " '" ++ value ++ "' is not a number"))

/-- The ids of a list with commas; quotes around an id do not count. -/
def readIdList (value : String) : List String :=
  let ids := (Text.pieces (· == ',') value).map fun piece =>
    String.ofList (Text.trimWhile (· == '\'') (Text.trim piece).toList)
  ids.filter (!·.isEmpty)

/-- The sort keys of a list with commas. -/
def readOrderBy (table : TableId) (value : String) : List SortKey :=
  (Text.pieces (· == ',') value).filterMap fun piece =>
    match Text.words piece with
    | [] => none
    | name :: rest =>
      let descending := rest.head?.any (·.toLower == "desc")
      some { expr := .prop table name, direction := if descending then .descending else .ascending }

/-- Attributes that change nothing. -/
def ignoredAttributes : List String :=
  ["language", "isCriteria", "serverEvents", "related_expand", "doGetItem", "initial_action"]

/-- The attributes of an item that take effect together, after all of them are read. -/
structure Paging where
  page : Option UInt64 := none
  pageSize : Option UInt64 := none
  maxRecords : Option UInt64 := none
  select : Option String := none
  orderBy : Option String := none
  filter : Option String := none
deriving Inhabited

/-- Reads one attribute into the item or the attributes to come. -/
def itemAttribute (item : QueryItem) (later : Paging) (name value : String) : Result (QueryItem × Paging) :=
  match name with
  | "type" => .ok ({ item with typeName := some value }, later)
  | "typeId" => .ok ({ item with typeId := some value }, later)
  | "alias" => .ok ({ item with aliasName := some value }, later)
  | "id" => .ok ({ item with id := some value }, later)
  | "idlist" => .ok ({ item with idList := readIdList value }, later)
  | "action" =>
    if value.toLower = "get" then .ok (item, later) else .error (.unsupported ("action '" ++ value ++ "'"))
  | "select" => .ok (item, { later with select := some value })
  | "orderBy" => .ok (item, { later with orderBy := some value })
  | "page" => (readCount name value).map fun n => (item, { later with page := some n })
  | "pagesize" => (readCount name value).map fun n => (item, { later with pageSize := some n })
  | "maxRecords" => (readCount name value).map fun n => (item, { later with maxRecords := some n })
  | "where" => .ok (item, { later with filter := some value })
  | _ =>
    if ignoredAttributes.contains name then .ok (item, later)
    else .error (.unsupported ("Item attribute '" ++ name ++ "'"))

/-- Reads attributes in order. -/
def itemAttributes (item : QueryItem) (later : Paging) : List (String × String) → Result (QueryItem × Paging)
  | [] => .ok (item, later)
  | (name, value) :: rest =>
    match itemAttribute item later name value with
    | .error e => .error e
    | .ok (item, later) => itemAttributes item later rest

/-- The limit and the offset of a page. Pages count from one, and an offset of zero is none. -/
def Paging.apply (p : Paging) (item : QueryItem) : QueryItem :=
  match p.pageSize with
  | some size =>
    let page := p.page.getD 1
    let offset := (if page = 0 then 0 else page - 1) * size
    { item with fetch := some size, offset := if offset = 0 then none else some offset }
  | none => { item with fetch := p.maxRecords }

/-- Gives a table the attributes of its item; the criteria they add come back with the query. -/
def applyItemAttributes (q : Query) (table : TableId) (pairs : List (String × String)) :
    Result (Query × List Expr) := do
  let (item, later) ← itemAttributes (← q.item table) {} pairs
  let q := q.modify table fun _ => later.apply item
  let q ← match later.select with
    | some value => applySelect q table value
    | none => pure q
  let q := match later.orderBy with
    | some value => q.modify table fun item => { item with orderBy := readOrderBy table value }
    | none => q
  match later.filter with
  | some sql => return (q, [← Sql.parseWhere q table sql])
  | none => return (q, [])

/-! ### Frames -/

/-- How an item came into the query. -/
inductive Role where
  | root
  | foreignKey
  | relationship
deriving DecidableEq, Repr, Inhabited

/-- The elements that combine criteria. -/
inductive Combination where
  | and
  | or
  | not
deriving DecidableEq, Repr, Inhabited

/-- An open construct. -/
inductive Frame where
  /-- The element around the item. -/
  | envelope
  | item (table : TableId) (role : Role) (criteria : List Expr)
  | combination (kind : Combination) (criteria : List Expr)
  /-- A property; `nested` is set once an item inside of it has closed, to the criteria of that item. -/
  | property (ref : PropertyRef) (condition : Option String) (text : String) (nested : Option (Option Expr))
  | relationships (table : TableId)
deriving Inhabited

/-- What has been read so far; the innermost frame is the first. -/
structure Reader where
  query : Option Query := none
  stack : List Frame := []
  /-- Attributes of the innermost element that have not taken effect. -/
  pending : List (String × String) := []
  openAttribute : Option (String × String) := none

instance : Inhabited Reader := ⟨{}⟩

/-- The table of the innermost item, and whether criteria are combined between it and the top. -/
def owner? : List Frame → Option (TableId × Bool)
  | [] => none
  | .item table _ _ :: _ => some (table, false)
  | .combination _ _ :: rest => (owner? rest).map fun found => (found.1, true)
  | _ :: rest => owner? rest

/-- The criteria of a combination as one; none without criteria. -/
def combined (kind : Combination) (criteria : List Expr) : Option Expr :=
  match kind with
  | .and => Expr.allOf criteria
  | .or => Expr.anyOf criteria
  | .not => (Expr.allOf criteria).map .not

/-- Takes the last condition among the attributes of a property. -/
def lastCondition (condition : Option String) (pairs : List (String × String)) : Option String :=
  pairs.foldl (fun found pair => if pair.1 = "condition" then some pair.2 else found) condition

namespace Reader

/-- The query, which exists inside of an item. -/
def queryOf (r : Reader) : Result Query :=
  match r.query with
  | some q => .ok q
  | none => .error (.unsupported "criteria outside of an Item")

/-- Lets the collected attributes take effect. -/
def applyAttributes (r : Reader) : Result Reader :=
  if r.pending.isEmpty then .ok r
  else
    match r.stack with
    | .item table role criteria :: outer => do
      let (q, extra) ← applyItemAttributes (← r.queryOf) table r.pending
      return { r with query := some q, stack := .item table role (criteria ++ extra) :: outer, pending := [] }
    | .property ref condition value nested :: outer =>
      .ok { r with stack := .property ref (lastCondition condition r.pending) value nested :: outer, pending := [] }
    | _ => .ok { r with pending := [] }

/-- Adds a criterion to the innermost construct. -/
def pushCriterion (r : Reader) (criterion : Expr) : Result Reader :=
  match r.stack with
  | .item table role criteria :: outer =>
    .ok { r with stack := .item table role (criteria ++ [criterion]) :: outer }
  | .combination kind criteria :: outer =>
    .ok { r with stack := .combination kind (criteria ++ [criterion]) :: outer }
  | _ => .error (.unsupported "criterion outside of an Item")

/-- Adds a criterion if there is one. -/
def pushCriterion? (r : Reader) : Option Expr → Result Reader
  | some criterion => r.pushCriterion criterion
  | none => .ok r

/-- Opens a frame. -/
def opening (r : Reader) (frame : Frame) : Reader :=
  { r with stack := frame :: r.stack }

/-- Opens an item: the root, the table behind a property, or a relationship. An item among combined criteria
    must not restrict the rows outside of them, so its join is an outer one. -/
def startItem (r : Reader) : Result Reader :=
  let rootItem : Result Reader :=
    if r.query.isSome then .error (.unsupported "more than one Item in a query")
    else
      let q := Query.ofItem {}
      .ok ({ r with query := some q }.opening (.item q.root .root []))
  match r.stack with
  | [] => rootItem
  | .envelope :: _ => rootItem
  | .property ref _ _ nested :: _ =>
    if nested.isSome then .error (.unsupported "more than one Item in a property")
    else do
      let combinedHere := (owner? r.stack).any (·.2)
      let joined := (← r.queryOf).joinProperty ref.table ref.name (if combinedHere then .leftOuter else .inner)
      return { r with query := some joined.2 }.opening (.item joined.1 .foreignKey [])
  | .relationships source :: _ => do
    let added := (← r.queryOf).addRelationship source ""
    return { r with query := some added.2 }.opening (.item added.1 .relationship [])
  | .item _ _ _ :: _ => .error (.unsupported "Item directly inside an Item")
  | .combination _ _ :: _ => .error (.unsupported "Item directly inside an Item")

/-- Closes an item, whose frame is off the stack. -/
def endItem (r : Reader) (table : TableId) (role : Role) (criteria : List Expr) : Result Reader := do
  let q ← r.queryOf
  let untyped := ((← q.item table).typeName.getD "").isEmpty
  match role with
  | .foreignKey =>
    match r.stack with
    | .property ref condition value _ :: outer =>
      return { r with stack := .property ref condition value (some (Expr.allOf criteria)) :: outer }
    | _ => .error (.unsupported "Item outside of a property")
  | _ =>
    if untyped then .error (.unsupported "Item without a type")
    else
      match Expr.allOf criteria with
      | some c => return { r with query := some (q.modify table (·.addFilter c)) }
      | none => return r

/-- Closes a property, whose frame is off the stack. An item inside of it stands for it. -/
def endProperty (r : Reader) (ref : PropertyRef) (condition : Option String) (value : String)
    (nested : Option (Option Expr)) : Result Reader := do
  match nested with
  | some criteria => r.pushCriterion? criteria
  | none => r.pushCriterion (← criterion (← r.queryOf) ref (condition.getD "eq") value)

/-- Opens an element. -/
def startElement (r : Reader) (name : String) : Result Reader := do
  let r ← r.applyAttributes
  let misplaced : Result Reader := .error (.unsupported ("element '" ++ name ++ "' in this position"))
  let inside : Bool := match r.stack with
    | .item _ _ _ :: _ => true
    | .combination _ _ :: _ => true
    | _ => false
  if name = "AML" ∧ r.stack.isEmpty then return r.opening .envelope
  else if name = "Item" then r.startItem
  else if name = "and" ∧ inside then return r.opening (.combination .and [])
  else if name = "or" ∧ inside then return r.opening (.combination .or [])
  else if name = "not" ∧ inside then return r.opening (.combination .not [])
  else if name = "Relationships" then
    match r.stack with
    | .item table _ _ :: _ => return r.opening (.relationships table)
    | _ => .error (.unsupported "Relationships outside of an Item")
  else if inside then
    match owner? r.stack with
    | some (table, _) => return r.opening (.property ⟨table, name⟩ none "" none)
    | none => .error (.unsupported "property outside of an Item")
  else misplaced

/-- Closes an element. -/
def endElement (r : Reader) : Result Reader := do
  let r ← r.applyAttributes
  match r.stack with
  | [] => .error (.xml "end of element without a start")
  | frame :: outer =>
    let r := { r with stack := outer }
    match frame with
    | .envelope => return r
    | .relationships _ => return r
    | .item table role criteria => r.endItem table role criteria
    | .combination kind criteria => r.pushCriterion? (combined kind criteria)
    | .property ref condition value nested => r.endProperty ref condition value nested

/-- Takes text that belongs to no attribute. -/
def takeText (r : Reader) (value : String) : Result Reader := do
  let r ← r.applyAttributes
  match r.stack with
  | .property ref condition sofar nested :: outer =>
    return { r with stack := .property ref condition (sofar ++ value) nested :: outer }
  | _ =>
    if (Text.trim value).isEmpty then return r else .error (.unsupported "text outside of a property")

/-- Takes one event. -/
def push (r : Reader) : Xml.Event → Result Reader
  | .startElement n => r.startElement n.localName
  | .endElement => r.endElement
  | .startAttribute n => .ok { r with openAttribute := some (n.localName, "") }
  | .endAttribute =>
    match r.openAttribute with
    | some pair => .ok { r with pending := r.pending ++ [pair], openAttribute := none }
    | none => .error (.xml "end of attribute without a start")
  | .text value =>
    match r.openAttribute with
    | some (name, sofar) => .ok { r with openAttribute := some (name, sofar ++ value) }
    | none => r.takeText value

/-- The query, once everything is closed. -/
def finish (r : Reader) : Result Query :=
  if r.stack.isEmpty then
    match r.query with
    | some q => .ok q
    | none => .error (.unsupported "AML without an Item")
  else .error (.xml "unclosed element")

end Reader

/-- Reads events. -/
def ofEvents (events : List Xml.Event) : Result Query := do
  (← events.foldlM Reader.push {}).finish

/-- Reads AML text. -/
def parse (source : String) : Result Query := do
  (← Xml.feed Reader.push {} source).finish

end ItemQuery.Aml
