import Mathlib.Data.List.Find
import ItemQuery.Proofs.Number.Digits
import ItemQuery.Proofs.Sql.Scanning
import ItemQuery.Proofs.StoredQuery.Growth
import ItemQuery.StoredQuery.Writer

/-! The document of a query as a tree: an item for each table, a reference for each join and the parameters. What the
    reader collects from the tree are these parts again. -/

namespace ItemQuery.StoredQuery

open Xml (Element Event)
open Xml.Element (branch leaf listEvents)

/-! ### Parts as elements -/

/-- An item to be added. -/
def addedElement (typeName : String) (children : List Element) : Element :=
  .node "Item" [("type", typeName), ("action", "add")] children ""

/-- The property that an entry names, or a star. -/
def storedName : Expr → String
  | .property p => p.name
  | _ => "*"

/-- A select entry. -/
def selectElement (s : Selection) : Element :=
  addedElement "qry_QueryItemSelectProperty" [leaf "property_name" (storedName s.expr)]

/-- A sort key with its place. -/
def sortElement (entry : SortKey × Nat) : Element :=
  addedElement "qry_QueryItemSortProperty"
    [leaf "property_name" (storedName entry.1.expr), leaf "sort_order" (toString ((entry.2 + 1) * 128)),
     leaf "sort_order_direction" (if entry.1.direction = .descending then "desc" else "asc")]

/-- A limit or an offset. -/
def countElements (name : String) (n : Option UInt64) : List Element :=
  n.elim [] fun n => [leaf name (Number.uint64Text n)]

/-- The paging configuration. -/
def pagingElement (item : QueryItem) : Element :=
  branch "configuration" [branch "option" (countElements "offset" item.offset ++ countElements "fetch" item.fetch)]

/-- A text that is left out if there is none. -/
def optionalElements (name : String) (text : Option String) : List Element :=
  text.elim [] fun text => [leaf name text]

/-- The paging of a table. -/
def pagingElements (item : QueryItem) : List Element :=
  if item.offset.isNone && item.fetch.isNone then [] else [leaf "offset_fetch_xml" (pagingElement item).markup]

/-- The select entries and sort keys of a table. -/
def propertyElements (item : QueryItem) : List Element :=
  if item.select.isEmpty && item.orderBy.isEmpty then []
  else [branch "Relationships" (item.select.map selectElement ++ item.orderBy.zipIdx.map sortElement)]

/-- The item of a table. -/
def itemElement (id typeName : String) (item : QueryItem) : Element :=
  addedElement "qry_QueryItem"
    ([leaf "ref_id" id] ++ optionalElements "alias" item.aliasName
      ++ [.node "item_type" [("keyed_name", typeName)] [] typeName] ++ pagingElements item ++ propertyElements item)

/-- The condition of a join. -/
def joinElement (j : Join) : Element :=
  branch "condition"
    [branch "eq"
      [.node "property" [("name", j.leftProperty), ("query_items_xpath", parentPath)] [] "",
       .node "property" [("name", j.rightProperty)] [] ""]]

/-- The reference of a join. -/
def referenceElement (parent child : String) (j : Join) : Element :=
  addedElement "qry_QueryReference"
    [leaf "parent_ref_id" parent, leaf "child_ref_id" child, leaf "filter_xml" (joinElement j).markup]

/-- A declared parameter. -/
def parameterElement (p : ParameterDef) : Element :=
  addedElement "qry_QueryParameter" ([leaf "name" p.name] ++ optionalElements "value" p.default)

/-! ### Events of the parts -/

theorem events_addedElement (typeName : String) (children : List Element) :
    (addedElement typeName children).events = addedItem typeName (listEvents children) := by
  rw [addedElement, Element.events]
  rfl

theorem listEvents_optionalElements (name : String) (text : Option String) :
    listEvents (optionalElements name text) = text.elim [] (Event.leaf name) := by
  cases text with
  | none => rfl
  | some text => exact (Element.listEvents_singleton _).trans (Element.events_leaf name text)

theorem listEvents_countElements (name : String) (n : Option UInt64) :
    listEvents (countElements name n) = n.elim [] fun n => Event.leaf name (Number.uint64Text n) := by
  cases n with
  | none => rfl
  | some n => exact (Element.listEvents_singleton _).trans (Element.events_leaf name _)

/-- What a table may hold for its stored form to keep it: a type, entries of its own and nothing that filters it. -/
structure Storable (ctx : Context) (q : Query) (t : TableId) (item : QueryItem) : Prop where
  typeName : ∃ name, ctx.tableTypeName q t = some name ∧ name ≠ ""
  filter : item.filter = none
  id : item.id = none
  idList : item.idList = []
  typeId : item.typeId = none
  aliasName : item.aliasName ≠ some ""
  select : ∀ s ∈ item.select, s.aliasName = none ∧
    (s.expr = .allProperties t false ∨ ∃ name, s.expr = .prop t name ∧ name ≠ "" ∧ name ≠ "*")
  orderBy : ∀ k ∈ item.orderBy, ∃ name, k.expr = .prop t name ∧ name ≠ "" ∧ name ≠ "*"
  places : item.orderBy.length < 2 ^ 56

namespace Writer

variable {w : Writer} {t : TableId} {item : QueryItem}

theorem pagingEvents_eq (item : QueryItem) : pagingEvents item = .ok (listEvents (pagingElements item)) := by
  have hwrite : Xml.write (Event.element "configuration" (Event.element "option"
      (item.offset.elim [] (fun n => Event.leaf "offset" (Number.uint64Text n))
        ++ item.fetch.elim [] (fun n => Event.leaf "fetch" (Number.uint64Text n))))) = .ok (pagingElement item).markup := by
    rw [← (pagingElement item).write_events, pagingElement, Element.events_branch, Element.listEvents_singleton,
      Element.events_branch, Element.listEvents_append, listEvents_countElements, listEvents_countElements]
  unfold pagingEvents pagingElements
  split
  · rfl
  · dsimp only
    rw [hwrite, Element.listEvents_singleton, Element.events_leaf]
    rfl

theorem selectEvents_eq (h : Storable w.ctx w.query t item) :
    item.select.mapM (selectEvents t) = .ok (item.select.map fun s => (selectElement s).events) := by
  refine Result.mapM_eq_ok fun s hs => ?_
  rw [selectElement, events_addedElement, Element.listEvents_singleton, Element.events_leaf]
  rcases (h.select s hs).2 with hall | ⟨name, hname, -⟩
  · simp only [selectEvents, hall]
    rfl
  · simp only [selectEvents, hname, Expr.prop, if_true]
    rfl

theorem sortEvents_eq (h : Storable w.ctx w.query t item) :
    item.orderBy.zipIdx.mapM (fun entry => sortEvents entry.2 entry.1)
      = .ok (item.orderBy.zipIdx.map fun entry => (sortElement entry).events) := by
  refine Result.mapM_eq_ok fun entry hentry => ?_
  obtain ⟨name, hname, -⟩ := h.orderBy entry.1 (List.fst_mem_of_mem_zipIdx hentry)
  simp only [sortEvents, hname, Expr.prop, sortElement, events_addedElement, listEvents, Element.events_leaf,
    List.append_nil]
  simp [storedName, List.append_assoc]

theorem propertyEvents_eq (h : Storable w.ctx w.query t item) :
    propertyEvents t item = .ok (listEvents (propertyElements item)) := by
  unfold propertyEvents propertyElements
  split
  · rfl
  · rw [selectEvents_eq h, sortEvents_eq h, Element.listEvents_singleton, Element.events_branch, Element.listEvents_append,
      Element.listEvents_map, Element.listEvents_map]
    rfl

theorem itemEvents_eq (hitem : w.query.get? t = some item) (h : Storable w.ctx w.query t item) {name : String}
    (hname : w.ctx.tableTypeName w.query t = some name) (hne : name ≠ "") :
    w.itemEvents [] t = .ok (itemElement (w.refId t) name item).events := by
  have htext : Element.textEvents name = [.text name] := if_neg (by simpa using hne)
  have htype : (Element.node "item_type" [("keyed_name", name)] [] name).events
      = Event.element "item_type" (Event.attr "keyed_name" name ++ [.text name]) := by
    rw [Element.events, htext]
    rfl
  have hterms : idTerms t item = [] := by simp [idTerms, h.id, h.idList]
  rw [itemEvents, Query.item, hitem]
  simp only [hname, hterms, pagingEvents_eq, propertyEvents_eq h, bind, Except.bind]
  rw [itemElement, events_addedElement]
  simp only [Element.listEvents_append, Element.listEvents_singleton, Element.events_leaf, listEvents_optionalElements,
    htype, filterEvents, storedCondition]
  simp [pure, Except.pure, Except.map]

theorem referenceEvents_eq {j : Join} (hj : j.left ≠ j.right) :
    w.referenceEvents j = .ok (referenceElement (w.refId j.left) (w.refId j.right) j).events := by
  have hevents : conditionEvents { table := j.right, parent := some j.left } [j.condition] =
      .ok (joinElement j).events := by
    simp [conditionEvents, Join.condition, criterionEvents, operatorEvents, operandEvents, Expr.prop, hj, bind, Except.bind,
      pure, Except.pure, joinElement, Element.events_branch, Element.listEvents, Element.events]
    rfl
  have hkey : conditionText { table := j.right, parent := some j.left } [j.condition] = .ok (joinElement j).markup := by
    rw [conditionText, hevents]
    exact (joinElement j).write_events
  rw [referenceEvents, hkey, referenceElement, events_addedElement]
  simp [Element.listEvents, Element.events_leaf, bind, Except.bind, pure, Except.pure]

theorem parameterEvents_eq (p : ParameterDef) : parameterEvents p = (parameterElement p).events := by
  rw [parameterEvents, parameterElement, events_addedElement, Element.listEvents_append, Element.listEvents_singleton,
    Element.events_leaf, listEvents_optionalElements]

/-! ### The whole document -/

/-- The type of a table that has one. -/
def typeName (w : Writer) (t : TableId) : String :=
  (w.ctx.tableTypeName w.query t).getD ""

/-- The table of a live handle. -/
def table (w : Writer) (t : TableId) : QueryItem :=
  (w.query.get? t).getD default

/-- The document. -/
def tree (w : Writer) : Element :=
  addedElement "qry_QueryDefinition"
    [branch "Relationships"
      ((w.query.walk.map fun t => itemElement (w.refId t) (w.typeName t) (w.table t))
        ++ (w.query.walk.flatMap fun t => (w.query.joinsOf t).map fun j =>
          referenceElement (w.refId j.left) (w.refId j.right) j)
        ++ w.query.parameters.map parameterElement)]

theorem document_eq (h : ∀ t ∈ w.query.walk, ∃ item, w.query.get? t = some item ∧ Storable w.ctx w.query t item)
    (hjoins : ∀ t ∈ w.query.walk, ∀ j ∈ w.query.joinsOf t, j.left ≠ j.right) : w.document = .ok w.tree.events := by
  have htargets : w.targets = .ok [] := by
    rw [targets, Result.mapM_eq_ok (g := fun _ => [])]
    · simp [bind, Except.bind, pure, Except.pure]
    · intro t ht
      obtain ⟨item, hget, hstorable⟩ := h t ht
      rw [Query.item, hget]
      simp [hstorable.filter, bind, Except.bind, pure, Except.pure]
  have hitems : w.query.walk.mapM (w.itemEvents [])
      = .ok (w.query.walk.map fun t => (itemElement (w.refId t) (w.typeName t) (w.table t)).events) := by
    refine Result.mapM_eq_ok fun t ht => ?_
    obtain ⟨item, hget, hstorable⟩ := h t ht
    obtain ⟨name, hname, hne⟩ := hstorable.typeName
    rw [itemEvents_eq hget hstorable hname hne, typeName, table, hname, hget, Option.getD_some, Option.getD_some]
  have hreferences : w.query.walk.mapM (fun id => do (← w.query.item id).joins.mapM w.referenceEvents)
      = .ok (w.query.walk.map fun t =>
        (w.query.joinsOf t).map fun j => (referenceElement (w.refId j.left) (w.refId j.right) j).events) := by
    refine Result.mapM_eq_ok fun t ht => ?_
    obtain ⟨item, hget, -⟩ := h t ht
    have hof : w.query.joinsOf t = item.joins := by rw [Query.joinsOf, hget, Option.elim_some]
    rw [Query.item, hget, hof]
    exact Result.mapM_eq_ok fun j hj => referenceEvents_eq (hjoins t ht j (hof ▸ hj))
  rw [document, htargets]
  simp only [bind, Except.bind, hitems] at hreferences ⊢
  rw [hreferences]
  dsimp only
  rw [tree, events_addedElement, Element.listEvents_singleton, Element.events_branch, Element.listEvents_append,
    Element.listEvents_append, Element.listEvents_map, Element.listEvents_flatMap, Element.listEvents_map,
    ← funext parameterEvents_eq]
  simp only [Element.listEvents_map, List.flatten_flatten, List.map_map]
  rfl

end Writer

/-! ### Parts of the document -/

section
variable {typeName : String}

theorem itemsOfTypeIn_append (es es' : List Element) :
    itemsOfTypeIn typeName (es ++ es') = itemsOfTypeIn typeName es ++ itemsOfTypeIn typeName es' := by
  induction es with
  | nil => rfl
  | cons e es ih => rw [List.cons_append, itemsOfTypeIn, ih, itemsOfTypeIn, List.append_assoc]

theorem itemsOfTypeIn_map {α : Type} {f : α → Element} {other : String}
    (h : ∀ a, itemsOfType typeName (f a) = if typeName = other then [f a] else []) (as : List α) :
    itemsOfTypeIn typeName (as.map f) = if typeName = other then as.map f else [] := by
  induction as with
  | nil => simp [itemsOfTypeIn]
  | cons a as ih =>
    rw [List.map_cons, itemsOfTypeIn, h, ih]
    split <;> rfl

theorem itemsOfType_of_ne {e : Element} (h : e.name ≠ "Item") :
    itemsOfType typeName e = itemsOfTypeIn typeName e.children := by
  obtain ⟨name, attributes, children, text⟩ := e
  rw [itemsOfType]
  exact if_neg fun hitem => h hitem.1

theorem itemsOfType_leaf {name : String} (h : name ≠ "Item") (text : String) : itemsOfType typeName (leaf name text) = [] :=
  itemsOfType_of_ne h

theorem itemsOfType_branch {name : String} (h : name ≠ "Item") (children : List Element) :
    itemsOfType typeName (branch name children) = itemsOfTypeIn typeName children :=
  itemsOfType_of_ne h

/-- An item with no items below it. -/
theorem itemsOfType_addedElement (other : String) {children : List Element} (h : itemsOfTypeIn typeName children = []) :
    itemsOfType typeName (addedElement other children)
      = if typeName = other then [addedElement other children] else [] := by
  rw [addedElement, itemsOfType, h]
  by_cases heq : typeName = other
  · rw [if_pos heq]
    exact if_pos ⟨rfl, congrArg some heq.symm⟩
  · rw [if_neg heq]
    exact if_neg fun hitem => heq (Option.some.inj hitem.2).symm

theorem itemsOfTypeIn_optionalElements {name : String} (hname : name ≠ "Item") (text : Option String) :
    itemsOfTypeIn typeName (optionalElements name text) = [] := by
  cases text with
  | none => rfl
  | some text => simp [optionalElements, itemsOfTypeIn, itemsOfType_leaf hname]

theorem itemsOfType_selectElement (s : Selection) :
    itemsOfType typeName (selectElement s)
      = if typeName = "qry_QueryItemSelectProperty" then [selectElement s] else [] :=
  itemsOfType_addedElement _ (by simp [itemsOfTypeIn, itemsOfType_leaf])

theorem itemsOfType_sortElement (entry : SortKey × Nat) :
    itemsOfType typeName (sortElement entry)
      = if typeName = "qry_QueryItemSortProperty" then [sortElement entry] else [] :=
  itemsOfType_addedElement _ (by simp [itemsOfTypeIn, itemsOfType_leaf])

theorem itemsOfType_referenceElement (parent child : String) (j : Join) :
    itemsOfType typeName (referenceElement parent child j)
      = if typeName = "qry_QueryReference" then [referenceElement parent child j] else [] :=
  itemsOfType_addedElement _ (by simp [itemsOfTypeIn, itemsOfType_leaf])

theorem itemsOfType_parameterElement (p : ParameterDef) :
    itemsOfType typeName (parameterElement p)
      = if typeName = "qry_QueryParameter" then [parameterElement p] else [] :=
  itemsOfType_addedElement _ (by simp [itemsOfTypeIn, itemsOfType_leaf, itemsOfTypeIn_optionalElements])

/-- Below the item of a table are its select entries and its sort keys. -/
theorem itemsOfTypeIn_itemElement (id name : String) (item : QueryItem) :
    itemsOfTypeIn typeName (itemElement id name item).children
      = (if typeName = "qry_QueryItemSelectProperty" then item.select.map selectElement else [])
        ++ if typeName = "qry_QueryItemSortProperty" then item.orderBy.zipIdx.map sortElement else [] := by
  have hpaging : itemsOfTypeIn typeName (pagingElements item) = [] := by
    unfold pagingElements
    split
    · rfl
    · simp [itemsOfTypeIn, itemsOfType_leaf]
  have hproperties : itemsOfTypeIn typeName (propertyElements item)
      = itemsOfTypeIn typeName (item.select.map selectElement ++ item.orderBy.zipIdx.map sortElement) := by
    unfold propertyElements
    split
    next hempty =>
      rw [Bool.and_eq_true, List.isEmpty_iff, List.isEmpty_iff] at hempty
      rw [hempty.1, hempty.2]
      rfl
    next => simp [itemsOfTypeIn, itemsOfType_branch]
  have htype : itemsOfType typeName (.node "item_type" [("keyed_name", name)] [] name) = [] :=
    itemsOfType_of_ne (show "item_type" ≠ "Item" by decide)
  have hchildren : itemsOfTypeIn typeName (itemElement id name item).children
      = itemsOfTypeIn typeName (propertyElements item) := by
    simp [itemElement, addedElement, Element.children, itemsOfTypeIn_append, itemsOfTypeIn, itemsOfType_leaf, hpaging,
      itemsOfTypeIn_optionalElements, htype]
  rw [hchildren, hproperties, itemsOfTypeIn_append, itemsOfTypeIn_map itemsOfType_selectElement,
    itemsOfTypeIn_map itemsOfType_sortElement]

theorem itemsOfType_itemElement {typeName : String} (hselect : typeName ≠ "qry_QueryItemSelectProperty")
    (hsort : typeName ≠ "qry_QueryItemSortProperty") (id name : String) (item : QueryItem) :
    itemsOfType typeName (itemElement id name item)
      = if typeName = "qry_QueryItem" then [itemElement id name item] else [] := by
  have hbelow : itemsOfTypeIn typeName (itemElement id name item).children = _ := itemsOfTypeIn_itemElement id name item
  rw [if_neg hselect, if_neg hsort] at hbelow
  exact itemsOfType_addedElement _ hbelow

end

/-! ### Values of the parts -/

theorem filterMap_of_some {α β : Type} {f : α → Option β} {g : α → β} {as : List α} (h : ∀ a ∈ as, f a = some (g a)) :
    as.filterMap f = as.map g := by
  rw [List.filterMap_congr h, ← List.filterMap_eq_map]
  rfl

theorem value?_of_child? {e : Element} {key : String} (child : Element) (h : e.child? key = some child)
    (hne : child.text ≠ "") :
    e.value? key = some child.text := by
  rw [Element.value?, h]
  simp [Option.filter, hne]

theorem value?_eq_none {e : Element} {key : String} (hchild : e.child? key = none) (hattribute : e.attribute? key = none) :
    e.value? key = none := by
  rw [Element.value?, hchild, hattribute]
  rfl

theorem find?_of_name {es : List Element} {name : String} (h : ∀ e ∈ es, e.name = name) (key : String) :
    es.find? (·.name == key) = if key = name then es.head? else none := by
  cases es with
  | nil => simp
  | cons e es =>
    split
    next heq => simp [heq, h e List.mem_cons_self]
    next hne =>
      rw [List.find?_eq_none]
      intro e' he'
      simpa [h e' he'] using Ne.symm hne

section
variable (id name : String) (item : QueryItem)

/-- The first child of a name in the item of a table. -/
theorem child?_itemElement (key : String) :
    (itemElement id name item).child? key =
      ((((if key = "ref_id" then some (leaf "ref_id" id) else none).or
        (if key = "alias" then item.aliasName.map (leaf "alias") else none)).or
        (if key = "item_type" then some (.node "item_type" [("keyed_name", name)] [] name) else none)).or
        (if key = "offset_fetch_xml" then (pagingElements item).head? else none)).or
        (if key = "Relationships" then (propertyElements item).head? else none) := by
  have halias : ∀ e ∈ optionalElements "alias" item.aliasName, e.name = "alias" := by
    cases item.aliasName <;> simp [optionalElements]
  have hhead : (optionalElements "alias" item.aliasName).head? = item.aliasName.map (leaf "alias") := by
    cases item.aliasName <;> rfl
  have hpaging : ∀ e ∈ pagingElements item, e.name = "offset_fetch_xml" := by
    unfold pagingElements
    split <;> simp
  have hproperties : ∀ e ∈ propertyElements item, e.name = "Relationships" := by
    unfold propertyElements
    split <;> simp
  have hid : ∀ e ∈ [leaf "ref_id" id], e.name = "ref_id" := by simp
  have htype : ∀ e ∈ [Element.node "item_type" [("keyed_name", name)] [] name], e.name = "item_type" := by
    simp [Element.name]
  rw [Element.child?, itemElement, addedElement, Element.children, List.find?_append, List.find?_append, List.find?_append,
    List.find?_append, find?_of_name hid, find?_of_name halias, find?_of_name htype, find?_of_name hpaging,
    find?_of_name hproperties, hhead]
  rfl

variable {id name item}

theorem value?_ref_id (h : id ≠ "") : (itemElement id name item).value? "ref_id" = some id :=
  value?_of_child? (leaf "ref_id" id) (by simp [child?_itemElement]) h

theorem value?_alias (h : item.aliasName ≠ some "") : (itemElement id name item).value? "alias" = item.aliasName := by
  cases halias : item.aliasName with
  | none => exact value?_eq_none (by simp [child?_itemElement, halias]) rfl
  | some text =>
    refine value?_of_child? (leaf "alias" text) (by simp [child?_itemElement, halias]) ?_
    rintro rfl
    exact h halias

theorem value?_filter_xml : (itemElement id name item).value? "filter_xml" = none :=
  value?_eq_none (by simp [child?_itemElement]) rfl

theorem value?_offset_fetch_xml : (itemElement id name item).value? "offset_fetch_xml"
    = if item.offset.isNone && item.fetch.isNone then none else some (pagingElement item).markup := by
  have hne : (pagingElement item).markup ≠ "" := by
    rw [ne_eq, ← String.isEmpty_iff, (pagingElement item).isEmpty_markup]
    decide
  split
  next hnone => exact value?_eq_none (by simp [child?_itemElement, pagingElements, hnone]) rfl
  next hsome =>
    exact value?_of_child? (leaf "offset_fetch_xml" (pagingElement item).markup)
      (by simp [child?_itemElement, pagingElements, hsome]) hne

theorem tableItem_itemElement (hname : name ≠ "") (h : item.aliasName ≠ some "") :
    tableItem (itemElement id name item) = .ok { QueryItem.ofType name with aliasName := item.aliasName } := by
  have htype : (itemElement id name item).child? "item_type" = some (.node "item_type" [("keyed_name", name)] [] name) := by
    simp [child?_itemElement]
  rw [tableItem, htype, value?_alias h]
  exact if_neg (by simpa [Element.attribute?, Element.attributes] using hname)

end

/-! ### Details -/

theorem forall_isBlank_toString (n : Nat) : ∀ c ∈ (toString n).toList, Text.isBlank c = false := fun _ hc =>
  Text.isBlank_eq_false_of_isDigit (Number.isDigit_of_mem_toString hc)

theorem trim_toString (n : Nat) : Text.trim (toString n) = toString n := by
  rw [Text.trim, Text.trimWhile_of_forall (forall_isBlank_toString n), String.ofList_toList]

theorem readInt64?_toString {n : Nat} (h : n < 2 ^ 63) :
    ∃ m : Int64, Number.readInt64? (toString n) = some m ∧ m.toInt = n := by
  have hmin : Int64.minValue.toInt ≤ (n : Int) := by
    rw [Int64.toInt_minValue]
    omega
  have hmax : (n : Int) ≤ Int64.maxValue.toInt := by
    rw [Int64.toInt_maxValue]
    omega
  rw [Number.readInt64?, Number.integer?_toString, Option.bind_some, Number.int64?, if_pos ⟨hmin, hmax⟩]
  exact ⟨_, rfl, Int64.toInt_ofInt_of_le (by omega) (by omega)⟩

/-- A count is written with digits. -/
theorem plain_countElements {name : String} (hname : Xml.IsTagName name) (n : Option UInt64) :
    Xml.Element.ListPlain (countElements name n) := by
  cases n with
  | none => trivial
  | some n =>
    refine ⟨Element.plain_leaf hname fun c hc => ?_, trivial⟩
    have hmem : c ∈ (toString n.toNat).toList := hc.elim List.mem_of_head? List.mem_of_getLast?
    have hne : ∀ x, x.isDigit = false → c ≠ x := by
      rintro x hx rfl
      rw [Number.isDigit_of_mem_toString hmem] at hx
      cases hx
    simp [Text.isSpacing, hne ' ' (by decide), hne '\t' (by decide), hne '\r' (by decide), hne '\n' (by decide)]

theorem plain_pagingElement (item : QueryItem) : (pagingElement item).Plain := by
  refine Element.plain_branch (by decide) ⟨Element.plain_branch (by decide) ?_, trivial⟩
  rw [Element.listPlain_iff]
  intro e he
  rcases List.mem_append.mp he with he | he
  · exact Element.listPlain_iff.mp (plain_countElements (by decide) _) e he
  · exact Element.listPlain_iff.mp (plain_countElements (by decide) _) e he

theorem pagingValue_eq {root : Element} {name : String} {n : Option UInt64}
    (h : findElement? name root = n.map fun n => leaf name (Number.uint64Text n)) : pagingValue root name = .ok n := by
  rw [pagingValue, h]
  cases n with
  | none => rfl
  | some n =>
    have htrim : Text.trim (leaf name (Number.uint64Text n)).text = Number.uint64Text n := trim_toString n.toNat
    rw [Option.map_some, Option.map_some, htrim]
    split
    next hnone => cases hnone
    next hempty =>
      refine absurd ?_ (Number.toString_toList_ne_nil n.toNat)
      exact congrArg String.toList (Option.some.inj hempty)
    next hshown =>
      cases hshown
      rw [Number.readUInt64?_uint64Text]

theorem pagingValue_pagingElement (item : QueryItem) :
    pagingValue (pagingElement item) "offset" = .ok item.offset ∧
      pagingValue (pagingElement item) "fetch" = .ok item.fetch := by
  constructor
  · refine pagingValue_eq ?_
    cases hoffset : item.offset <;> cases hfetch : item.fetch <;>
      simp [pagingElement, countElements, hoffset, hfetch, branch, leaf, findElement?, findElementIn?]
  · refine pagingValue_eq ?_
    cases hoffset : item.offset <;> cases hfetch : item.fetch <;>
      simp [pagingElement, countElements, hoffset, hfetch, branch, leaf, findElement?, findElementIn?]

theorem applyPaging_pagingElement (base item : QueryItem) :
    applyPaging base (pagingElement item).markup
      = .ok { base with offset := item.offset.filter (0 < ·), fetch := item.fetch } := by
  obtain ⟨hoffset, hfetch⟩ := pagingValue_pagingElement item
  rw [applyPaging, Element.parse_markup (plain_pagingElement item)]
  simp only [bind, Except.bind, hoffset, hfetch]
  rfl

theorem propertyExpr_storedName {t : TableId} {e : Expr} (f : TableId → TableId)
    (h : e = .allProperties t false ∨ ∃ name, e = .prop t name ∧ name ≠ "" ∧ name ≠ "*") :
    storedName e ≠ "" ∧ propertyExpr (f t) (storedName e) = e.mapTables f := by
  rcases h with rfl | ⟨name, rfl, hne, hstar⟩
  · exact ⟨show "*" ≠ "" by decide, if_pos rfl⟩
  · exact ⟨hne, if_neg hstar⟩

theorem sortEntry_sortElement {entry : SortKey × Nat} (hplace : (entry.2 + 1) * 128 < 2 ^ 63) (table : TableId)
    (name : String) :
    sortEntry table name (sortElement entry)
      = .ok ((((entry.2 + 1) * 128 : Nat) : Int), { entry.1 with expr := propertyExpr table name }) := by
  obtain ⟨place, hread, hvalue⟩ := readInt64?_toString hplace
  have hne : toString ((entry.2 + 1) * 128) ≠ "" := fun heq =>
    Number.toString_toList_ne_nil _ (congrArg String.toList heq)
  have horder : (sortElement entry).value? "sort_order" = some (toString ((entry.2 + 1) * 128)) :=
    value?_of_child? (leaf "sort_order" (toString ((entry.2 + 1) * 128))) rfl hne
  have hdirection : ((sortElement entry).value? "sort_order_direction").any (·.toLower == "desc")
      = decide (entry.1.direction = .descending) := by
    obtain ⟨⟨expr, _ | _⟩, place⟩ := entry
    · rw [value?_of_child? (leaf "sort_order_direction" "asc") rfl (show "asc" ≠ "" by decide)]
      exact show ("asc".toLower == "desc") = false by decide +kernel
    · rw [value?_of_child? (leaf "sort_order_direction" "desc") rfl (show "desc" ≠ "" by decide)]
      exact show ("desc".toLower == "desc") = true by decide +kernel
  have hsame : (if entry.1.direction = .descending then Direction.descending else .ascending) = entry.1.direction := by
    cases entry.1.direction <;> rfl
  simp only [sortEntry, horder, hdirection, trim_toString, hread, bind, Except.bind, pure, Except.pure, hvalue,
    decide_eq_true_eq, hsame]

theorem itemsOfType_itemElement_below {typeName : String} (hne : typeName ≠ "qry_QueryItem") (id name : String)
    (item : QueryItem) :
    itemsOfType typeName (itemElement id name item) = itemsOfTypeIn typeName (itemElement id name item).children :=
  if_neg fun h => hne (Option.some.inj h.2).symm

theorem pairwise_zipIdx {α : Type} (as : List α) (n : Nat) : (as.zipIdx n).Pairwise fun a b => a.2 < b.2 := by
  induction as generalizing n with
  | nil => exact .nil
  | cons a as ih =>
    rw [List.zipIdx_cons, List.pairwise_cons]
    exact ⟨fun entry hentry => List.le_snd_of_mem_zipIdx hentry, ih (n + 1)⟩

section
variable {ctx : Context} {q : Query} {t : TableId} {item : QueryItem} (h : Storable ctx q t item) (f : TableId → TableId)
  (id name : String)
include h

theorem selections_itemElement :
    selections (itemElement id name item) (f t) = item.select.map fun s => { s with expr := s.expr.mapTables f } := by
  have hitems : itemsOfType "qry_QueryItemSelectProperty" (itemElement id name item) = item.select.map selectElement := by
    rw [itemsOfType_itemElement_below (by decide), itemsOfTypeIn_itemElement, if_pos rfl, if_neg (by decide),
      List.append_nil]
  have hnames : ∀ s ∈ item.select, ((·.value? "property_name") ∘ selectElement) s = some (storedName s.expr) := fun s hs =>
    value?_of_child? (leaf "property_name" (storedName s.expr)) rfl (propertyExpr_storedName f (h.select s hs).2).1
  rw [selections, hitems, List.filterMap_map, filterMap_of_some hnames, List.map_map]
  refine List.map_congr_left fun s hs => ?_
  obtain ⟨halias, hexpr⟩ := h.select s hs
  rw [Function.comp_apply, (propertyExpr_storedName f hexpr).2, ← halias]

/-- Places grow along the list, so that sorting by them changes nothing. -/
theorem sortKeys_itemElement :
    sortKeys (itemElement id name item) (f t) = .ok (item.orderBy.map fun k => { k with expr := k.expr.mapTables f }) := by
  have hitems : itemsOfType "qry_QueryItemSortProperty" (itemElement id name item) =
      item.orderBy.zipIdx.map sortElement := by
    rw [itemsOfType_itemElement_below (by decide), itemsOfTypeIn_itemElement, if_neg (by decide), if_pos rfl,
      List.nil_append]
  have hexpr : ∀ entry ∈ item.orderBy.zipIdx, storedName entry.1.expr ≠ "" ∧
      propertyExpr (f t) (storedName entry.1.expr) = entry.1.expr.mapTables f := fun entry hentry =>
    propertyExpr_storedName f (.inr (h.orderBy entry.1 (List.fst_mem_of_mem_zipIdx hentry)))
  have hnamed : (item.orderBy.zipIdx.map sortElement).filterMap (fun p =>
      (p.value? "property_name").map fun name => (name, p))
      = item.orderBy.zipIdx.map fun entry => (storedName entry.1.expr, sortElement entry) := by
    rw [List.filterMap_map]
    refine filterMap_of_some fun entry hentry => ?_
    rw [Function.comp_apply, value?_of_child? (leaf "property_name" (storedName entry.1.expr)) rfl
      (hexpr entry hentry).1]
    rfl
  have hentries : (item.orderBy.zipIdx.map fun entry => (storedName entry.1.expr, sortElement entry)).mapM
      (fun entry => sortEntry (f t) entry.1 entry.2)
      = .ok (item.orderBy.zipIdx.map fun entry =>
        ((((entry.2 + 1) * 128 : Nat) : Int), { entry.1 with expr := entry.1.expr.mapTables f })) := by
    rw [List.mapM_map]
    refine Result.mapM_eq_ok fun entry hentry => ?_
    have hplace : entry.2 < item.orderBy.length := by
      simpa using (List.mem_zipIdx hentry).2.1
    have hbound := h.places
    rw [Function.comp_apply, sortEntry_sortElement (by omega), (hexpr entry hentry).2]
  rw [sortKeys, hitems, hnamed]
  simp only [bind, Except.bind, hentries]
  rw [List.mergeSort_of_pairwise]
  · rw [List.map_map]
    refine congrArg Except.ok (Eq.trans ?_ (congrArg _ (List.zipIdx_map_fst 0 item.orderBy)))
    rw [List.map_map]
    rfl
  · rw [List.pairwise_map]
    refine (pairwise_zipIdx item.orderBy 0).imp fun hlt => ?_
    simp only [decide_eq_true_eq]
    omega

end

/-! ### The definition -/

namespace Writer

variable {w : Writer}

/-- The reference of a join. -/
def referenceOf (w : Writer) (j : Join) : Reference :=
  { parent := w.refId j.left, child := w.refId j.right, filter := some (joinElement j).markup }

theorem itemsOfType_tree {typeName : String} (hselect : typeName ≠ "qry_QueryItemSelectProperty")
    (hsort : typeName ≠ "qry_QueryItemSortProperty") (hdefinition : typeName ≠ "qry_QueryDefinition") :
    itemsOfType typeName w.tree =
      (if typeName = "qry_QueryItem" then
        w.query.walk.map fun t => itemElement (w.refId t) (w.typeName t) (w.table t) else [])
      ++ (if typeName = "qry_QueryReference" then
        (w.query.walk.flatMap w.query.joinsOf).map fun j => referenceElement (w.refId j.left) (w.refId j.right) j else [])
      ++ if typeName = "qry_QueryParameter" then w.query.parameters.map parameterElement else [] := by
  have hroot : ∀ children, itemsOfType typeName (addedElement "qry_QueryDefinition" children) =
      itemsOfTypeIn typeName children :=
    fun children => if_neg fun h => hdefinition (Option.some.inj h.2).symm
  rw [tree, hroot, itemsOfTypeIn, itemsOfType_branch (by decide), itemsOfTypeIn, List.append_nil, itemsOfTypeIn_append,
    itemsOfTypeIn_append, itemsOfTypeIn_map fun _ => itemsOfType_itemElement hselect hsort .., ← List.map_flatMap,
    itemsOfTypeIn_map fun _ => itemsOfType_referenceElement .., itemsOfTypeIn_map itemsOfType_parameterElement]

/-- What the reader collects from a document. -/
theorem ofElement_tree (hids : ∀ t ∈ w.query.walk, w.refId t ≠ "")
    (hends : ∀ t ∈ w.query.walk, ∀ j ∈ w.query.joinsOf t, w.refId j.left ≠ "" ∧ w.refId j.right ≠ "")
    (hparameters : ∀ p ∈ w.query.parameters, p.name ≠ "" ∧ p.default ≠ some "") :
    Definition.ofElement w.tree =
      { items := .ofList (w.query.walk.map fun t => (w.refId t, itemElement (w.refId t) (w.typeName t) (w.table t)))
        references := (w.query.walk.flatMap w.query.joinsOf).map w.referenceOf
        parameters := w.query.parameters } := by
  rw [Definition.ofElement, itemsOfType_tree (by decide) (by decide) (by decide),
    itemsOfType_tree (by decide) (by decide) (by decide), itemsOfType_tree (by decide) (by decide) (by decide)]
  simp only [String.reduceEq, if_true, if_false, List.append_nil, List.nil_append, List.filterMap_map]
  congr 1
  · refine congrArg Dictionary.ofList (filterMap_of_some fun t ht => ?_)
    rw [Function.comp_apply, value?_ref_id (hids t ht), Option.map_some]
  · refine filterMap_of_some fun j hj => ?_
    obtain ⟨t, ht, hj⟩ := List.mem_flatMap.mp hj
    obtain ⟨hleft, hright⟩ := hends t ht j hj
    have hne : (joinElement j).markup ≠ "" := by
      rw [ne_eq, ← String.isEmpty_iff, (joinElement j).isEmpty_markup]
      decide
    have hparent : (referenceElement (w.refId j.left) (w.refId j.right) j).value? "parent_ref_id" = some (w.refId j.left) :=
      value?_of_child? (leaf "parent_ref_id" (w.refId j.left)) rfl hleft
    have hchild : (referenceElement (w.refId j.left) (w.refId j.right) j).value? "child_ref_id" = some (w.refId j.right) :=
      value?_of_child? (leaf "child_ref_id" (w.refId j.right)) rfl hright
    have hfilter : (referenceElement (w.refId j.left) (w.refId j.right) j).value? "filter_xml" =
        some (joinElement j).markup :=
      value?_of_child? (leaf "filter_xml" (joinElement j).markup) rfl hne
    rw [Function.comp_apply, hparent, hchild, hfilter]
    rfl
  · refine (filterMap_of_some fun p hp => ?_).trans (List.map_id _)
    obtain ⟨hname, hdefault⟩ := hparameters p hp
    have hcalled : (parameterElement p).value? "name" = some p.name :=
      value?_of_child? (leaf "name" p.name) rfl hname
    have hchild : (parameterElement p).child? "value" = p.default.map (leaf "value") := by
      cases hp : p.default <;> simp [parameterElement, addedElement, Element.child?, Element.children, optionalElements, hp]
    have hvalue : (parameterElement p).value? "value" = p.default := by
      cases hp : p.default with
      | none => exact value?_eq_none (by rw [hchild, hp]; rfl) rfl
      | some text =>
        refine value?_of_child? (leaf "value" text) (by rw [hchild, hp]; rfl) ?_
        rintro rfl
        exact hdefault hp
    rw [Function.comp_apply, hcalled, hvalue]
    rfl

end Writer

end ItemQuery.StoredQuery
