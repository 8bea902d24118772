import Mathlib.Data.Option.Basic
import ItemQuery.Proofs.Aml.Attributes
import ItemQuery.Proofs.Aml.Filters

/-! A query of one table comes back from its events with the same filter, up to the tables that normalization has
    recorded and to how chains of one connective are grouped. -/

namespace ItemQuery.Aml

/-! ### Writing -/

/-- A query of one table with a type and a filter. -/
structure OneTable (q : Query) (item : QueryItem) (typeName : String) (e : Expr) : Prop where
  found : q.get? q.root = some item
  alone : item.joins = []
  typed : item.typeName = some typeName
  typeName_ne : typeName ≠ ""
  filter : item.filter = some e
  criteria : Criteria q.root e

/-- The sort keys and the page of the root can be written, and its select list can be read. -/
structure Listable (ctx : Context) (q : Query) (item : QueryItem) : Prop where
  sorted : ∀ key ∈ item.orderBy, ∃ name, key.expr = .prop q.root name
  paged : ∀ offset, item.offset = some offset → 0 < offset → ∃ size, item.fetch = some size ∧ 0 < size ∧ offset % size = 0
  selectable : ∀ text, Writer.select? ⟨ctx, q⟩ (q.tableCount + 1) q.root = some text → Selectable text

section
variable {q : Query} {item : QueryItem} {typeName : String} {e : Expr}

theorem OneTable.item_eq (h : OneTable q item typeName e) : q.item q.root = .ok item := by
  rw [Query.item, h.found]

theorem OneTable.tableTypeName (ctx : Context) (h : OneTable q item typeName e) :
    ctx.tableTypeName q q.root = some typeName := by
  rw [Context.tableTypeName, Context.typeNameWithin, h.found, Option.bind_some, h.typed]
  rfl

theorem exists_sortKeys {table : TableId} {keys : List SortKey} (h : ∀ key ∈ keys, ∃ name, key.expr = .prop table name) :
    ∃ shown, keys.mapM (Writer.sortKey table) = .ok shown := by
  induction keys with
  | nil => exact ⟨[], rfl⟩
  | cons key keys ih =>
    obtain ⟨name, hname⟩ := h key List.mem_cons_self
    obtain ⟨shown, hshown⟩ := ih fun other hother => h other (List.mem_cons_of_mem key hother)
    have hkey : ∃ first, Writer.sortKey table key = .ok first := by
      rw [Writer.sortKey, hname, Expr.prop, ownProperty_self ⟨table, name⟩]
      exact ⟨_, rfl⟩
    obtain ⟨first, hfirst⟩ := hkey
    refine ⟨first :: shown, ?_⟩
    rw [List.mapM_cons, hfirst, hshown]
    rfl

theorem exists_pagingAttributes
    (h : ∀ offset, item.offset = some offset → 0 < offset →
      ∃ size, item.fetch = some size ∧ 0 < size ∧ offset % size = 0) :
    ∃ events, Writer.pagingAttributes item = .ok events := by
  unfold Writer.pagingAttributes
  split
  · exact ⟨_, rfl⟩
  · exact ⟨_, rfl⟩
  · rename_i offset hoffset
    obtain ⟨hsome, hpositive⟩ := Option.filter_eq_some_iff.mp hoffset
    obtain ⟨size, hsize, hwhole⟩ := h offset hsome (of_decide_eq_true hpositive)
    rw [hsize]
    exact ⟨_, if_pos hwhole⟩

theorem Listable.listingAttributes {ctx : Context} (h : Listable ctx q item) :
    ∃ events, Writer.listingAttributes ⟨ctx, q⟩ q.root item = .ok events := by
  obtain ⟨keys, hkeys⟩ := exists_sortKeys h.sorted
  obtain ⟨paging, hpaging⟩ := exists_pagingAttributes h.paged
  simp only [Writer.listingAttributes, hkeys, hpaging, bind, Except.bind]
  exact ⟨_, rfl⟩

theorem Part.all_singleton (part : Part) : Part.all [part] = part := by
  funext seen
  simp only [Part.all, bind, Except.bind]
  cases part seen with
  | error err => rfl
  | ok found =>
    dsimp only
    rw [List.append_nil]
    rfl

/-- Nothing follows the criteria of the filter in the item of the root. -/
theorem OneTable.item_root (ctx : Context) (h : OneTable q item typeName e) (depth : Nat) :
    ∃ nested, Writer.item ⟨ctx, q⟩ (depth + 1) q.root [] true [] = do
      let listing ← Writer.listingAttributes ⟨ctx, q⟩ q.root item
      let found ← Writer.conjunction ⟨ctx, q⟩ q.root nested (Writer.operands ⟨ctx, q⟩ q.root nested .and e) [q.root]
      return (Xml.Event.element "Item" (Writer.identityAttributes ⟨ctx, q⟩ q.root item ++ listing ++ found.1),
        found.2) := by
  have hkeys : item.foreignKeys = [] := by
    rw [QueryItem.foreignKeys, h.alone]
    rfl
  have hrelationships : item.relationships = [] := by
    rw [QueryItem.relationships, h.alone]
    rfl
  rw [Writer.item]
  simp only [h.item_eq, h.filter, hkeys, hrelationships, bind, Except.bind, if_true, List.contains_nil,
    Bool.false_eq_true, if_false, Option.toList_some, List.nil_append, List.flatMap_singleton, List.map_nil,
    List.isEmpty_nil, Part.all_singleton]
  exact ⟨_, rfl⟩

/-- The item of the root holds its attributes and then the criteria of its filter. -/
theorem OneTable.events_eq (ctx : Context) (h : OneTable q item typeName e) (target : TableId) :
    ∃ body, Gathers target body (((e.movedTo target).flatten .and).map Expr.leftGrouped) ∧
      events ctx q = (Writer.listingAttributes ⟨ctx, q⟩ q.root item).map fun listing =>
        Xml.Event.element "Item" (Writer.identityAttributes ⟨ctx, q⟩ q.root item ++ listing ++ body) := by
  obtain ⟨nested, hitem⟩ := h.item_root ctx q.tableCount
  obtain ⟨body, hwrites, hgathers⟩ := exists_writes_conjunction nested (h.criteria.speaks ⟨ctx, q⟩ nested target .and)
  have hbody := hwrites [q.root]
  refine ⟨body, hgathers, ?_⟩
  rw [events, hitem]
  cases Writer.listingAttributes ⟨ctx, q⟩ q.root item with
  | error err => rfl
  | ok listing =>
    simp only [bind, Except.bind, hbody]
    rfl

end

/-! ### Reading -/

section
variable {typeName : String} {q : Query}

/-- The attributes of the root take effect with the first criterion. -/
theorem settles_root {pairs : List (String × String)} (hne : pairs ≠ [])
    (happly : applyItemAttributes (.ofItem {}) (Query.ofItem {}).root pairs = .ok (q, [])) :
    ∃ r, (attributeEvents pairs).foldlM Reader.push
        { query := some (.ofItem {}), stack := [.item (Query.ofItem {}).root .root []] } = .ok r ∧
      Settles r q [.item (Query.ofItem {}).root .root []] := by
  refine ⟨_, foldlM_attributeEvents _ rfl pairs, rfl, ?_⟩
  rw [Reader.applyAttributes, if_neg (by rwa [List.nil_append, List.isEmpty_iff])]
  simp only [List.nil_append, Reader.queryOf, bind, Except.bind, happly]
  rfl

/-- The criteria of the root become its filter. -/
theorem push_end_root (h : Bare typeName q) (hne : typeName ≠ "") {r : Reader} {found : List Expr} {e : Expr}
    (hr : Settles r q [.item (Query.ofItem {}).root .root found]) (hall : Expr.allOf found = some e) :
    r.push .endElement = .ok { query := some (q.modify q.root (·.addFilter e)), stack := [] } := by
  obtain ⟨item, hitem, htyped, -⟩ := h.found
  have hfound : q.item (Query.ofItem {}).root = .ok item := by
    rw [Query.item, ← h.root, hitem]
  have huntyped : (item.typeName.getD "").isEmpty = false := by
    rw [htyped, Option.getD_some, ← Bool.not_eq_true, String.isEmpty_iff]
    exact hne
  rw [Reader.push, Reader.endElement, hr.2]
  simp only [bind, Except.bind, Reader.endItem, Reader.queryOf, hfound, huntyped, Bool.false_eq_true, if_false, hall,
    h.root]
  rfl

theorem Bare.filter (h : Bare typeName q) (e : Expr) :
    ((q.modify q.root (·.addFilter e)).get? q.root).bind (·.filter) = some e := by
  obtain ⟨item, hitem, -, hfilter⟩ := h.found
  rw [Query.get?] at hitem
  rw [Query.get?, Query.modify, Arena.get?_modify_self, hitem, Option.map_some, Option.bind_some, QueryItem.addFilter,
    hfilter]
  rfl

/-- An item with attributes and criteria is read as a query of its root. -/
theorem ofEvents_root (h : Bare typeName q) (htype : typeName ≠ "") {pairs : List (String × String)} (hne : pairs ≠ [])
    (happly : applyItemAttributes (.ofItem {}) (Query.ofItem {}).root pairs = .ok (q, [])) {body : List Xml.Event}
    {found : List Expr} {e : Expr} (hbody : Gathers q.root body found) (hall : Expr.allOf found = some e) :
    ofEvents (Xml.Event.element "Item" (attributeEvents pairs ++ body)) = .ok (q.modify q.root (·.addFilter e)) := by
  obtain ⟨r₁, hattributes, hr₁⟩ := settles_root hne happly
  rw [h.root] at hbody
  obtain ⟨r₂, hcriteria, hr₂⟩ := hbody r₁ q [] (.item _ .root) [] (.item .root) hr₁
  have hstart : Reader.push {} (.start "Item")
      = .ok { query := some (.ofItem {}), stack := [.item (Query.ofItem {}).root .root []] } := rfl
  rw [ofEvents, Xml.Event.element, List.foldlM_cons, hstart]
  simp only [List.foldlM_append, List.foldlM_cons, List.foldlM_nil, bind, Except.bind, hattributes, hcriteria,
    push_end_root h htype hr₂ hall]
  rfl

end

/-! ### Round trip -/

/-- The events of the query are read as a query whose root has this filter about itself, with every chain of one
    connective grouped from the left. -/
def Returns (ctx : Context) (q : Query) (e : Expr) : Prop :=
  ∃ es q', events ctx q = .ok es ∧ ofEvents es = .ok q' ∧
    (q'.get? q'.root).bind (·.filter) = some (e.mapTables fun _ => q'.root).leftGrouped

theorem OneTable.returns {ctx : Context} {q : Query} {item : QueryItem} {typeName : String} {e : Expr}
    (h : OneTable q item typeName e) (hlisted : Listable ctx q item) : Returns ctx q e.withoutTables := by
  obtain ⟨listing, hlisting⟩ := hlisted.listingAttributes
  obtain ⟨identity, hidentity, hcarries⟩ := exists_identityAttributes ⟨ctx, q⟩ q.root item (h.tableTypeName ctx)
  -- The type is the first attribute, so the others are read into an item that has it.
  obtain ⟨pairs, s, hpairs, hread, hs⟩ := (hcarries.append (carries_listingAttributes hlisting))
    ({ typeName := some typeName }, {}) ⟨rfl, rfl, rfl, rfl⟩
  have hread' : itemAttributes {} {} (("type", typeName) :: pairs) = .ok s := hread
  obtain ⟨q', happly, hbare⟩ := exists_applyItemAttributes hread' hs hlisted.selectable
  obtain ⟨body, hbody, hevents⟩ := h.events_eq ctx q'.root
  have hroot := ofEvents_root hbare h.typeName_ne (List.cons_ne_nil _ pairs) happly hbody (Expr.joinAll_flatten .and _)
  refine ⟨_, _, ?_, hroot, hbare.filter _⟩
  rw [hevents, hlisting, hidentity, Except.map, List.append_assoc _ identity, hpairs]
  rfl

/-- A query of one table that can be listed comes back from its events with its filter, without recorded tables. -/
theorem ofEvents_events (ctx : Context) {q : Query} {item : QueryItem} {typeName : String} {e : Expr}
    (h : OneTable q item typeName e) (hlisted : Listable ctx q item) : Returns ctx q e.withoutTables :=
  h.returns hlisted
/-- The third page of ten parts in the order of their names. -/
def thirdPage (filter : Expr) : QueryItem :=
  { typeName := some "Part", aliasName := some "p",
    select := [{ expr := .prop ⟨0, 0⟩ "name" }, { expr := .prop ⟨0, 0⟩ "state" }],
    orderBy := [{ expr := .prop ⟨0, 0⟩ "name", direction := .descending }], fetch := some 10, offset := some 20,
    filter := some filter }

theorem listable_thirdPage (filter : Expr) : Listable {} (.ofItem (thirdPage filter)) (thirdPage filter) := by
  refine ⟨fun key hkey => ?_, ?_, fun text htext => ?_⟩
  · rw [List.mem_singleton.mp hkey]
    exact ⟨_, rfl⟩
  · rintro offset ⟨⟩ -
    exact ⟨10, rfl, by decide, by decide⟩
  · obtain rfl : "name,state" = text := Option.some.inj htext
    have hread : (readSelect "name,state").toOption.isSome = true := by decide +kernel
    obtain ⟨nodes, hnodes⟩ := Option.isSome_iff_exists.mp hread
    exact .inr ⟨nodes, Result.toOption_eq_some.mp hnodes⟩

/-- Quotes, commas and `and` in values survive, a recorded table is dropped, and conjunctions are grouped from the
    left. -/
theorem ofEvents_events_thirdPage :
    ∃ es q',
      events {} (.ofItem (thirdPage
        (.and (.comparison .eq (.prop ⟨0, 0⟩ "name") (.object ⟨"it's, 'a' and b", some ⟨⟨0, 0⟩, "name"⟩⟩))
          (.and
            (.or (.like (.prop ⟨0, 0⟩ "name") (.pattern (.ofText "50%")) true)
              (.between (.prop ⟨0, 0⟩ "made") (.object ⟨"1 and 2", some ⟨⟨0, 0⟩, "made"⟩⟩) (.int 3) false
                (some ⟨0, 0⟩)))
            (.not (.is (.prop ⟨0, 0⟩ "state") .notDefined)))))) = .ok es ∧
      ofEvents es = .ok q' ∧
      (q'.get? q'.root).bind (·.filter) = some
        (.and
          (.and (.comparison .eq (.prop q'.root "name") (.object ⟨"it's, 'a' and b", some ⟨q'.root, "name"⟩⟩))
            (.or (.like (.prop q'.root "name") (.pattern (.ofText "50%")) true)
              (.between (.prop q'.root "made") (.object ⟨"1 and 2", some ⟨q'.root, "made"⟩⟩) (.int 3) false none)))
          (.not (.is (.prop q'.root "state") .notDefined))) := by
  have hname : "name" ∉ reservedNames := by decide
  have hmade : "made" ∉ reservedNames := by decide
  have hstate : "state" ∉ reservedNames := by decide
  have hpieces : Pattern.wildcardPieces .aml 0 "50[%]".toList =
      .ok [.literal "5", .literal "0", .set ⟨[.char '%'], false⟩ .once] := by
    simp [Pattern.wildcardPieces, WildcardSyntax.aml, Pattern.set?, Pattern.setItems?, Except.map]
  have hpattern : Pattern.ofWildcard .aml "50[%]" = .ok (.ofText "50%") :=
    Pattern.ofWildcard_of_wildcardPieces hpieces
  refine ofEvents_events {} ⟨rfl, rfl, rfl, by decide, rfl, ?_⟩ (listable_thirdPage _)
  refine .logical .and (.leaf hname (.comparison .eq (by unfold IsNow; decide +kernel))) ?_
  refine .logical .and (.logical .or (.leaf hname (.like hpattern true)) ?_) (.not (.leaf hstate (.is .notDefined)))
  exact .leaf hmade (.between (.object (by unfold IsNow; decide +kernel)) (.integer (by decide)) false (some ⟨0, 0⟩))

theorem not_returns_of_isNone {ctx : Context} {q : Query} (h : ((events ctx q).bind ofEvents).toOption.isNone = true)
    (e : Expr) : ¬Returns ctx q e := by
  rintro ⟨es, q', hes, hq', -⟩
  rw [hes, Except.bind, hq'] at h
  cases h

/-- A value list does not come back with its recorded table. A query that skips one and a half pages or that is
    sorted by a constant is not written, and a select list with a name that is no name is not read. -/
theorem not_returns_recorded_and_unlistable :
    (let e : Expr := .inList (.prop ⟨0, 0⟩ "state") [.int 1] false (some ⟨0, 0⟩)
      let item : QueryItem := { typeName := some "Part", filter := some e }
      OneTable (.ofItem item) item "Part" e ∧ ¬Returns {} (.ofItem item) e) ∧
    (let e : Expr := .is (.prop ⟨0, 0⟩ "state") .null
      let item : QueryItem := { typeName := some "Part", filter := some e }
      ∀ listed ∈ [{ item with fetch := some 2, offset := some 3 }, { item with orderBy := [⟨.int 1, .ascending⟩] },
          { item with select := [⟨.prop ⟨0, 0⟩ "name(", none⟩] }],
        OneTable (.ofItem listed) listed "Part" e ∧ ¬Returns {} (.ofItem listed) e) := by
  have hstate : "state" ∉ reservedNames := by decide
  constructor
  · intro e item
    have hone : ∀ d ∈ [Expr.int 1], Listed ⟨⟨0, 0⟩, "state"⟩ d :=
      List.forall_mem_singleton.mpr (.integer (by decide))
    have htable : OneTable (.ofItem item) item "Part" e :=
      ⟨rfl, rfl, rfl, by decide, rfl, .leaf hstate (.inList hone false (some ⟨0, 0⟩))⟩
    have hlisted : Listable {} (.ofItem item) item :=
      ⟨by rintro key ⟨⟩, by rintro offset ⟨⟩, by rintro text ⟨⟩⟩
    refine ⟨htable, ?_⟩
    rintro ⟨es, q', hes, hq', hfilter⟩
    obtain ⟨es', q'', hes', hq'', hfilter'⟩ := htable.returns hlisted
    cases hes.symm.trans hes'
    cases hq'.symm.trans hq''
    simp [hfilter, e, Expr.mapTables, Expr.leftGrouped] at hfilter'
  · intro e item
    have hcriteria : Criteria ⟨0, 0⟩ e := .leaf hstate (.is .null)
    simp only [List.forall_mem_cons, List.not_mem_nil, false_implies, implies_true, and_true]
    refine ⟨⟨⟨rfl, rfl, rfl, by decide, rfl, hcriteria⟩, not_returns_of_isNone ?_ e⟩,
      ⟨⟨rfl, rfl, rfl, by decide, rfl, hcriteria⟩, not_returns_of_isNone ?_ e⟩,
      ⟨⟨rfl, rfl, rfl, by decide, rfl, hcriteria⟩, not_returns_of_isNone ?_ e⟩⟩ <;> decide +kernel

end ItemQuery.Aml
