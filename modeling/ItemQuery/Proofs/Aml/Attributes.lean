import ItemQuery.Proofs.Aml.Elements
import ItemQuery.Proofs.Number.Digits
import ItemQuery.Proofs.Query.Handles
import ItemQuery.Proofs.Result
import ItemQuery.Proofs.Sql.Scanning

/-! The attributes that an item is written with. All of them can be read, except for a select list whose names
    hold characters that separate names. They give the item its type and leave its filter alone; a select list
    may add tables behind the item. -/

namespace ItemQuery.Aml

/-! ### Pairs -/

/-- The events of attributes. -/
def attributeEvents (pairs : List (String × String)) : List Xml.Event :=
  pairs.flatMap fun pair => Xml.Event.attr pair.1 pair.2

theorem attributeEvents_append (ps ps' : List (String × String)) :
    attributeEvents (ps ++ ps') = attributeEvents ps ++ attributeEvents ps' :=
  List.flatMap_append

theorem attributeEvents_option (name : String) (value : Option String) :
    attributeEvents (value.elim [] fun value => [(name, value)]) = value.elim [] (Xml.Event.attr name) := by
  cases value with
  | none => rfl
  | some value => exact List.append_nil _

theorem foldlM_attributeEvents (r : Reader) (hr : r.openAttribute = none) (pairs : List (String × String)) :
    (attributeEvents pairs).foldlM Reader.push r = .ok { r with pending := r.pending ++ pairs } := by
  induction pairs generalizing r with
  | nil =>
    rw [List.append_nil]
    rfl
  | cons pair pairs ih =>
    rw [attributeEvents, List.flatMap_cons, List.foldlM_append, foldlM_attr r hr]
    have hrest := ih { r with pending := r.pending ++ [pair] } hr
    rwa [List.append_assoc] at hrest

theorem itemAttributes_append {s s' : QueryItem × Paging} {xs : List (String × String)}
    (h : itemAttributes s.1 s.2 xs = .ok s') (ys : List (String × String)) :
    itemAttributes s.1 s.2 (xs ++ ys) = itemAttributes s'.1 s'.2 ys := by
  induction xs generalizing s with
  | nil =>
    cases h
    rfl
  | cons x xs ih =>
    rw [itemAttributes] at h
    rw [List.cons_append, itemAttributes]
    cases hx : itemAttribute s.1 s.2 x.1 x.2 with
    | error e =>
      rw [hx] at h
      cases h
    | ok found =>
      rw [hx] at h
      exact ih h

/-! ### Items -/

/-- An item of this type, and attributes for later, that restrict nothing. -/
structure Unfiltered (typeName : String) (select : Option String) (s : QueryItem × Paging) : Prop where
  typed : s.1.typeName = some typeName
  unfiltered : s.1.filter = none
  later : s.2.filter = none
  select : s.2.select = select

/-- The events are attributes that can be read; they set the select list as told and restrict nothing. -/
def Carries (typeName : String) (select select' : Option String) (events : List Xml.Event) : Prop :=
  ∀ s, Unfiltered typeName select s → ∃ pairs s', events = attributeEvents pairs ∧
    itemAttributes s.1 s.2 pairs = .ok s' ∧ Unfiltered typeName select' s'

section
variable {typeName : String} {select select' select'' : Option String}

theorem carries_nil : Carries typeName select select [] :=
  fun s hs => ⟨[], s, rfl, rfl, hs⟩

theorem Carries.append {es es' : List Xml.Event} (h : Carries typeName select select' es)
    (h' : Carries typeName select' select'' es') : Carries typeName select select'' (es ++ es') := by
  intro s hs
  obtain ⟨pairs, s₁, rfl, hread, hs₁⟩ := h s hs
  obtain ⟨pairs', s₂, rfl, hread', hs₂⟩ := h' s₁ hs₁
  refine ⟨pairs ++ pairs', s₂, ?_, ?_, hs₂⟩
  · rw [attributeEvents, attributeEvents, attributeEvents, List.flatMap_append]
  · rw [itemAttributes_append hread, hread']

theorem carries_attr {name value : String}
    (h : ∀ s, Unfiltered typeName select s →
      ∃ s', itemAttribute s.1 s.2 name value = .ok s' ∧ Unfiltered typeName select' s') :
    Carries typeName select select' (Xml.Event.attr name value) := by
  intro s hs
  obtain ⟨s', hread, hs'⟩ := h s hs
  refine ⟨[(name, value)], s', (List.append_nil _).symm, ?_, hs'⟩
  rw [itemAttributes, hread]
  rfl

theorem carries_option {name : String} (h : ∀ value, Carries typeName select select (Xml.Event.attr name value))
    (value : Option String) : Carries typeName select select (value.elim [] (Xml.Event.attr name)) := by
  cases value with
  | none => exact carries_nil
  | some value => exact h value

/-! ### Counts -/

theorem trim_uint64Text (n : UInt64) : Text.trim (Number.uint64Text n) = Number.uint64Text n := by
  have hblank : ∀ c ∈ (Number.uint64Text n).toList, Text.isBlank c = false := fun c hc =>
    Text.isBlank_eq_false_of_isDigit (Number.isDigit_of_mem_toString hc)
  rw [Text.trim, Text.trimWhile_of_forall hblank, String.ofList_toList]

theorem readCount_uint64Text (name : String) (n : UInt64) : readCount name (Number.uint64Text n) = .ok n := by
  rw [readCount, trim_uint64Text, Number.readUInt64?_uint64Text]

/-- A count that goes to the attributes for later. -/
theorem carries_count (name : String) (store : Paging → UInt64 → Paging)
    (hread : ∀ item later value,
      itemAttribute item later name value = (readCount name value).map fun n => (item, store later n))
    (hstore : ∀ later n, (store later n).filter = later.filter ∧ (store later n).select = later.select) (n : UInt64) :
    Carries typeName select select (Xml.Event.attr name (Number.uint64Text n)) := by
  refine carries_attr fun s hs => ⟨(s.1, store s.2 n), ?_, hs.typed, hs.unfiltered, ?_, ?_⟩
  · rw [hread, readCount_uint64Text]
    rfl
  · exact (hstore s.2 n).1.trans hs.later
  · exact (hstore s.2 n).2.trans hs.select

theorem carries_pagingAttributes {item : QueryItem} {events : List Xml.Event}
    (h : Writer.pagingAttributes item = .ok events) : Carries typeName select select events := by
  unfold Writer.pagingAttributes at h
  split at h
  · cases h
    exact carries_nil
  · cases h
    exact carries_count "maxRecords" (fun later n => { later with maxRecords := some n }) (fun _ _ _ => rfl)
      (fun _ _ => ⟨rfl, rfl⟩) _
  · dsimp only at h
    split at h
    · cases h
      refine (carries_count "page" (fun later n => { later with page := some n }) (fun _ _ _ => rfl)
        (fun _ _ => ⟨rfl, rfl⟩) _).append ?_
      exact carries_count "pagesize" (fun later n => { later with pageSize := some n }) (fun _ _ _ => rfl)
        (fun _ _ => ⟨rfl, rfl⟩) _
    · cases h

/-! ### Written attributes -/

/-- A text that goes to the item. -/
theorem carries_field (name : String) (store : QueryItem → String → QueryItem)
    (hread : ∀ item later value, itemAttribute item later name value = .ok (store item value, later))
    (hstore : ∀ item value, (store item value).typeName = item.typeName ∧ (store item value).filter = item.filter)
    (value : String) : Carries typeName select select (Xml.Event.attr name value) := by
  refine carries_attr fun s hs => ⟨(store s.1 value, s.2), hread s.1 s.2 value, ?_, ?_, hs.later, hs.select⟩
  · exact (hstore s.1 value).1.trans hs.typed
  · exact (hstore s.1 value).2.trans hs.unfiltered

/-- The type comes first. -/
theorem exists_identityAttributes (w : Writer) (table : TableId) (item : QueryItem)
    (htype : w.ctx.tableTypeName w.query table = some typeName) :
    ∃ events, w.identityAttributes table item = Xml.Event.attr "type" typeName ++ events ∧
      Carries typeName select select events := by
  have haction : Carries typeName select select (Xml.Event.attr "action" "get") :=
    carries_attr fun s hs => ⟨s, if_pos (by decide +kernel), hs⟩
  have hid : Carries typeName select select (item.id.elim [] (Xml.Event.attr "id")) :=
    carries_option (carries_field "id" (fun item value => { item with id := some value }) (fun _ _ _ => rfl)
      fun _ _ => ⟨rfl, rfl⟩) item.id
  have hidList : Carries typeName select select
      (if item.idList.isEmpty then [] else Xml.Event.attr "idlist" (",".intercalate item.idList)) := by
    split
    · exact carries_nil
    · exact carries_field "idlist" (fun item value => { item with idList := readIdList value }) (fun _ _ _ => rfl)
        (fun _ _ => ⟨rfl, rfl⟩) _
  have htypeId : Carries typeName select select (item.typeId.elim [] (Xml.Event.attr "typeId")) :=
    carries_option (carries_field "typeId" (fun item value => { item with typeId := some value }) (fun _ _ _ => rfl)
      fun _ _ => ⟨rfl, rfl⟩) item.typeId
  refine ⟨_, ?_, ((haction.append hid).append hidList).append htypeId⟩
  rw [Writer.identityAttributes, htype]
  simp only [Option.elim_some, List.append_assoc]

/-- The select list is the only attribute of a listed item that has to be read later. -/
theorem carries_listingAttributes {w : Writer} {table : TableId} {item : QueryItem} {events : List Xml.Event}
    (h : w.listingAttributes table item = .ok events) :
    Carries typeName none (w.select? (w.query.tableCount + 1) table) events := by
  unfold Writer.listingAttributes at h
  obtain ⟨keys, -, h⟩ := Result.bind_eq_ok.mp h
  obtain ⟨paging, hpaging, h⟩ := Result.bind_eq_ok.mp h
  cases h
  have halias : Carries typeName none none (item.aliasName.elim [] (Xml.Event.attr "alias")) :=
    carries_option (carries_field "alias" (fun item value => { item with aliasName := some value }) (fun _ _ _ => rfl)
      fun _ _ => ⟨rfl, rfl⟩) item.aliasName
  have hselect : Carries typeName none (w.select? (w.query.tableCount + 1) table)
      ((w.select? (w.query.tableCount + 1) table).elim [] (Xml.Event.attr "select")) := by
    cases w.select? (w.query.tableCount + 1) table with
    | none => exact carries_nil
    | some text =>
      exact carries_attr fun s hs =>
        ⟨(s.1, { s.2 with select := some text }), rfl, hs.typed, hs.unfiltered, hs.later, rfl⟩
  refine ((halias.append hselect).append ?_).append (carries_pagingAttributes hpaging)
  split
  · exact carries_nil
  · exact carries_attr fun s hs => ⟨(s.1, { s.2 with orderBy := some (",".intercalate keys) }), rfl, hs.1, hs.2, hs.3, hs.4⟩

end

/-! ### Select lists -/

/-- A query as it is before its criteria are read: the root is of this type and has no filter. -/
structure Bare (typeName : String) (q : Query) : Prop where
  root : q.root = (Query.ofItem {}).root
  free : q.arena.free = []
  found : ∃ item, q.get? q.root = some item ∧ item.typeName = some typeName ∧ item.filter = none

section
variable {typeName : String} {q : Query} (h : Bare typeName q)
include h

theorem Bare.modify (id : TableId) {f : QueryItem → QueryItem}
    (hf : ∀ item, (f item).typeName = item.typeName ∧ (f item).filter = item.filter) : Bare typeName (q.modify id f) := by
  refine ⟨h.root, ?_, ?_⟩
  · rw [Query.modify, Arena.free_modify]
    exact h.free
  · obtain ⟨item, hitem, htyped, hfilter⟩ := h.found
    by_cases hid : q.root = id
    · refine ⟨f item, ?_, (hf item).1.trans htyped, (hf item).2.trans hfilter⟩
      rw [Query.get?] at hitem
      simp only [Query.get?, Query.modify, ← hid, Arena.get?_modify_self, hitem, Option.map_some]
    · refine ⟨item, ?_, htyped, hfilter⟩
      rw [Query.get?] at hitem
      simp only [Query.get?, Query.modify, Arena.get?_modify_of_ne f hid, hitem]

theorem Bare.addTable (other : QueryItem) : Bare typeName (q.addTable other).2 := by
  obtain ⟨item, hitem, htyped, hfilter⟩ := h.found
  obtain ⟨hget, hfree⟩ := Arena.get?_insert_of_free_eq_nil h.free hitem other
  exact ⟨h.root, hfree, item, hget, htyped, hfilter⟩

theorem Bare.joinProperty (table : TableId) (name : String) (kind : JoinKind) :
    Bare typeName (q.joinProperty table name kind).2 := by
  unfold Query.joinProperty
  dsimp only
  split
  · dsimp only
    split
    · exact h.modify table fun _ => ⟨rfl, rfl⟩
    · exact h
  · exact (h.addTable _).modify table fun _ => ⟨rfl, rfl⟩

end

mutual

theorem Bare.addSelectNode {typeName : String} {q : Query} (h : Bare typeName q) (table : TableId) :
    ∀ node, Bare typeName (addSelectNode q table node)
  | .node name children => by
    unfold Aml.addSelectNode
    dsimp only
    split
    · exact h.modify table fun item => ⟨rfl, rfl⟩
    · refine ((h.modify table ?_).joinProperty table name .leftOuter).addSelectNodes _ children
      exact fun item => ⟨rfl, rfl⟩

theorem Bare.addSelectNodes {typeName : String} {q : Query} (h : Bare typeName q) (table : TableId) :
    ∀ nodes, Bare typeName (addSelectNodes q table nodes)
  | [] => h
  | node :: nodes => (h.addSelectNode table node).addSelectNodes table nodes

end

/-- A select list that can be read; a blank one selects nothing. -/
def Selectable (text : String) : Prop :=
  (Text.trim text).isEmpty = true ∨ ∃ nodes, readSelect text = .ok nodes

theorem Bare.applySelect {typeName : String} {q : Query} (h : Bare typeName q) (table : TableId) {text : String}
    (htext : Selectable text) : ∃ q', applySelect q table text = .ok q' ∧ Bare typeName q' := by
  unfold Aml.applySelect
  split
  · exact ⟨q, rfl, h⟩
  · rename_i hblank
    obtain ⟨nodes, hnodes⟩ := htext.resolve_left hblank
    exact ⟨_, by rw [hnodes]; rfl, h.addSelectNodes table nodes⟩

theorem apply_keeps (later : Paging) (item : QueryItem) :
    (later.apply item).typeName = item.typeName ∧ (later.apply item).filter = item.filter := by
  unfold Paging.apply
  split <;> exact ⟨rfl, rfl⟩

/-- The attributes of a new item take effect. -/
theorem exists_applyItemAttributes {typeName : String} {select : Option String} {s : QueryItem × Paging}
    {pairs : List (String × String)} (hread : itemAttributes {} {} pairs = .ok s) (hs : Unfiltered typeName select s)
    (hselect : ∀ text, select = some text → Selectable text) :
    ∃ q, applyItemAttributes (.ofItem {}) (Query.ofItem {}).root pairs = .ok (q, []) ∧ Bare typeName q := by
  have hbare : Bare typeName ((Query.ofItem {}).modify (Query.ofItem {}).root fun _ => s.2.apply s.1) := by
    obtain ⟨htyped, hfilter⟩ := apply_keeps s.2 s.1
    exact ⟨rfl, rfl, _, Arena.get?_modify_self _, htyped.trans hs.typed, hfilter.trans hs.unfiltered⟩
  have hitem : (Query.ofItem {}).item (Query.ofItem {}).root = .ok {} := rfl
  cases select with
  | none =>
    simp only [applyItemAttributes, hitem, bind, Except.bind, hread, hs.select, hs.later]
    refine ⟨_, rfl, ?_⟩
    split
    · exact hbare.modify _ fun _ => ⟨rfl, rfl⟩
    · exact hbare
  | some text =>
    obtain ⟨q, hq, hbare'⟩ := hbare.applySelect (Query.ofItem {}).root (hselect text rfl)
    simp only [applyItemAttributes, hitem, bind, Except.bind, hread, hs.select, hs.later, hq]
    refine ⟨_, rfl, ?_⟩
    split
    · exact hbare'.modify _ fun _ => ⟨rfl, rfl⟩
    · exact hbare'

end ItemQuery.Aml
