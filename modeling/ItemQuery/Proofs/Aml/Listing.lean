import ItemQuery.Proofs.Aml.Formed
import ItemQuery.Proofs.Aml.RoundTrip
import ItemQuery.Proofs.Query.Copies
import ItemQuery.Proofs.Query.KeyTree
import ItemQuery.Proofs.Text.Pieces

/-! The attributes of an item that is listed and not restricted by criteria. What they say of the item comes back
    from its events: texts as they are, lists from the commas between their entries, and the offset from the number
    of the page, by a division and a multiplication that do not overflow. -/

namespace ItemQuery

/-- The same sort key of another table. -/
def SortKey.movedTo (table : TableId) (key : SortKey) : SortKey :=
  { key with expr := key.expr.mapTables fun _ => table }

end ItemQuery

namespace ItemQuery.Aml

open Query

/-! ### Optional attributes -/

/-- The pair of an attribute, unless it has no value. -/
def attribute? (name : String) (value : Option String) : List (String × String) :=
  value.elim [] fun text => [(name, text)]

/-- Texts with commas between them, unless there are none. -/
def joined? (texts : List String) : Option String :=
  if texts.isEmpty then none else some (",".intercalate texts)

theorem joined?_eq_none {texts : List String} : joined? texts = none ↔ texts = [] := by
  cases texts <;> simp [joined?]

theorem joined?_eq_some {texts : List String} {text : String} :
    joined? texts = some text ↔ texts ≠ [] ∧ ",".intercalate texts = text := by
  cases texts <;> simp [joined?]

theorem attributeEvents_joined? (name : String) (texts : List String) :
    attributeEvents (attribute? name (joined? texts))
      = if texts.isEmpty then [] else Xml.Event.attr name (",".intercalate texts) := by
  rw [attribute?, attributeEvents_option, joined?]
  split <;> rfl

/-- Attributes lead from one item, with the attributes for later, to another. -/
def Leads (s : QueryItem × Paging) (pairs : List (String × String)) (s' : QueryItem × Paging) : Prop :=
  itemAttributes s.1 s.2 pairs = .ok s'

section
variable {s s' s'' : QueryItem × Paging} {pairs pairs' : List (String × String)} {name : String}

theorem Leads.append (h : Leads s pairs s') (h' : Leads s' pairs' s'') : Leads s (pairs ++ pairs') s'' := by
  rw [Leads, itemAttributes_append h]
  exact h'

/-- An attribute that is there is read, and one that is not changes nothing. -/
theorem leads_attribute? {value : Option String}
    (h : ∀ text, value = some text → itemAttribute s.1 s.2 name text = .ok s') (hnone : value = none → s = s') :
    Leads s (attribute? name value) s' := by
  cases value with
  | none =>
    rw [← hnone rfl]
    rfl
  | some text =>
    simp only [Leads, attribute?, Option.elim_some, itemAttributes, h text rfl]

/-- An attribute whose text is kept as it is. -/
theorem leads_text (name : String) (store : Option String → QueryItem × Paging)
    (h : ∀ text, itemAttribute (store none).1 (store none).2 name text = .ok (store (some text))) (value : Option String) :
    Leads (store none) (attribute? name value) (store value) := by
  refine leads_attribute? (fun text htext => ?_) fun hnone => ?_
  · rw [htext, h text]
  · rw [hnone]

end

/-! ### Lists -/

/-- An id that a list of ids keeps as it is. -/
structure ListedId (id : String) : Prop where
  nonempty : id ≠ ""
  uncut : ',' ∉ id.toList
  ends : ∀ c, id.toList.head? = some c ∨ id.toList.getLast? = some c → Text.isBlank c = false ∧ c ≠ '\''

/-- A name that a list of sort keys keeps as it is. -/
structure ListedName (name : String) : Prop where
  nonempty : name ≠ ""
  unbroken : ∀ c ∈ name.toList, c ≠ ',' ∧ Text.isBlank c = false

theorem pieces_joined {texts : List String} (hne : texts ≠ []) (h : ∀ text ∈ texts, ',' ∉ text.toList) :
    Text.pieces (· == ',') (",".intercalate texts) = texts :=
  Text.pieces_intercalate hne fun text htext _ hc hcomma => h text htext (hcomma ▸ hc)

/-- Neither white space nor quotes are taken from a listed id. -/
theorem ListedId.trimmed {id : String} (h : ListedId id) :
    String.ofList (Text.trimWhile (· == '\'') (Text.trim id).toList) = id := by
  have hblank : Text.trimWhile Text.isBlank id.toList = id.toList :=
    Text.trimWhile_eq_self_iff.mpr fun c hc => (h.ends c hc).1
  have hquote : Text.trimWhile (· == '\'') id.toList = id.toList :=
    Text.trimWhile_eq_self_iff.mpr fun c hc => beq_eq_false_iff_ne.mpr (h.ends c hc).2
  rw [Text.trim, hblank, String.toList_ofList, hquote, String.ofList_toList]

theorem readIdList_joined {ids : List String} (hne : ids ≠ []) (h : ∀ id ∈ ids, ListedId id) :
    readIdList (",".intercalate ids) = ids := by
  have htrimmed : ids.map (fun id => String.ofList (Text.trimWhile (· == '\'') (Text.trim id).toList)) = ids :=
    (List.map_congr_left fun id hid => (h id hid).trimmed).trans (List.map_id ids)
  rw [readIdList, pieces_joined hne fun id hid => (h id hid).uncut]
  rw [htrimmed, List.filter_eq_self]
  intro id hid
  simpa using (h id hid).nonempty

/-- A sort key of a property of `table` that a list keeps as it is. -/
def ListedKey (table : TableId) (key : SortKey) : Prop :=
  ∃ name, key.expr = .prop table name ∧ ListedName name

/-- The sort key of an entry of a list; none of a blank one. -/
def sortKeyOf? (table : TableId) (entry : String) : Option SortKey :=
  match Text.words entry with
  | [] => none
  | name :: rest =>
    let descending := rest.head?.any (·.toLower == "desc")
    some { expr := .prop table name, direction := if descending then .descending else .ascending }

theorem readOrderBy_eq (table : TableId) (value : String) :
    readOrderBy table value = (Text.pieces (· == ',') value).filterMap (sortKeyOf? table) :=
  rfl

section
variable {table : TableId} {name : String}

theorem sortKey_of_name {key : SortKey} (h : key.expr = .prop table name) :
    Writer.sortKey table key = .ok (if key.direction = .descending then name ++ " DESC" else name) := by
  rw [Writer.sortKey, h, Expr.prop, ownProperty_self ⟨table, name⟩]
  rfl

theorem ListedName.words (h : ListedName name) : Text.words name = [name] :=
  Text.words_of_forall h.nonempty fun c hc => (h.unbroken c hc).2

theorem ListedName.words_descending (h : ListedName name) : Text.words (name ++ " DESC") = [name, "DESC"] := by
  have hshown : name ++ " DESC" = name ++ " " ++ "DESC" := by
    rw [String.append_assoc]
    rfl
  rw [hshown, Text.words_append h.nonempty fun c hc => (h.unbroken c hc).2,
    Text.words_of_forall (by decide) (by decide)]

end

/-- A sort key is written as one entry of a list, and is read back for another table. -/
theorem ListedKey.exists_shown {table : TableId} {key : SortKey} (h : ListedKey table key) (target : TableId) :
    ∃ shown, Writer.sortKey table key = .ok shown ∧ ',' ∉ shown.toList ∧
      sortKeyOf? target shown = some (key.movedTo target) := by
  obtain ⟨name, hname, hlisted⟩ := h
  have hcomma : ',' ∉ name.toList := fun hmem => (hlisted.unbroken ',' hmem).1 rfl
  refine ⟨_, sortKey_of_name hname, ?_⟩
  obtain ⟨expr, direction⟩ := key
  cases hname
  cases direction with
  | ascending =>
    refine ⟨hcomma, ?_⟩
    simp only [sortKeyOf?, reduceCtorEq, if_false, hlisted.words]
    rfl
  | descending =>
    have hdesc : ("DESC".toLower == "desc") = true := by decide +kernel
    refine ⟨?_, ?_⟩
    · rw [if_pos rfl, String.toList_append, List.mem_append, not_or]
      exact ⟨hcomma, by decide⟩
    · simp only [sortKeyOf?, if_true, hlisted.words_descending, List.head?_cons, Option.any_some, hdesc]
      rfl

/-- Sort keys are written, and read back for another table. -/
theorem exists_readOrderBy {table : TableId} {keys : List SortKey} (h : ∀ key ∈ keys, ListedKey table key)
    (target : TableId) :
    ∃ shown, keys.mapM (Writer.sortKey table) = .ok shown ∧ shown.length = keys.length ∧
      (shown ≠ [] → readOrderBy target (",".intercalate shown) = keys.map (SortKey.movedTo target)) := by
  have hshown : ∃ shown, keys.mapM (Writer.sortKey table) = .ok shown ∧ shown.length = keys.length ∧
      (∀ text ∈ shown, ',' ∉ text.toList) ∧
      shown.filterMap (sortKeyOf? target) = keys.map (SortKey.movedTo target) := by
    induction keys with
    | nil => exact ⟨[], rfl, rfl, List.forall_mem_nil _, rfl⟩
    | cons key keys ih =>
      rw [List.forall_mem_cons] at h
      obtain ⟨text, hwritten, hcomma, hread⟩ := h.1.exists_shown target
      obtain ⟨texts, hwrittens, hlength, hcommas, hreads⟩ := ih h.2
      refine ⟨text :: texts, ?_, ?_, List.forall_mem_cons.mpr ⟨hcomma, hcommas⟩, ?_⟩
      · rw [List.mapM_cons, hwritten, hwrittens]
        rfl
      · rw [List.length_cons, List.length_cons, hlength]
      · rw [List.filterMap_cons_some hread, hreads, List.map_cons]
  obtain ⟨shown, hwritten, hlength, hcommas, hread⟩ := hshown
  refine ⟨shown, hwritten, hlength, fun hne => ?_⟩
  rw [readOrderBy_eq, pieces_joined hne hcommas, hread]

/-! ### Pages -/

/-- An offset that is no whole number of pages. -/
def Unpaged (item : QueryItem) : Prop :=
  ∃ offset, item.offset = some offset ∧ 0 < offset ∧ ∀ size, item.fetch = some size → size = 0 ∨ offset % size ≠ 0

/-- The number of the page at an offset is computed as of whole numbers, without overflow. -/
def Numbered (item : QueryItem) : Prop :=
  ∀ offset size, item.offset = some offset → item.fetch = some size → 0 < offset → 0 < size → offset % size = 0 →
    (offset / size + 1).toNat = offset.toNat / size.toNat + 1

/-- The offset of a page is computed as of whole numbers, without overflow. -/
def Paging.Exact (p : Paging) : Prop :=
  ∀ size, p.pageSize = some size →
    ((if p.page.getD 1 = 0 then 0 else p.page.getD 1 - 1) * size).toNat = ((p.page.getD 1).toNat - 1) * size.toNat

theorem exists_page_of_not_unpaged {item : QueryItem} (h : ¬Unpaged item) {offset : UInt64}
    (hoffset : item.offset = some offset) (hpositive : 0 < offset) :
    ∃ size, item.fetch = some size ∧ 0 < size ∧ offset % size = 0 := by
  by_contra hnone
  refine h ⟨offset, hoffset, hpositive, fun size hsize => ?_⟩
  by_contra hboth
  rw [not_or, not_not] at hboth
  exact hnone ⟨size, hsize, UInt64.pos_iff_ne_zero.mpr hboth.1, hboth.2⟩

theorem numbered_of_bounded {item : QueryItem} (h : ∀ offset, item.offset = some offset → offset.toNat < 2 ^ 64 - 1) :
    Numbered item := by
  intro offset size hoffset _ _ _ _
  have hbound := h offset hoffset
  have hquotient := Nat.div_le_self offset.toNat size.toNat
  rw [UInt64.toNat_add, UInt64.toNat_div, UInt64.toNat_one, Nat.mod_eq_of_lt (by omega)]

theorem toNat_div_mul_cancel {offset size : UInt64} (h : offset % size = 0) :
    offset.toNat / size.toNat * size.toNat = offset.toNat := by
  refine Nat.div_mul_cancel (Nat.dvd_of_mod_eq_zero ?_)
  rw [← UInt64.toNat_mod, h]
  rfl

/-- The page at an offset starts at the offset. -/
theorem offset_of_page {offset size : UInt64} (h : offset % size = 0)
    (hnumber : (offset / size + 1).toNat = offset.toNat / size.toNat + 1) :
    (if offset / size + 1 = 0 then 0 else offset / size + 1 - 1) * size = offset ∧
      offset.toNat = ((offset / size + 1).toNat - 1) * size.toNat := by
  have hpage : offset / size + 1 ≠ 0 := by
    intro hzero
    rw [hzero] at hnumber
    exact absurd hnumber.symm (Nat.succ_ne_zero _)
  refine ⟨?_, ?_⟩
  · rw [if_neg hpage, UInt64.add_sub_cancel]
    refine UInt64.toNat_inj.mp ?_
    rw [UInt64.toNat_mul, UInt64.toNat_div, toNat_div_mul_cancel h, Nat.mod_eq_of_lt offset.toNat_lt]
  · rw [hnumber, Nat.add_sub_cancel, toNat_div_mul_cancel h]

/-- The offset of an item, of which zero is none. -/
def positiveOffset? (item : QueryItem) : Option UInt64 :=
  item.offset.filter (0 < ·)

/-- These attributes for later give an item without an offset the limit and the offset of `item`. -/
def Paging.Restores (p : Paging) (item : QueryItem) : Prop :=
  ∀ other, other.offset = none → p.apply other = { other with fetch := item.fetch, offset := positiveOffset? item }

theorem Paging.restores_of_maxRecords {p : Paging} {item : QueryItem} (hoffset : positiveOffset? item = none)
    (hsize : p.pageSize = none) (hcount : p.maxRecords = item.fetch) : p.Restores item := by
  intro other hother
  simp only [Paging.apply, hsize, hcount, hoffset]
  rw [← hother]

/-- The page at the offset of an item is read back, without overflow. -/
theorem Paging.restores_of_page {item : QueryItem} {offset size : UInt64} (hoffset : positiveOffset? item = some offset)
    (hfetch : item.fetch = some size) (hwhole : offset % size = 0)
    (hnumber : (offset / size + 1).toNat = offset.toNat / size.toNat + 1) :
    let p : Paging := { page := some (offset / size + 1), pageSize := some size }
    p.Exact ∧ p.Restores item := by
  obtain ⟨hread, hexact⟩ := offset_of_page hwhole hnumber
  have hpositive : offset ≠ 0 := by
    rintro rfl
    exact absurd (Option.filter_eq_some_iff.mp hoffset).2 (by decide)
  refine ⟨?_, fun other _ => ?_⟩
  · rintro _ ⟨⟩
    rw [Option.getD_some, hread, hexact]
  · simp only [Paging.apply, Option.getD_some, hread, if_neg hpositive, hoffset, hfetch]

theorem pagingAttributes_of_unpaged {item : QueryItem} (h : Unpaged item) :
    ∃ err, Writer.pagingAttributes item = .error err := by
  obtain ⟨offset, hoffset, hpositive, hsizes⟩ := h
  have hfilter : item.offset.filter (0 < ·) = some offset := by
    rw [hoffset, Option.filter_some, if_pos (decide_eq_true hpositive)]
  rw [Writer.pagingAttributes, hfilter]
  refine ⟨_, if_neg ?_⟩
  rintro ⟨hsize, hwhole⟩
  cases hfetch : item.fetch with
  | none => exact absurd (hfetch ▸ hsize) (by decide)
  | some size =>
    rw [hfetch, Option.getD_some] at hsize hwhole
    exact (hsizes size hfetch).elim (fun hzero => absurd (hzero ▸ hsize) (by decide)) (absurd hwhole)

/-- The limit and the offset of an item are written as attributes from which they are read back, without overflow. -/
theorem exists_pages {item : QueryItem} (h : ¬Unpaged item) (hnumbered : Numbered item) :
    ∃ (pairs : List (String × String)) (p : Paging),
      Writer.pagingAttributes item = .ok (attributeEvents pairs) ∧ p.Exact ∧ p.Restores item ∧
      p.select = none ∧ p.filter = none ∧
        ∀ other order, Leads (other, { orderBy := order }) pairs (other, { p with orderBy := order }) := by
  cases hoffset : positiveOffset? item with
  | none =>
    have hfilter : item.offset.filter (0 < ·) = none := hoffset
    cases hfetch : item.fetch with
    | none =>
      refine ⟨[], {}, ?_, by rintro size ⟨⟩, Paging.restores_of_maxRecords hoffset rfl hfetch.symm, rfl, rfl,
        fun _ _ => rfl⟩
      rw [Writer.pagingAttributes, hfilter, hfetch]
      rfl
    | some fetch =>
      refine ⟨[("maxRecords", Number.uint64Text fetch)], { maxRecords := some fetch }, ?_, by rintro size ⟨⟩,
        Paging.restores_of_maxRecords hoffset rfl hfetch.symm, rfl, rfl, fun other order => ?_⟩
      · rw [Writer.pagingAttributes, hfilter, hfetch]
        exact congrArg Except.ok (List.append_nil _).symm
      · simp only [Leads, itemAttributes, itemAttribute, readCount_uint64Text, Except.map]
  | some offset =>
    have hfilter : item.offset.filter (0 < ·) = some offset := hoffset
    obtain ⟨hsome, hpositive⟩ := Option.filter_eq_some_iff.mp hfilter
    have hpositive := of_decide_eq_true hpositive
    obtain ⟨size, hfetch, hsize, hwhole⟩ := exists_page_of_not_unpaged h hsome hpositive
    obtain ⟨hexact, hrestores⟩ := Paging.restores_of_page hoffset hfetch hwhole
      (hnumbered offset size hsome hfetch hpositive hsize hwhole)
    refine ⟨[("page", Number.uint64Text (offset / size + 1)), ("pagesize", Number.uint64Text size)], _, ?_, hexact,
      hrestores, rfl, rfl, fun other order => ?_⟩
    · rw [Writer.pagingAttributes, hfilter, hfetch]
      exact (if_pos ⟨hsize, hwhole⟩).trans (congrArg Except.ok (by simp [attributeEvents]))
    · simp only [Leads, itemAttributes, itemAttribute, readCount_uint64Text, Except.map]

/-! ### Items without criteria -/

/-- A query of one table that lists rows by sort keys and pages, and selects and asks for nothing else. -/
structure Listing (q : Query) (item : QueryItem) : Prop where
  single : q.Single item
  typed : ∃ typeName, item.typeName = some typeName ∧ typeName ≠ ""
  ids : ∀ id ∈ item.idList, ListedId id
  sorted : ∀ key ∈ item.orderBy, ListedKey q.root key
  unselected : item.select = []
  unfiltered : item.filter = none
  bounded : ∀ offset, item.offset = some offset → offset.toNat < 2 ^ 64 - 1

/-- What is read back of an item: an offset of zero is none, the sort keys are those of the new root, and nothing leads
    to it. -/
def reread (item : QueryItem) : QueryItem :=
  { item with
    offset := positiveOffset? item
    orderBy := item.orderBy.map (SortKey.movedTo (Query.ofItem {}).root)
    provider := none }

/-- The attributes of an item with this type before its listing. -/
def identityPairs (typeName : String) (item : QueryItem) : List (String × String) :=
  [("type", typeName), ("action", "get")] ++ idPairs item

/-- The attributes of a listed item before its page. -/
def orderPairs (item : QueryItem) (shown : List String) : List (String × String) :=
  attribute? "alias" item.aliasName ++ attribute? "orderBy" (joined? shown)

section
variable {q : Query} {item : QueryItem}

theorem idPairs_eq (item : QueryItem) : idPairs item =
    attribute? "id" item.id ++ attribute? "idlist" (joined? item.idList) ++ attribute? "typeId" item.typeId := by
  unfold idPairs attribute? joined?
  cases item.id <;> cases item.idList.isEmpty <;> cases item.typeId <;> rfl

theorem leads_identityPairs (h : ∀ id ∈ item.idList, ListedId id) (typeName : String) :
    Leads ({}, {}) (identityPairs typeName item)
      ({ typeName := some typeName, id := item.id, idList := item.idList, typeId := item.typeId }, {}) := by
  have hstart : Leads ({}, {}) [("type", typeName), ("action", "get")] ({ typeName := some typeName }, {}) := by
    have haction : "get".toLower = "get" := by decide +kernel
    simp only [Leads, itemAttributes, itemAttribute, haction, if_true]
  have hid := leads_text "id" (fun id => ({ typeName := some typeName, id }, {})) (fun _ => rfl) item.id
  have hidList : Leads ({ typeName := some typeName, id := item.id }, {}) (attribute? "idlist" (joined? item.idList))
      ({ typeName := some typeName, id := item.id, idList := item.idList }, {}) := by
    refine leads_attribute? (fun text htext => ?_) fun hnone => ?_
    · obtain ⟨hne, rfl⟩ := joined?_eq_some.mp htext
      simp only [itemAttribute, readIdList_joined hne h]
    · rw [joined?_eq_none.mp hnone]
  have htypeId := leads_text "typeId"
    (fun typeId => ({ typeName := some typeName, id := item.id, idList := item.idList, typeId }, {}))
    (fun _ => rfl) item.typeId
  rw [identityPairs, idPairs_eq]
  exact hstart.append ((hid.append hidList).append htypeId)

theorem leads_orderPairs (item other : QueryItem) (shown : List String) :
    Leads ({ other with aliasName := none }, {}) (orderPairs item shown)
      ({ other with aliasName := item.aliasName }, { orderBy := joined? shown }) := by
  have halias := leads_text "alias" (fun aliasName => ({ other with aliasName }, {})) (fun _ => rfl) item.aliasName
  have horder := leads_text "orderBy" (fun orderBy => ({ other with aliasName := item.aliasName }, { orderBy }))
    (fun _ => rfl) (joined? shown)
  exact halias.append horder

theorem Listing.identityAttributes (ctx : Context) (h : Listing q item) {typeName : String}
    (htyped : item.typeName = some typeName) :
    Writer.identityAttributes ⟨ctx, q⟩ q.root item = attributeEvents (identityPairs typeName item) := by
  have htype : ctx.tableTypeName q q.root = some typeName := by
    rw [Context.tableTypeName, Context.typeNameWithin, h.single.found, Option.bind_some, htyped]
    rfl
  rw [identityAttributes_eq, htype]
  rfl

/-- Nothing is selected, so the select list is not written. -/
theorem Listing.select?_eq_none (ctx : Context) (h : Listing q item) (depth : Nat) :
    Writer.select? ⟨ctx, q⟩ depth q.root = none := by
  have hkeys : item.foreignKeys = [] := by
    rw [QueryItem.foreignKeys, h.single.unjoined]
    rfl
  cases depth with
  | zero => rfl
  | succ depth =>
    rw [Writer.select?, h.single.found, Option.bind_some, hkeys, h.unselected]
    rfl

theorem Part.all_of_forall {parts : List Part} (h : ∀ part ∈ parts, ∀ seen, part seen = .ok ([], seen))
    (seen : List TableId) :
    Part.all parts seen = .ok ([], seen) := by
  induction parts with
  | nil => rfl
  | cons part parts ih =>
    rw [List.forall_mem_cons] at h
    simp only [Part.all, h.1 seen, ih h.2, bind, Except.bind]
    rfl

/-- Attributes only are written for a root that is not restricted, by tables behind its foreign keys neither. -/
theorem events_of_unrestricted (ctx : Context) (hitem : q.get? q.root = some item) (hfilter : item.filter = none)
    (hrelationships : item.relationships = [])
    (hkeys : ∀ j ∈ item.foreignKeys, Writer.hasCriteria ⟨ctx, q⟩ (q.tableCount + 1) j.right = false) :
    events ctx q = (Writer.listingAttributes ⟨ctx, q⟩ q.root item).map fun listing =>
      Xml.Event.element "Item" (Writer.identityAttributes ⟨ctx, q⟩ q.root item ++ listing) := by
  have hroot : q.item q.root = .ok item := by
    rw [Query.item, hitem]
  rw [events, Writer.item]
  simp only [hroot, hfilter, hrelationships, bind, Except.bind, if_true, List.contains_nil, Bool.false_eq_true, if_false,
    Option.toList_none, List.flatMap_nil, List.map_nil, List.isEmpty_nil, List.append_nil]
  cases Writer.listingAttributes ⟨ctx, q⟩ q.root item with
  | error err => rfl
  | ok listing =>
    dsimp only
    rw [Part.all_of_forall]
    · dsimp only
      rw [List.append_nil]
      rfl
    · intro part hpart seen
      rcases List.mem_cons.mp hpart with rfl | hpart
      · rfl
      · obtain ⟨j, hj, rfl⟩ := List.mem_map.mp hpart
        simp only [hkeys j hj, Bool.not_false, Bool.or_true, if_true]

theorem Listing.events_eq (ctx : Context) (h : Listing q item) :
    events ctx q = (Writer.listingAttributes ⟨ctx, q⟩ q.root item).map fun listing =>
      Xml.Event.element "Item" (Writer.identityAttributes ⟨ctx, q⟩ q.root item ++ listing) := by
  have hkeys : item.foreignKeys = [] := by
    rw [QueryItem.foreignKeys, h.single.unjoined]
    rfl
  have hrelationships : item.relationships = [] := by
    rw [QueryItem.relationships, h.single.unjoined]
    rfl
  exact events_of_unrestricted ctx h.single.found h.unfiltered hrelationships (hkeys ▸ List.forall_mem_nil _)

/-- The entries of a select attribute; a blank one has none. -/
def selectNodes (select : Option String) : Result (List SelectNode) :=
  match select with
  | none => .ok []
  | some text => if (Text.trim text).isEmpty then .ok [] else readSelect text

/-- Sorts the root as an attribute tells. -/
def sortRoot (order : Option String) (q : Query) : Query :=
  order.elim q fun text => q.modify (Query.ofItem {}).root fun item =>
    { item with orderBy := readOrderBy (Query.ofItem {}).root text }

theorem applySelect_eq (q : Query) (table : TableId) (text : String) :
    applySelect q table text = (selectNodes (some text)).map (addSelectNodes q table) := by
  rw [applySelect, selectNodes]
  split <;> rfl

/-- The attributes of a new item without a filter take effect. -/
theorem applyItemAttributes_root {pairs : List (String × String)} {other : QueryItem} {later : Paging}
    (hread : itemAttributes {} {} pairs = .ok (other, later)) (hfilter : later.filter = none) :
    applyItemAttributes (.ofItem {}) (Query.ofItem {}).root pairs = (selectNodes later.select).map fun ns =>
      (sortRoot later.orderBy (addSelectNodes (.ofItem (later.apply other)) (Query.ofItem {}).root ns), []) := by
  have hitem : (Query.ofItem {}).item (Query.ofItem {}).root = .ok {} := rfl
  have hmodify : ((Query.ofItem {}).modify (Query.ofItem {}).root fun _ => later.apply other) =
      .ofItem (later.apply other) :=
    rfl
  simp only [applyItemAttributes, hitem, bind, Except.bind, hread, hfilter, hmodify]
  cases later.select with
  | none => cases later.orderBy <;> rfl
  | some text =>
    dsimp only
    rw [applySelect_eq]
    cases selectNodes (some text) with
    | error err => rfl
    | ok ns => cases later.orderBy <;> rfl

/-- The attributes of the item, and what they say of it when they are read. -/
theorem Listing.exists_pairs (ctx : Context) (h : Listing q item) (hpaged : ¬Unpaged item) :
    ∃ pairs other later, events ctx q = .ok (Xml.Event.element "Item" (attributeEvents pairs)) ∧
      itemAttributes {} {} pairs = .ok (other, later) ∧ later.Exact ∧ pairs ≠ [] ∧
      applyItemAttributes (.ofItem {}) (Query.ofItem {}).root pairs = .ok (.ofItem (reread item), []) := by
  obtain ⟨typeName, htyped, -⟩ := h.typed
  obtain ⟨shown, hshown, hlength, hsorted⟩ := exists_readOrderBy h.sorted (Query.ofItem {}).root
  obtain ⟨pages, p, hpages, hexact, hrestores, hselect, hfilter, hleads⟩ :=
    exists_pages hpaged (numbered_of_bounded h.bounded)
  let found : QueryItem := { typeName := some typeName, id := item.id, idList := item.idList, typeId := item.typeId }
  have hread := ((leads_identityPairs h.ids typeName).append (leads_orderPairs item found shown)).append (hleads _ _)
  refine ⟨_, _, _, ?_, hread, hexact, List.cons_ne_nil _ _, ?_⟩
  · have hlisting : Writer.listingAttributes ⟨ctx, q⟩ q.root item
        = .ok (attributeEvents (orderPairs item shown) ++ attributeEvents pages) := by
      rw [orderPairs, attributeEvents_append, attribute?, attributeEvents_option, attributeEvents_joined?]
      simp only [Writer.listingAttributes, h.select?_eq_none ctx, hshown, hpages, bind, Except.bind, Option.elim_none,
        List.append_nil]
      rfl
    rw [h.events_eq, hlisting, h.identityAttributes ctx htyped, Except.map, List.append_assoc, attributeEvents_append,
      attributeEvents_append]
  · have hpaging : Paging.apply { p with orderBy := joined? shown } { found with aliasName := item.aliasName }
        = { found with aliasName := item.aliasName, fetch := item.fetch, offset := positiveOffset? item } :=
      hrestores { found with aliasName := item.aliasName } rfl
    have hitem : reread item = { found with
        aliasName := item.aliasName, fetch := item.fetch, offset := positiveOffset? item
        orderBy := item.orderBy.map (SortKey.movedTo (Query.ofItem {}).root) } := by
      simp only [reread, found, h.unfiltered, h.unselected, h.single.unjoined, htyped]
    rw [applyItemAttributes_root hread hfilter, hpaging, hitem]
    simp only [hselect, selectNodes, Except.map, addSelectNodes]
    cases horder : joined? shown with
    | none =>
      rw [joined?_eq_none.mp horder, List.length_nil] at hlength
      rw [List.eq_nil_of_length_eq_zero hlength.symm]
      rfl
    | some text =>
      obtain ⟨hne, rfl⟩ := joined?_eq_some.mp horder
      simp only [sortRoot, Option.elim_some, hsorted hne]
      rfl

/-- An item with attributes only is read as a query of its root. -/
theorem ofEvents_attributes {pairs : List (String × String)} (hne : pairs ≠ [])
    (happly : applyItemAttributes (.ofItem {}) (Query.ofItem {}).root pairs = .ok (q, []))
    (hitem : q.get? (Query.ofItem {}).root = some item)
    (htyped : ∃ typeName, item.typeName = some typeName ∧ typeName ≠ "") :
    ofEvents (Xml.Event.element "Item" (attributeEvents pairs)) = .ok q := by
  obtain ⟨typeName, htyped, hne'⟩ := htyped
  obtain ⟨r, hattributes, hr⟩ := settles_root hne happly
  have hstart : Reader.push {} (.start "Item")
      = .ok { query := some (.ofItem {}), stack := [.item (Query.ofItem {}).root .root []] } := rfl
  have hfound : q.item (Query.ofItem {}).root = .ok item := by
    rw [Query.item, hitem]
  have huntyped : (item.typeName.getD "").isEmpty = false := by
    rw [htyped, Option.getD_some, ← Bool.not_eq_true, String.isEmpty_iff]
    exact hne'
  have hend : r.push .endElement = .ok { query := some q, stack := [] } := by
    rw [Reader.push, Reader.endElement, hr.2]
    simp only [bind, Except.bind, Reader.endItem, Reader.queryOf, hfound, huntyped, Bool.false_eq_true, if_false,
      Expr.allOf]
    rfl
  rw [ofEvents, Xml.Event.element, List.foldlM_cons, hstart]
  simp only [List.foldlM_append, List.foldlM_cons, List.foldlM_nil, bind, Except.bind, hattributes, hend]
  rfl

/-- The events of a listed item fail exactly if its offset is no whole number of pages, and otherwise are read back as
    a query of one table with the same item. Neither the writer nor the reader overflows. -/
theorem Listing.attributes_come_back (ctx : Context) (h : Listing q item) :
    ((∃ err, events ctx q = .error err) ↔ Unpaged item) ∧ Numbered item ∧
    (¬Unpaged item → ∃ pairs other later, events ctx q = .ok (Xml.Event.element "Item" (attributeEvents pairs)) ∧
      itemAttributes {} {} pairs = .ok (other, later) ∧ later.Exact ∧
      ofEvents (Xml.Event.element "Item" (attributeEvents pairs)) = .ok (.ofItem (reread item))) := by
  have hback : ¬Unpaged item → ∃ pairs other later,
      events ctx q = .ok (Xml.Event.element "Item" (attributeEvents pairs)) ∧
      itemAttributes {} {} pairs = .ok (other, later) ∧ later.Exact ∧
      ofEvents (Xml.Event.element "Item" (attributeEvents pairs)) = .ok (.ofItem (reread item)) := by
    intro hpaged
    obtain ⟨pairs, other, later, hevents, hread, hexact, hne, happly⟩ := h.exists_pairs ctx hpaged
    exact ⟨pairs, other, later, hevents, hread, hexact, ofEvents_attributes hne happly rfl h.typed⟩
  refine ⟨⟨?_, fun hunpaged => ?_⟩, numbered_of_bounded h.bounded, hback⟩
  · rintro ⟨err, herr⟩
    by_contra hpaged
    obtain ⟨pairs, -, -, hevents, -⟩ := hback hpaged
    rw [herr] at hevents
    cases hevents
  · obtain ⟨shown, hshown, -⟩ := exists_readOrderBy h.sorted q.root
    obtain ⟨err, herr⟩ := pagingAttributes_of_unpaged hunpaged
    refine ⟨err, ?_⟩
    rw [h.events_eq]
    simp only [Writer.listingAttributes, hshown, herr, bind, Except.bind, Except.map]

end

/-- The third page of ten of the parts with these two ids, sorted by a name and a date. -/
def listedPage : QueryItem :=
  { typeName := some "Part", aliasName := some "p", idList := ["A 1", "B'2"], typeId := some "",
    orderBy := [{ expr := .prop ⟨0, 0⟩ "name", direction := .descending }, { expr := .prop ⟨0, 0⟩ "DESC" }],
    fetch := some 10, offset := some 20 }

/-- Spaces and quotes inside of ids survive, as does a property with the name of a direction. -/
theorem Listing.attributes_come_back_listedPage :
    ((∃ err, events {} (.ofItem listedPage) = .error err) ↔ Unpaged listedPage) ∧ Numbered listedPage ∧
    (¬Unpaged listedPage → ∃ pairs other later,
      events {} (.ofItem listedPage) = .ok (Xml.Event.element "Item" (attributeEvents pairs)) ∧
      itemAttributes {} {} pairs = .ok (other, later) ∧ later.Exact ∧
      ofEvents (Xml.Event.element "Item" (attributeEvents pairs)) = .ok (.ofItem listedPage)) ∧
    ¬Unpaged listedPage := by
  have hlisting : Listing (.ofItem listedPage) listedPage := by
    refine ⟨single_ofItem rfl, ⟨"Part", rfl, by decide⟩, ?_, ?_, rfl, rfl, ?_⟩
    · refine List.forall_mem_cons.mpr ⟨⟨by decide, by decide, ?_⟩, List.forall_mem_singleton.mpr ⟨by decide, by decide, ?_⟩⟩
      · rintro c (⟨⟨⟩⟩ | ⟨⟨⟩⟩) <;> decide
      · rintro c (⟨⟨⟩⟩ | ⟨⟨⟩⟩) <;> decide
    · exact List.forall_mem_cons.mpr ⟨⟨"name", rfl, by decide, by decide⟩,
        List.forall_mem_singleton.mpr ⟨"DESC", rfl, by decide, by decide⟩⟩
    · rintro offset ⟨⟩
      decide
  obtain ⟨hfails, hnumbered, hback⟩ := Listing.attributes_come_back {} hlisting
  refine ⟨hfails, hnumbered, hback, ?_⟩
  rintro ⟨offset, hoffset, -, hsizes⟩
  cases hoffset
  exact (hsizes 10 rfl).elim (by decide) (by decide)

end ItemQuery.Aml
