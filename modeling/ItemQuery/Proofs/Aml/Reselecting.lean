import ItemQuery.Proofs.Aml.Attributes
import ItemQuery.Proofs.Aml.Listing
import ItemQuery.Proofs.Aml.Relisting

/-! An item of attributes only is read, written and read again. Its query is described by the entries of the select
    list; the written list describes the query that is read at last. -/

namespace ItemQuery

/-- What a join says apart from the handles of its tables. -/
def Join.terms (j : Join) : String × String × JoinKind × Cardinality :=
  (j.leftProperty, j.rightProperty, j.kind, j.cardinality)

/-- The same entry of the select list of another table. -/
def Selection.movedTo (table : TableId) (s : Selection) : Selection :=
  { s with expr := s.expr.mapTables fun _ => table }

namespace Query

/-- The same paths of foreign keys lead from both roots to tables, and to all tables, and tables at the ends of the same
    path have the same joins. -/
structure SameJoins (q q' : Query) : Prop where
  whole : ∀ t, q.contains t = true ↔ ∃ path, q.reach? q.root path = some t
  whole' : ∀ t, q'.contains t = true ↔ ∃ path, q'.reach? q'.root path = some t
  reached : ∀ path, (∃ t, q.reach? q.root path = some t) ↔ ∃ t', q'.reach? q'.root path = some t'
  joins : ∀ path t t', q.reach? q.root path = some t → q'.reach? q'.root path = some t' →
    ∀ terms, terms ∈ (q.joinsOf t).map Join.terms ↔ terms ∈ (q'.joinsOf t').map Join.terms

/-- The select list of a table. -/
def selectOf (q : Query) (t : TableId) : List Selection :=
  (q.get? t).elim [] (·.select)

/-- The properties listed for the table at the end of a path. -/
def listedAt (q : Query) (path : List String) : List String :=
  (q.reach? q.root path).elim [] fun t => ((q.selectOf t).filterMap (·.expr.property?)).map (·.name)

end Query

namespace Aml

open Query

/-- What attributes alone can say of a root and of the lists behind its foreign keys: the root has a type, a page that is
    a whole one and an order by its own properties, nothing restricts it, and the lists name fields. -/
structure Unrestricted (base : QueryItem) (root : TableId) (F : List String → List String) : Prop where
  typed : ∃ typeName, base.typeName = some typeName ∧ typeName ≠ ""
  unfiltered : base.filter = none
  paged : ¬Unpaged base
  sorted : ∀ key ∈ base.orderBy, ∃ name, key.expr = .prop root name
  fields : ∀ path, ∀ name ∈ F path, IsField name
  starless : ∀ path, "*" ∉ F path

/-! ### Described tables -/

section
variable {base : QueryItem} {q : Query} {F : List String → List String} {path : List String} {t : TableId}
  {item : QueryItem} {j : Join}

theorem Described.reach?_right (h : Described base q F) (ht : q.reach? q.root path = some t) (hj : j ∈ q.joinsOf t) :
    q.reach? q.root (path ++ [j.leftProperty]) = some j.right := by
  refine reach?_concat_eq_some.mpr ⟨t, ht, ?_⟩
  rw [target?, h.selected.regular.key?_eq_some.mpr ⟨hj, Join.named_iff.mpr ⟨rfl, (h.selected.outer t j hj).1⟩⟩]
  rfl

/-- What the tables of a described query say apart from their joins. -/
theorem Described.bare_eq (h : Described base q F) (ht : q.reach? q.root path = some t) (hitem : q.get? t = some item) :
    { item with joins := [], provider := none }
      = { (if path = [] then base else {}) with select := selections t (F path) } := by
  have hbare := h.selected.items path t ht
  rw [bare?, hitem, Option.map_some] at hbare
  exact Option.some.inj hbare

theorem Described.exists_rootItem (h : Described base q F) :
    ∃ item, q.get? q.root = some item ∧ item.typeName = base.typeName ∧ item.filter = base.filter ∧
      item.fetch = base.fetch ∧ item.offset = base.offset ∧ item.orderBy = base.orderBy := by
  have hroot : q.reach? q.root [] = some q.root := rfl
  obtain ⟨item, hitem, -⟩ := h.exists_item hroot
  have hbare := h.bare_eq hroot hitem
  rw [if_pos rfl] at hbare
  exact ⟨item, hitem, (congrArg QueryItem.typeName hbare :), (congrArg QueryItem.filter hbare :),
    (congrArg QueryItem.fetch hbare :), (congrArg QueryItem.offset hbare :), (congrArg QueryItem.orderBy hbare :)⟩

end

/-! ### Reading -/

section
variable {pairs : List (String × String)} {item : QueryItem} {later : Paging} {s : QueryItem × Paging}

/-- No attribute is the offset of an item; a page comes later. -/
theorem offset_itemAttribute {name value : String} (h : itemAttribute item later name value = .ok s) :
    s.1.offset = item.offset := by
  have hcount : ∀ store : UInt64 → Paging, (readCount name value).map (fun n => (item, store n)) = .ok s →
      s.1.offset = item.offset := by
    intro store h
    obtain ⟨n, -, rfl⟩ := Result.map_eq_ok.mp h
    rfl
  unfold itemAttribute at h
  split at h
  case h_6 =>
    split at h
    · cases h
      rfl
    · cases h
  case h_9 => exact hcount _ h
  case h_10 => exact hcount _ h
  case h_11 => exact hcount _ h
  case h_13 =>
    split at h
    · cases h
      rfl
    · cases h
  all_goals
    cases h
    rfl

theorem offset_itemAttributes (h : itemAttributes item later pairs = .ok s) : s.1.offset = item.offset := by
  induction pairs generalizing item later with
  | nil =>
    cases h
    rfl
  | cons pair pairs ih =>
    rw [itemAttributes] at h
    split at h
    · cases h
    · next hread => exact (ih h).trans (offset_itemAttribute hread)

/-- The page that is read is a whole one, if its offset was computed without overflow. -/
theorem not_unpaged_apply (hexact : later.Exact) (hoffset : item.offset = none) : ¬Unpaged (later.apply item) := by
  rintro ⟨offset, hfound, hpositive, hsizes⟩
  unfold Paging.apply at hfound hsizes
  split at hfound
  · next size hsize =>
    have hwhole := hexact size hsize
    dsimp only at hfound
    generalize (if later.page.getD 1 = 0 then 0 else later.page.getD 1 - 1) * size = start at hwhole hfound
    split at hfound
    · cases hfound
    · cases hfound
      rw [hsize] at hsizes
      refine (hsizes size rfl).elim (fun hzero => ?_) fun hrest => hrest ?_
      · rw [hzero, UInt64.toNat_zero, Nat.mul_zero] at hwhole
        exact UInt64.pos_iff_ne_zero.mp hpositive (UInt64.toNat_inj.mp hwhole)
      · rw [← UInt64.toNat_inj, UInt64.toNat_mod, hwhole, Nat.mul_mod_left]
        rfl
  · rw [hoffset] at hfound
    cases hfound

/-- The root closes if it has a type, and is restricted by its criteria only. -/
theorem typed_of_endItem {r r' : Reader} {q : Query} {extra : List Expr} (hq : r.query = some q) {table : TableId}
    (h : r.endItem table .root extra = .ok r') :
    (∃ item typeName, q.get? table = some item ∧ item.typeName = some typeName ∧ typeName ≠ "") ∧
      (extra = [] → r'.query = some q) := by
  have hquery : r.queryOf = .ok q := by
    rw [Reader.queryOf, hq]
  rw [Reader.endItem, hquery, Result.ok_bind] at h
  obtain ⟨item, hitem, h⟩ := Result.bind_eq_ok.mp h
  dsimp only at h
  split at h
  · cases h
  · next htyped =>
    refine ⟨⟨item, ?_⟩, ?_⟩
    · cases hname : item.typeName with
      | none =>
        rw [hname] at htyped
        exact absurd rfl htyped
      | some typeName =>
        rw [hname, Option.getD_some, String.isEmpty_iff] at htyped
        exact ⟨typeName, Query.item_eq_ok.mp hitem, rfl, htyped⟩
    · rintro rfl
      cases h
      exact hq

/-- The attributes of an item that has nothing else are read, and give it a type. -/
theorem applied_of_ofEvents {q : Query} (h : ofEvents (Xml.Event.element "Item" (attributeEvents pairs)) = .ok q) :
    ∃ q₀ extra, applyItemAttributes (.ofItem {}) (Query.ofItem {}).root pairs = .ok (q₀, extra) ∧
      (∃ item typeName, q₀.get? (Query.ofItem {}).root = some item ∧ item.typeName = some typeName ∧ typeName ≠ "") ∧
      (extra = [] → q = q₀) := by
  let opened : Reader := { query := some (.ofItem {}), stack := [.item (Query.ofItem {}).root .root []] }
  have hstart : Reader.push {} (.start "Item") = .ok opened := rfl
  obtain ⟨last, hlast, hfinish⟩ := Result.bind_eq_ok.mp h
  rw [Xml.Event.element, List.foldlM_cons, hstart, Result.ok_bind, List.foldlM_append,
    foldlM_attributeEvents opened rfl pairs, Result.ok_bind, List.foldlM_cons] at hlast
  obtain ⟨closed, hclosed, hlast⟩ := Result.bind_eq_ok.mp hlast
  cases hlast
  obtain ⟨r, happlied, hend⟩ := Result.bind_eq_ok.mp hclosed
  rw [Reader.applyAttributes] at happlied
  split at happlied
  · -- Without attributes there is no type.
    cases happlied
    obtain ⟨⟨item, typeName, hitem, htyped, -⟩, -⟩ := typed_of_endItem rfl hend
    cases hitem
    cases htyped
  · dsimp only [opened, Reader.queryOf] at happlied
    rw [Result.ok_bind, List.nil_append] at happlied
    obtain ⟨⟨q₀, extra⟩, hfound, happlied⟩ := Result.bind_eq_ok.mp happlied
    cases happlied
    obtain ⟨htyped, hquery⟩ := typed_of_endItem rfl hend
    refine ⟨q₀, extra, hfound, htyped, fun hextra => ?_⟩
    rw [Reader.finish, hquery hextra] at hfinish
    split at hfinish <;> cases hfinish
    rfl

/-- The root that attributes describe, apart from its select list. -/
def rootOf (other : QueryItem) (later : Paging) : QueryItem :=
  { later.apply other with
    provider := none
    orderBy := later.orderBy.elim [] (readOrderBy (Query.ofItem {}).root) }

/-- The entries of the select list that is read describe the query. -/
theorem described_sortRoot {other : QueryItem} (hread : itemAttributes {} {} pairs = .ok (other, later))
    {ns : List SelectNode} (hstar : "*" ∉ namesIn ns) :
    Described (rootOf other later)
        (sortRoot later.orderBy (addSelectNodes (.ofItem (later.apply other)) (Query.ofItem {}).root ns))
        (namesAt (entriesOf [] ns)) ∧
      (sortRoot later.orderBy (addSelectNodes (.ofItem (later.apply other)) (Query.ofItem {}).root ns)).root
        = (Query.ofItem {}).root := by
  have hretains : Retains {} (later.apply other) :=
    ((safe_itemAttributes {} {} pairs).of_eq_ok hread).trans (later.retains_apply other)
  obtain ⟨hdescribed, hroot⟩ := described_addSelectNodes hretains.joins hretains.select hstar
  have hroot' : (addSelectNodes (.ofItem (later.apply other)) (Query.ofItem {}).root ns).root = (Query.ofItem {}).root :=
    hroot
  rw [sortRoot, rootOf]
  cases later.orderBy with
  | none =>
    have hunsorted : (later.apply other).orderBy = [] := hretains.orderBy
    refine ⟨?_, hroot'⟩
    rw [Option.elim_none, Option.elim_none, ← hunsorted]
    exact hdescribed
  | some text =>
    refine ⟨⟨?_, hdescribed.nested⟩, hroot'⟩
    have hsorted := hdescribed.selected.sort (readOrderBy (Query.ofItem {}).root text)
    rwa [hroot] at hsorted

/-- All sort keys that are read are of the root. -/
theorem exists_expr_of_mem_readOrderBy {table : TableId} {text : String} {key : SortKey}
    (h : key ∈ readOrderBy table text) :
    ∃ name, key.expr = .prop table name := by
  rw [readOrderBy_eq, List.mem_filterMap] at h
  obtain ⟨entry, -, h⟩ := h
  unfold sortKeyOf? at h
  split at h
  · cases h
  · next name rest hwords =>
    cases h
    exact ⟨name, rfl⟩

/-- The names that a select attribute lists come from its text. -/
theorem mem_namesIn_of_selectNodes {select : Option String} {ns : List SelectNode} (h : selectNodes select = .ok ns)
    {name : String} (hname : name ∈ namesIn ns) :
    ∃ text, select = some text ∧ IsField name ∧ ∀ c ∈ name.toList, c ∈ text.toList := by
  cases select with
  | none =>
    cases h
    cases hname
  | some text =>
    rw [selectNodes] at h
    split at h
    · cases h
      cases hname
    · exact ⟨text, rfl, within_readSelect h name hname⟩

/-- What is read from attributes is described by the root that they tell and by the entries of the select list. -/
theorem exists_described {q : Query} (hread : itemAttributes {} {} pairs = .ok (item, later))
    (hfilter : later.filter = none)
    (hstar : ∀ text, later.select = some text → '*' ∉ text.toList) (hexact : later.Exact)
    (haccepted : ofEvents (Xml.Event.element "Item" (attributeEvents pairs)) = .ok q) :
    ∃ base F, Described base q F ∧ Unrestricted base q.root F := by
  obtain ⟨q₀, extra, happly, ⟨root, typeName, hroot, htyped, hne⟩, hextra⟩ := applied_of_ofEvents haccepted
  rw [applyItemAttributes_root hread hfilter] at happly
  obtain ⟨ns, hns, heq⟩ := Result.map_eq_ok.mp happly
  cases heq
  obtain rfl := hextra rfl
  have hstarless : "*" ∉ namesIn ns := by
    intro hmem
    obtain ⟨text, htext, -, hchars⟩ := mem_namesIn_of_selectNodes hns hmem
    exact hstar text htext (hchars '*' (by decide))
  have hlisted : ∀ path, ∀ name ∈ namesAt (entriesOf [] ns) path, name ∈ namesIn ns := fun path name hname =>
    mem_namesIn_of_mem_entriesOf ns (mem_namesAt.mp hname)
  have hretains : Retains {} (later.apply item) :=
    ((safe_itemAttributes {} {} pairs).of_eq_ok hread).trans (later.retains_apply item)
  obtain ⟨hdescribed, hsame⟩ := described_sortRoot hread hstarless
  refine ⟨_, _, hdescribed, ⟨typeName, ?_, hne⟩, hretains.filter,
    not_unpaged_apply hexact (offset_itemAttributes hread), fun key hkey => ?_, fun path name hname => ?_,
    fun path hmem => hstarless (hlisted path _ hmem)⟩
  · obtain ⟨found, hfound, htype, -⟩ := hdescribed.exists_rootItem
    rw [hsame, hroot] at hfound
    cases hfound
    exact htype.symm.trans htyped
  · rw [rootOf] at hkey
    rw [hsame]
    cases horder : later.orderBy with
    | none =>
      rw [horder] at hkey
      cases hkey
    | some text =>
      rw [horder] at hkey
      exact exists_expr_of_mem_readOrderBy hkey
  · obtain ⟨-, -, hfield, -⟩ := mem_namesIn_of_selectNodes hns (hlisted path name hname)
    exact hfield

end

/-! ### Writing -/

section
variable {base : QueryItem} {q : Query} {F : List String → List String} {path : List String} {t : TableId}
  {item : QueryItem} {j : Join}

/-- Tables behind foreign keys restrict nothing. -/
theorem Described.hasCriteria_eq_false (h : Described base q F) (ctx : Context) (depth : Nat) (hne : path ≠ [])
    (ht : q.reach? q.root path = some t) : Writer.hasCriteria ⟨ctx, q⟩ depth t = false := by
  induction depth generalizing path t with
  | zero => rfl
  | succ depth ih =>
    obtain ⟨item, hitem, -⟩ := h.exists_item ht
    have hbare := h.bare_eq ht hitem
    rw [if_neg hne] at hbare
    have hjoins : q.joinsOf t = item.joins := by
      rw [joinsOf, hitem]
      rfl
    have hinner : item.joins.any (fun j => !j.isForeignKey || Writer.hasCriteria ⟨ctx, q⟩ depth j.right) = false := by
      rw [List.any_eq_false]
      intro j hj
      rw [← hjoins] at hj
      rw [h.isForeignKey hj, ih (by simp) (h.reach?_right ht hj)]
      decide
    have hfilter : item.filter = none := congrArg QueryItem.filter hbare
    have hid : item.id = none := congrArg QueryItem.id hbare
    have hidList : item.idList = [] := congrArg QueryItem.idList hbare
    rw [Writer.hasCriteria, hitem, Option.any_some, hfilter, hid, hidList, hinner]
    rfl

theorem isField_of_mem_writtenNodes (hfields : ∀ path, ∀ name ∈ F path, IsField name) (depth : Nat) :
    ∀ name ∈ namesIn (writtenNodes F depth path), IsField name := by
  intro name hname
  obtain ⟨other, hother⟩ := exists_mem_of_mem_writtenNodes hname
  exact hfields other name hother

/-- The query is written as an item of attributes, of which the select list is that of its entries. -/
theorem Described.exists_events (h : Described base q F) (hbase : Unrestricted base q.root F) (ctx : Context)
    {typeName : String} (htyped : base.typeName = some typeName) :
    ∃ pairs s, events ctx q = .ok (Xml.Event.element "Item" (attributeEvents pairs)) ∧ itemAttributes {} {} pairs = .ok s ∧
      Unfiltered typeName (listText? (writtenNodes F (q.tableCount + 1) [])) s ∧ pairs ≠ [] := by
  have hroot : q.reach? q.root [] = some q.root := rfl
  obtain ⟨item, hitem, htypeName, hunfiltered, hfetch, hoffset, horder⟩ := h.exists_rootItem
  have htype : ctx.tableTypeName q q.root = some typeName := by
    rw [Context.tableTypeName, Context.typeNameWithin, hitem, Option.bind_some, htypeName, htyped]
    rfl
  have hlistable : Listable ctx q item := by
    refine ⟨horder ▸ hbase.sorted, fun offset hsome hpositive => ?_, fun text htext => .inr ?_⟩
    · rw [hfetch]
      exact exists_page_of_not_unpaged hbase.paged (hoffset ▸ hsome) hpositive
    · rw [h.select?_eq ctx _ hroot, listText?] at htext
      split at htext
      · cases htext
      · next hne =>
        cases htext
        exact ⟨_, readSelect_listText (mt List.isEmpty_iff.mpr hne) (isField_of_mem_writtenNodes hbase.fields _)⟩
  obtain ⟨listing, hlisting⟩ := hlistable.listingAttributes
  have hevents := events_of_unrestricted ctx hitem (hunfiltered.trans hbase.unfiltered)
    (h.foreignKeys_eq hitem).2 fun j hj => ?_
  · rw [hlisting, Except.map] at hevents
    -- The type is the first attribute, so the others are read into an item that has it.
    obtain ⟨identity, hidentity, hcarries⟩ := exists_identityAttributes ⟨ctx, q⟩ q.root item htype
    obtain ⟨pairs, s, hpairs, hread, hs⟩ := (hcarries.append (carries_listingAttributes hlisting))
      ({ typeName := some typeName }, {}) ⟨rfl, rfl, rfl, rfl⟩
    rw [h.select?_eq ctx _ hroot] at hs
    refine ⟨("type", typeName) :: pairs, s, ?_, hread, hs, List.cons_ne_nil _ _⟩
    rw [hevents, hidentity, List.append_assoc, hpairs]
    rfl
  · have hjoin : j ∈ q.joinsOf q.root := by
      rw [joinsOf, hitem]
      exact List.mem_of_mem_filter hj
    exact h.hasCriteria_eq_false ctx _ (List.cons_ne_nil _ _) (h.reach?_right hroot hjoin)

end

/-! ### Reading again -/

theorem selectNodes_listText? {ns : List SelectNode} (h : ∀ name ∈ namesIn ns, IsField name) :
    selectNodes (listText? ns) = .ok ns := by
  rw [listText?]
  split
  · next hempty =>
    rw [List.isEmpty_iff.mp hempty]
    rfl
  · next hne =>
    have hne : ns ≠ [] := mt List.isEmpty_iff.mpr hne
    rw [selectNodes, isEmpty_trim_listText hne h]
    exact readSelect_listText hne h

section
variable {base : QueryItem} {q : Query} {F : List String → List String}

/-- The written item is read as a query in which every list is written out as often as `times` tells. -/
theorem Described.exists_reread (h : Described base q F) (hbase : Unrestricted base q.root F) (ctx : Context) :
    ∃ es q' base', events ctx q = .ok es ∧ ofEvents es = .ok q' ∧
      Described base' q' fun path => (List.replicate (times F [] path) (F path)).flatten := by
  obtain ⟨typeName, htyped, hne⟩ := hbase.typed
  obtain ⟨pairs, s, hevents, hread, hs, hpairs⟩ := h.exists_events hbase ctx htyped
  obtain ⟨other, later⟩ := s
  have hstar : "*" ∉ namesIn (writtenNodes F (q.tableCount + 1) []) := by
    intro hmem
    obtain ⟨path, hpath⟩ := exists_mem_of_mem_writtenNodes hmem
    exact hbase.starless path hpath
  obtain ⟨hdescribed, hroot⟩ := described_sortRoot hread hstar
  have happly := applyItemAttributes_root hread hs.later
  rw [hs.select, selectNodes_listText? (isField_of_mem_writtenNodes hbase.fields _), Except.map] at happly
  obtain ⟨item, hitem, htypeName, -⟩ := hdescribed.exists_rootItem
  rw [hroot] at hitem
  have htype : item.typeName = some typeName :=
    htypeName.trans ((apply_keeps later other).1.trans hs.typed)
  refine ⟨_, _, rootOf other later, hevents, ofEvents_attributes hpairs happly hitem ⟨typeName, htype, hne⟩, ?_⟩
  rwa [funext h.namesAt_written] at hdescribed

/-! ### What comes back -/

theorem Described.times_pos (h : Described base q F) {path : List String} (hne : F path ≠ []) : 0 < times F [] path := by
  induction path using List.reverseRecOn with
  | nil => exact Nat.one_pos
  | append_singleton path p ih =>
    have hlisted := h.nested path p hne
    rw [times_concat, List.nil_append]
    exact Nat.mul_pos (ih (List.ne_nil_of_mem hlisted)) (List.count_pos_iff.mpr hlisted)

theorem flatten_replicate_eq_nil {α : Type} {n : Nat} (hn : 0 < n) {xs : List α} :
    (List.replicate n xs).flatten = [] ↔ xs = [] := by
  rw [List.flatten_eq_nil_iff]
  exact ⟨fun h => h xs (List.mem_replicate.mpr ⟨hn.ne', rfl⟩), fun h ys hys => (List.mem_replicate.mp hys).2.trans h⟩

theorem Described.flatten_eq_nil (h : Described base q F) (path : List String) :
    (List.replicate (times F [] path) (F path)).flatten = [] ↔ F path = [] := by
  constructor
  · intro hnil
    by_contra hne
    exact hne ((flatten_replicate_eq_nil (h.times_pos hne)).mp hnil)
  · intro hnil
    rw [hnil, List.flatten_replicate_nil]

end

section
variable {base base' : QueryItem} {q q' : Query} {F F' : List String → List String} {path : List String} {t : TableId}

theorem Described.selectOf_eq (h : Described base q F) (ht : q.reach? q.root path = some t) :
    q.selectOf t = selections t (F path) := by
  obtain ⟨item, hitem, hselect⟩ := h.exists_item ht
  rw [selectOf, hitem]
  exact hselect

theorem Described.listedAt_eq (h : Described base q F) : q.listedAt = F := by
  funext path
  rw [listedAt]
  cases ht : q.reach? q.root path with
  | none =>
    by_contra hne
    obtain ⟨t, hreached⟩ := h.reached_iff.mpr (.inr (Ne.symm hne))
    rw [ht] at hreached
    cases hreached
  | some t =>
    rw [Option.elim_some, h.selectOf_eq ht, selections, List.filterMap_map]
    exact (List.map_filterMap ..).trans (List.filterMap_some ..)

theorem Described.mem_terms (h : Described base q F) (ht : q.reach? q.root path = some t)
    (terms : String × String × JoinKind × Cardinality) :
    terms ∈ (q.joinsOf t).map Join.terms ↔ ∃ p, terms = (p, "id", .leftOuter, .oneToOne) ∧ F (path ++ [p]) ≠ [] := by
  have hstep : ∀ p, F (path ++ [p]) ≠ [] ↔ ∃ u, q.reach? q.root (path ++ [p]) = some u := by
    intro p
    rw [h.reached_iff]
    simp
  rw [List.mem_map]
  constructor
  · rintro ⟨j, hj, rfl⟩
    obtain ⟨hproperty, hkind⟩ := h.selected.outer t j hj
    have hkey : j.cardinality = .oneToOne := beq_iff_eq.mp (h.isForeignKey hj)
    refine ⟨j.leftProperty, ?_, (hstep _).mpr ⟨_, h.reach?_right ht hj⟩⟩
    rw [Join.terms, hproperty, hkind, hkey]
  · rintro ⟨p, rfl, hne⟩
    obtain ⟨u, hu⟩ := (hstep p).mp hne
    obtain ⟨c, hc, hu⟩ := reach?_concat_eq_some.mp hu
    obtain rfl := Option.some.inj (hc.symm.trans ht)
    obtain ⟨j, hj, -⟩ := Option.map_eq_some_iff.mp hu
    obtain ⟨hmem, hnamed⟩ := h.selected.regular.key?_eq_some.mp hj
    obtain ⟨rfl, hproperty⟩ := Join.named_iff.mp hnamed
    have hkey : j.cardinality = .oneToOne := beq_iff_eq.mp (h.isForeignKey hmem)
    refine ⟨j, hmem, ?_⟩
    rw [Join.terms, hproperty, (h.selected.outer _ j hmem).2, hkey]

theorem Described.sameJoins (h : Described base q F) (h' : Described base' q' F')
    (hnil : ∀ path, F' path = [] ↔ F path = []) :
    q.SameJoins q' where
  whole := h.selected.live
  whole' := h'.selected.live
  reached path := by rw [h.reached_iff, h'.reached_iff, ne_eq, ne_eq, hnil]
  joins path t t' ht ht' terms := by
    rw [h.mem_terms ht, h'.mem_terms ht']
    simp only [ne_eq, hnil]

theorem map_movedTo_selections (t t' : TableId) (names : List String) :
    (selections t names).map (Selection.movedTo t') = selections t' names := by
  rw [selections, List.map_map]
  exact List.map_congr_left fun name _ => by simp [Selection.movedTo, Expr.prop, Expr.mapTables]

theorem selections_injective (t : TableId) : Function.Injective (selections t) := by
  refine List.map_injective_iff.mpr fun a b h => ?_
  cases h
  rfl

/-- Both queries list the same names everywhere if their select lists are the same everywhere. -/
theorem Described.forall_selectOf_iff (h : Described base q F) (h' : Described base' q' F')
    (hnil : ∀ path, F' path = [] ↔ F path = []) :
    (∀ path t t', q.reach? q.root path = some t → q'.reach? q'.root path = some t' →
      q'.selectOf t' = (q.selectOf t).map (Selection.movedTo t')) ↔ ∀ path, F' path = F path := by
  constructor
  · intro hall path
    by_cases hne : F path = []
    · rw [hne, (hnil path).mpr hne]
    · obtain ⟨t, ht⟩ := h.reached_iff.mpr (.inr hne)
      obtain ⟨t', ht'⟩ := h'.reached_iff.mpr (.inr (mt (hnil path).mp hne))
      have hsame := hall path t t' ht ht'
      rw [h.selectOf_eq ht, h'.selectOf_eq ht', map_movedTo_selections] at hsame
      exact selections_injective t' hsame
  · intro hall path t t' ht ht'
    rw [h.selectOf_eq ht, h'.selectOf_eq ht', map_movedTo_selections, hall]

end

section
variable {pairs : List (String × String)} {other : QueryItem} {later : Paging} {q : Query}

/-- **Select lists come back.** An item of attributes without criteria, whose select list asks for no star, is written
    and read again. The same tables are joined in the same way, and the select list of each comes back as often, one
    after the other, as the foreign keys that lead to it are listed. So all lists come back as they were exactly if each
    foreign key with a list behind it is listed once. -/
theorem selects_come_back (ctx : Context) (hread : itemAttributes {} {} pairs = .ok (other, later))
    (hfilter : later.filter = none) (hstar : ∀ text, later.select = some text → '*' ∉ text.toList)
    (hexact : later.Exact) (haccepted : ofEvents (Xml.Event.element "Item" (attributeEvents pairs)) = .ok q) :
    ∃ es q', events ctx q = .ok es ∧ ofEvents es = .ok q' ∧ q.SameJoins q' ∧
      (∀ path t t', q.reach? q.root path = some t → q'.reach? q'.root path = some t' →
        q'.selectOf t' = (List.replicate (times q.listedAt [] path) ((q.selectOf t).map (Selection.movedTo t'))).flatten) ∧
      ((∀ path t t', q.reach? q.root path = some t → q'.reach? q'.root path = some t' →
          q'.selectOf t' = (q.selectOf t).map (Selection.movedTo t')) ↔
        ∀ path p, (∃ t, q.reach? q.root (path ++ [p]) = some t) → (q.listedAt path).count p = 1) := by
  obtain ⟨base, F, hdescribed, hbase⟩ := exists_described hread hfilter hstar hexact haccepted
  obtain ⟨es, q', base', hevents, hreread, hdescribed'⟩ := hdescribed.exists_reread hbase ctx
  have hnil := hdescribed.flatten_eq_nil
  refine ⟨es, q', hevents, hreread, hdescribed.sameJoins hdescribed' hnil, fun path t t' ht ht' => ?_, ?_⟩
  · rw [hdescribed.selectOf_eq ht, hdescribed'.selectOf_eq ht', map_movedTo_selections, hdescribed.listedAt_eq, selections,
      selections, List.map_flatten, List.map_replicate]
  · rw [hdescribed.forall_selectOf_iff hdescribed' hnil, hdescribed.forall_times_iff, hdescribed.listedAt_eq]
    refine forall_congr' fun path => forall_congr' fun p => ?_
    rw [hdescribed.reached_iff]
    simp

end

/-- The attributes of an item that lists a foreign key with and without a list behind it. -/
def ownersOfParts : List (String × String) :=
  [("type", "Part"), ("orderBy", "name desc"), ("page", "3"), ("pagesize", "10"),
    ("select", "owner( manager(name), name ),owner")]

theorem selects_come_back_ownersOfParts :
    ∃ other later q es q', itemAttributes {} {} ownersOfParts = .ok (other, later) ∧ later.filter = none ∧
      (∀ text, later.select = some text → '*' ∉ text.toList) ∧ later.Exact ∧
      ofEvents (Xml.Event.element "Item" (attributeEvents ownersOfParts)) = .ok q ∧
      events {} q = .ok es ∧ ofEvents es = .ok q' ∧ q.SameJoins q' ∧
      ∀ path t t', q.reach? q.root path = some t → q'.reach? q'.root path = some t' →
        q'.selectOf t' =
          (List.replicate (times q.listedAt [] path) ((q.selectOf t).map (Selection.movedTo t'))).flatten := by
  let select := "owner( manager(name), name ),owner"
  let later : Paging := { page := some 3, pageSize := some 10, select := some select, orderBy := some "name desc" }
  have hread : itemAttributes {} {} ownersOfParts = .ok ({ typeName := some "Part" }, later) := by
    rfl
  have hstar : ∀ text, later.select = some text → '*' ∉ text.toList := by
    rintro _ ⟨⟩
    decide
  have hexact : later.Exact := by
    rintro _ ⟨⟩
    decide
  have hsome : (ofEvents (Xml.Event.element "Item" (attributeEvents ownersOfParts))).toOption.isSome = true := by
    decide +kernel
  obtain ⟨q, hq⟩ := Option.isSome_iff_exists.mp hsome
  rw [Result.toOption_eq_some] at hq
  obtain ⟨es, q', hevents, hreread, hjoins, hlists, -⟩ := selects_come_back {} hread rfl hstar hexact hq
  exact ⟨_, _, q, es, q', hread, rfl, hstar, hexact, hq, hevents, hreread, hjoins, hlists⟩

/-- A foreign key that is listed twice doubles the list behind it. -/
theorem selects_doubled :
    ∃ q es q',
      ofEvents (Xml.Event.element "Item" (attributeEvents [("type", "Part"), ("select", "owner(name),owner")])) = .ok q ∧
      events {} q = .ok es ∧ ofEvents es = .ok q' ∧ q.listedAt ["owner"] = ["name"] ∧
      q'.listedAt ["owner"] = ["name", "name"] := by
  have hcomputed : (do
      let q ← ofEvents (Xml.Event.element "Item" (attributeEvents [("type", "Part"), ("select", "owner(name),owner")]))
      let es ← events {} q
      let q' ← ofEvents es
      return (q.listedAt ["owner"], q'.listedAt ["owner"]) : Result (List String × List String)).toOption
        = some (["name"], ["name", "name"]) := by
    decide +kernel
  obtain ⟨q, hq, hrest⟩ := Result.bind_eq_ok.mp (Result.toOption_eq_some.mp hcomputed)
  obtain ⟨es, hes, hrest⟩ := Result.bind_eq_ok.mp hrest
  obtain ⟨q', hq', hrest⟩ := Result.bind_eq_ok.mp hrest
  obtain ⟨howner, howner'⟩ := Prod.mk.inj (Except.ok.inj hrest)
  exact ⟨q, es, q', hq, hes, hq', howner, howner'⟩

end Aml
end ItemQuery
