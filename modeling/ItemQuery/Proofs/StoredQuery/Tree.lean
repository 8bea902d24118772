import Mathlib.Logic.Relation
import ItemQuery.Proofs.StoredQuery.Growth

/-! The query of a definition has the tree of its references. Each reference from an item that is in the tree adds a
    table, so that every item is queued once and the loop ends; what is not a tree is refused on the way, or at the end
    because some item was not reached. -/

namespace ItemQuery.StoredQuery

open Relation
open Xml (Element)
open Xml.Element (plain_branch trimmed_empty)

/-! ### Details -/

/-- The query has the tables and joins of `q`; filters still stay with their tables. -/
structure Completed (q q' : Query) : Prop where
  kept : q'.Kept
  root : q'.root = q.root
  contains : ∀ id, q'.contains id = q.contains id
  joinsOf : ∀ id, q'.joinsOf id = q.joinsOf id
  filtered : Filtered q'

section
variable {q q' q'' : Query} {t : TableId} {f : QueryItem → QueryItem}

theorem joined_of_joinsOf (h : ∀ id, q'.joinsOf id = q.joinsOf id) {a b : TableId} (hab : q.Joined a b) :
    q'.Joined a b := by
  obtain ⟨j, hj, hends⟩ := hab
  obtain ⟨id, hid⟩ := Query.mem_joins.mp hj
  exact ⟨j, Query.mem_joins.mpr ⟨id, (h id).symm ▸ hid⟩, hends⟩

/-- A change of one table that leaves its joins. -/
theorem Completed.modify (h : Completed q q') (hf : ∀ item, q'.get? t = some item → (f item).joins = item.joins)
    (hfilter : ∀ item c, q'.get? t = some item → (f item).filter = some c →
      c.Confined fun h => h = t ∨ q'.Joined h t) :
    Completed q (q'.modify t f) where
  kept := kept_modify h.kept hf
  root := h.root
  contains id := by rw [Query.contains_modify, h.contains]
  joinsOf id := by rw [joinsOf_modify hf, h.joinsOf]
  filtered u item c hitem hc := by
    have hjoined : ∀ x, x = u ∨ q'.Joined x u → x = u ∨ (q'.modify t f).Joined x u := fun x hx =>
      hx.imp id (joined_of_joinsOf (joinsOf_modify hf))
    rw [Query.get?_modify] at hitem
    split at hitem
    next heq =>
      subst heq
      obtain ⟨old, hold, rfl⟩ := Option.map_eq_some_iff.mp hitem
      exact (hfilter old c hold hc).mono hjoined c
    next => exact (h.filtered u item c hitem hc).mono hjoined c

theorem confined_addFilter {P : TableId → Prop} {item : QueryItem} {c e : Expr}
    (hitem : ∀ c, item.filter = some c → c.Confined P)
    (he : e.Confined P) (hc : (item.addFilter e).filter = some c) : c.Confined P := by
  unfold QueryItem.addFilter at hc
  cases hold : item.filter with
  | none =>
    rw [hold] at hc
    cases hc
    exact he
  | some old =>
    rw [hold] at hc
    cases hc
    exact ⟨hitem old hold, he⟩

/-- The table with the filter of its item. -/
def withFilter (q : Query) (e : Element) (t : TableId) : Result Query :=
  match e.value? "filter_xml" with
  | none => pure q
  | some source => do
    match ← parseCondition { table := t } source with
    | none => return q
    | some c => return q.modify t (·.addFilter (← c.normalize))

/-- The table with the paging of its item. -/
def withPaging (q : Query) (e : Element) (t : TableId) : Result Query :=
  match e.value? "offset_fetch_xml" with
  | none => pure q
  | some source => do
    let item ← applyPaging (← q.item t) source
    return q.modify t fun _ => item

theorem addDetails_eq (q : Query) (e : Element) (t : TableId) :
    addDetails q e t = do
      let q ← withFilter q e t
      let q ← withPaging q e t
      let orderBy ← sortKeys e t
      return q.modify t fun item => { item with select := selections e t, orderBy } := by
  have hok {α β : Type} (a : α) (k : α → Result β) : (Except.ok a >>= k) = k a := rfl
  unfold addDetails withFilter withPaging
  cases e.value? "filter_xml" with
  | none => cases e.value? "offset_fetch_xml" <;> simp
  | some source =>
    dsimp only
    cases parseCondition { table := t } source with
    | error err => rfl
    | ok condition =>
      cases condition with
      | none => cases e.value? "offset_fetch_xml" <;> simp [hok]
      | some c =>
        simp only [hok]
        cases c.normalize with
        | error err => rfl
        | ok n => cases e.value? "offset_fetch_xml" <;> simp [hok]

/-- A condition becomes a criterion about the table and its parent, which joins the filter of the table. -/
theorem exists_of_withFilter {e : Element} (hq : withFilter q e t = .ok q') :
    q' = q ∨ ∃ n : Expr, n.Confined (Scope.Names { table := t }) ∧ q' = q.modify t (·.addFilter n) := by
  unfold withFilter at hq
  split at hq
  · cases hq
    exact .inl rfl
  obtain ⟨_ | c, hc, hq⟩ := Result.bind_eq_ok.mp hq
  · cases hq
    exact .inl rfl
  obtain ⟨n, hn, hq⟩ := Result.bind_eq_ok.mp hq
  cases hq
  exact .inr ⟨n, (confined_of_parseCondition hc).safe_normalize.of_eq_ok hn, rfl⟩

/-- Paging changes how many rows of the table are taken, and from where. -/
theorem exists_of_withPaging {e : Element} (hq : withPaging q e t = .ok q') :
    q' = q ∨ ∃ item offset fetch, q.get? t = some item ∧ q' = q.modify t fun _ => { item with offset, fetch } := by
  unfold withPaging at hq
  split at hq
  · cases hq
    exact .inl rfl
  obtain ⟨item, hitem, hq⟩ := Result.bind_eq_ok.mp hq
  obtain ⟨paged, hpaged, hq⟩ := Result.bind_eq_ok.mp hq
  cases hq
  obtain ⟨root, -, hpaged⟩ := Result.bind_eq_ok.mp hpaged
  obtain ⟨offset, -, hpaged⟩ := Result.bind_eq_ok.mp hpaged
  obtain ⟨fetch, -, hpaged⟩ := Result.bind_eq_ok.mp hpaged
  cases hpaged
  exact .inr ⟨item, _, fetch, Query.item_eq_ok.mp hitem, rfl⟩

theorem Completed.withFilter {e : Element} (h : Completed q q') (hq : withFilter q' e t = .ok q'') : Completed q q'' := by
  obtain rfl | ⟨n, hn, rfl⟩ := exists_of_withFilter hq
  · exact h
  refine h.modify (fun _ _ => rfl) fun item d hitem hd => ?_
  have hn : n.Confined fun u => u = t ∨ q'.Joined u t := hn.mono (fun u hu => hu.imp id nofun) n
  exact confined_addFilter (fun c hc => h.filtered t item c hitem hc) hn hd

theorem Completed.withPaging {e : Element} (h : Completed q q') (hq : withPaging q' e t = .ok q'') : Completed q q'' := by
  obtain rfl | ⟨item, offset, fetch, hitem, rfl⟩ := exists_of_withPaging hq
  · exact h
  have hget : ∀ {other}, q'.get? t = some other → item = other := fun hother => Option.some.inj (hitem.symm.trans hother)
  exact h.modify (fun other hother => by rw [hget hother]) fun other c hother hc =>
    h.filtered t other c hother (hget hother ▸ hc)

theorem Completed.addDetails {e : Element} (h : Completed q q') (hq : addDetails q' e t = .ok q'') : Completed q q'' := by
  rw [addDetails_eq] at hq
  obtain ⟨q₁, hq₁, hq⟩ := Result.bind_eq_ok.mp hq
  obtain ⟨q₂, hq₂, hq⟩ := Result.bind_eq_ok.mp hq
  obtain ⟨orderBy, -, hq⟩ := Result.bind_eq_ok.mp hq
  cases hq
  have hpaged := (h.withFilter hq₁).withPaging hq₂
  exact hpaged.modify (fun _ _ => rfl) fun item c hitem hc => hpaged.filtered t item c hitem hc

theorem Completed.foldlM {d : Definition} {entries : List (String × TableId)} (h : Completed q q')
    (hq : entries.foldlM (fun q entry => match d.items.get? entry.1 with
      | some e => StoredQuery.addDetails q e entry.2
      | none => pure q) q' = .ok q'') : Completed q q'' := by
  induction entries generalizing q' with
  | nil =>
    cases hq
    exact h
  | cons entry entries ih =>
    rw [List.foldlM_cons] at hq
    obtain ⟨next, hnext, hq⟩ := Result.bind_eq_ok.mp hq
    refine ih ?_ hq
    split at hnext
    · exact h.addDetails hnext
    · cases hnext
      exact h

end

/-! ### The root -/

theorem root_eq_ok {d : Definition} {rootId : String} {e : Element} (h : d.root = .ok (rootId, e)) :
    (rootId, e) ∈ d.items.entries ∧
      ∀ id ∈ d.items.keys, (∀ r ∈ d.references, r.child ≠ id) ↔ id = rootId := by
  unfold Definition.root at h
  split at h
  next root hroot =>
    cases h
    have hmem : ∀ entry, (entry ∈ d.items.entries ∧ ∀ r ∈ d.references, r.child ≠ entry.1) ↔ entry = (rootId, e) := by
      intro entry
      rw [← List.mem_singleton, ← hroot, List.mem_filter]
      simp
    obtain ⟨hroot, hfree⟩ := (hmem (rootId, e)).mpr rfl
    refine ⟨hroot, fun id hid => ⟨fun hid' => ?_, ?_⟩⟩
    · obtain ⟨entry, hentry, rfl⟩ := List.mem_map.mp hid
      rw [(hmem entry).mp ⟨hentry, hid'⟩]
    · rintro rfl
      exact hfree
  next => cases h
  next => cases h

/-! ### The tree -/

/-- The ids of the items in a document. -/
def itemIds (document : Element) : List String :=
  (itemsOfType "qry_QueryItem" document).filterMap (·.value? "ref_id")

theorem mem_itemIds {document : Element} {id : String} :
    id ∈ itemIds document ↔ id ∈ (Definition.ofElement document).items.keys := by
  rw [Definition.ofElement, Dictionary.mem_keys_ofList, itemIds, List.map_filterMap]
  simp

/-- The query has one table for each id. Its joins are the references from these ids, which name ids only, each of them
    once but for that of the root, and lead from the root to all of them. -/
structure Mirrors (ids : List String) (references : List Reference) (rootId : String) (table : String → TableId)
    (q : Query) : Prop where
  known : rootId ∈ ids
  unreferenced : ∀ id ∈ ids, (∀ r ∈ references, r.child ≠ id) ↔ id = rootId
  children : ∀ r ∈ references, r.parent ∈ ids → r.child ∈ ids
  distinct : ((references.filter (·.parent ∈ ids)).map (·.child)).Nodup
  reached : ∀ id ∈ ids, ReflTransGen (Refers references) rootId id
  injective : ∀ a ∈ ids, ∀ b ∈ ids, table a = table b → a = b
  live : ∀ t, q.contains t = true ↔ ∃ id ∈ ids, table id = t
  root : q.root = table rootId
  joins : ∀ id ∈ ids, (q.joinsOf (table id)).map (fun j => (j.left, j.right))
    = (references.filter (·.parent == id)).map fun r => (table id, table r.child)
  forest : q.Forest
  tree : ∀ t, q.contains t = true → ReflTransGen q.Joined q.root t
  filtered : Filtered q

/-- The entries with one of several keys, key by key. -/
theorem perm_flatMap_filter (references : List Reference) {ids : List String} (hids : ids.Nodup) :
    (ids.flatMap fun id => references.filter (·.parent == id)).Perm (references.filter (·.parent ∈ ids)) := by
  induction ids with
  | nil => simp
  | cons id ids ih =>
    obtain ⟨hid, hids⟩ := List.nodup_cons.mp hids
    have hsplit := List.filter_append_perm (·.parent == id) (references.filter (·.parent ∈ id :: ids))
    rw [List.filter_filter, List.filter_filter] at hsplit
    refine .trans ?_ hsplit
    rw [List.flatMap_cons]
    refine List.Perm.append (.of_eq ?_) ((ih hids).trans (.of_eq ?_))
    · refine List.filter_congr fun r _ => ?_
      by_cases hr : r.parent = id <;> simp [hr]
    · refine List.filter_congr fun r _ => ?_
      by_cases hr : r.parent = id
      · simp [hr, hid]
      · simp [hr]

section
variable {d : Definition} {rootId : String} {taken : List String} {g : Growth}

theorem mem_below {r : Reference} {id : String} : r ∈ d.below id ↔ r ∈ d.references ∧ r.parent = id := by
  simp [Definition.below]

theorem Visiting.taken_eq (h : Visiting d rootId taken [] g) : taken = rootId :: (taken.flatMap d.below).map (·.child) := by
  simpa using h.order

theorem Visiting.nodup_taken (h : Visiting d rootId taken [] g) : taken.Nodup := by
  rw [h.taken_eq]
  exact h.growing.nodup

theorem Visiting.contains_iff (h : Visiting d rootId taken [] g) {id : String} :
    g.tables.contains id = true ↔ id ∈ taken := by
  rw [h.growing.keys, ← h.taken_eq]

/-- As many tables as items are all of them. -/
theorem Visiting.mem_taken_iff (h : Visiting d rootId taken [] g) (hsize : g.tables.size = d.items.size) {id : String} :
    id ∈ taken ↔ id ∈ d.items.keys := by
  have hkeys : ∀ id, id ∈ g.tables.keys ↔ id ∈ taken := fun id => Dictionary.contains_iff_mem_keys.symm.trans h.contains_iff
  have hlength : taken.length = d.items.keys.length := by
    have hperm := (List.perm_ext_iff_of_nodup h.growing.ordered.nodup_keys h.nodup_taken).mpr hkeys
    rw [← hperm.length_eq]
    simpa [Dictionary.keys, Dictionary.size] using hsize
  have hsub : taken ⊆ d.items.keys := by
    intro id hid
    obtain ⟨t, ht⟩ := Dictionary.contains_iff.mp (h.contains_iff.mpr hid)
    obtain ⟨e, -, -, he, -⟩ := h.growing.described id t ht
    exact Dictionary.contains_iff_mem_keys.mp (Dictionary.contains_iff.mpr ⟨e, he⟩)
  exact ((h.nodup_taken.subperm hsub).perm_of_length_le hlength.ge).mem_iff

/-- The table of an item. -/
def Growth.table (g : Growth) (id : String) : TableId :=
  (g.tables.get? id).getD default

theorem Growth.table_eq {t : TableId} {id : String} (h : g.tables.get? id = some t) : g.table id = t := by
  rw [Growth.table, h, Option.getD_some]

theorem Visiting.get?_table (h : Visiting d rootId taken [] g) {id : String} (hid : id ∈ taken) :
    g.tables.get? id = some (g.table id) := by
  obtain ⟨t, ht⟩ := Dictionary.contains_iff.mp (h.contains_iff.mpr hid)
  rw [ht, Growth.table_eq ht]

theorem Visiting.filter_below (h : Visiting d rootId taken [] g) {id : String} (hid : id ∈ taken) :
    (taken.flatMap d.below).filter (·.parent == id) = d.below id := by
  refine filter_flatMap_of_mem h.nodup_taken hid fun other _ r hr => ?_
  rw [beq_iff_eq, (mem_below.mp hr).2]

theorem Visiting.child_mem (h : Visiting d rootId taken [] g) {r : Reference} (hr : r ∈ d.references)
    (hparent : r.parent ∈ taken) : r.child ∈ taken := by
  rw [h.taken_eq]
  refine List.mem_cons_of_mem _ (List.mem_map_of_mem ?_)
  exact List.mem_flatMap.mpr ⟨r.parent, hparent, mem_below.mpr ⟨hr, rfl⟩⟩

theorem Visiting.nodup_children (h : Visiting d rootId taken [] g) :
    ((d.references.filter (·.parent ∈ taken)).map (·.child)).Nodup :=
  (((perm_flatMap_filter d.references h.nodup_taken).map _).nodup_iff).mp (List.nodup_cons.mp h.growing.nodup).2

theorem Visiting.ends_eq (h : Visiting d rootId taken [] g) {id : String} (hid : id ∈ taken) :
    (g.query.joinsOf (g.table id)).map (fun j => (j.left, j.right))
      = (d.below id).map fun r => (g.table id, g.table r.child) := by
  have hjoins := h.growing.joins id _ (h.get?_table hid)
  rw [h.filter_below hid] at hjoins
  symm
  rw [← List.forall₂_eq_eq_eq, List.forall₂_map_left_iff, List.forall₂_map_right_iff]
  refine hjoins.imp fun r j hfollows => ?_
  obtain ⟨hchild, key, rest, -, hj⟩ := hfollows
  rw [Growth.table_eq hchild, hj]
  rfl

theorem Visiting.joined (h : Visiting d rootId taken [] g) {a b : String} (hab : Refers (taken.flatMap d.below) a b) :
    g.query.Joined (g.table a) (g.table b) := by
  obtain ⟨r, hr, rfl, rfl⟩ := hab
  obtain ⟨id, hid, hbelow⟩ := List.mem_flatMap.mp hr
  obtain ⟨-, rfl⟩ := mem_below.mp hbelow
  refine Query.joined_iff.mpr ⟨g.table r.parent, ?_⟩
  rw [Query.ends, h.ends_eq hid]
  exact List.mem_map_of_mem hbelow

theorem Visiting.mirrors (h : Visiting d rootId taken [] g) (hsize : g.tables.size = d.items.size)
    (hroot : ∀ id ∈ d.items.keys, (∀ r ∈ d.references, r.child ≠ id) ↔ id = rootId)
    {ids : List String} (hids : ∀ id, id ∈ ids ↔ id ∈ d.items.keys) {q : Query} (hq : Completed g.query q) :
    Mirrors ids d.references rootId g.table q := by
  have hmem : ∀ id, id ∈ ids ↔ id ∈ taken := fun id => (hids id).trans (h.mem_taken_iff hsize).symm
  have htable : ∀ id ∈ ids, g.tables.get? id = some (g.table id) := fun id hid => h.get?_table ((hmem id).mp hid)
  have hlive : ∀ t, q.contains t = true ↔ ∃ id ∈ ids, g.table id = t := by
    intro t
    rw [hq.contains, h.growing.live]
    constructor
    · rintro ⟨id, ht⟩
      have hid : id ∈ ids := (hmem id).mpr (h.contains_iff.mp (Dictionary.contains_iff.mpr ⟨t, ht⟩))
      exact ⟨id, hid, Growth.table_eq ht⟩
    · rintro ⟨id, hid, rfl⟩
      exact ⟨id, htable id hid⟩
  have hreached : ∀ id ∈ ids, ReflTransGen (Refers (taken.flatMap d.below)) rootId id := fun id hid =>
    h.growing.reached id (h.contains_iff.mpr ((hmem id).mp hid))
  have hrootEq : q.root = g.table rootId := hq.root.trans (Growth.table_eq h.growing.root).symm
  refine ⟨?_, fun id hid => hroot id ((hids id).mp hid), fun r hr hparent => ?_, ?_, fun id hid => ?_,
    fun a ha b hb heq => ?_, hlive, hrootEq, fun id hid => ?_, hq.kept.rooted.forest, fun t ht => ?_, hq.filtered⟩
  · exact (hmem rootId).mpr (h.taken_eq ▸ List.mem_cons_self)
  · exact (hmem _).mpr (h.child_mem hr ((hmem _).mp hparent))
  · simpa only [hmem] using h.nodup_children
  · refine ReflTransGen.mono (fun a b ⟨r, hr, hends⟩ => ⟨r, ?_, hends⟩) _ _ (hreached id hid)
    obtain ⟨_, _, hbelow⟩ := List.mem_flatMap.mp hr
    exact (mem_below.mp hbelow).1
  · exact h.growing.injective a b _ (htable a ha) (heq ▸ htable b hb)
  · rw [hq.joinsOf, h.ends_eq ((hmem id).mp hid)]
    rfl
  · obtain ⟨id, hid, rfl⟩ := (hlive t).mp ht
    rw [hrootEq]
    exact ReflTransGen.lift g.table (fun a b hab => joined_of_joinsOf hq.joinsOf (h.joined hab)) _ _ (hreached id hid)

end

/-! ### Documents -/

/-- The root of a definition with its table, from which the loop starts. -/
def Definition.start (d : Definition) (rootId : String) (base : QueryItem) : Growth :=
  { query := { Query.ofItem base with parameters := d.parameters }, tables := .ofList [(rootId, (Query.ofItem base).root)] }

theorem visiting_start {document : Element} {rootId : String} {e : Element} {base : QueryItem}
    (hroot : (Definition.ofElement document).root = .ok (rootId, e)) (hbase : tableItem e = .ok base) :
    Visiting (Definition.ofElement document) rootId [] [rootId] ((Definition.ofElement document).start rootId base) := by
  have hordered : (Definition.ofElement document).items.Ordered := Dictionary.ordered_ofList _
  have he := hordered.get?_eq_some_iff.mpr (root_eq_ok hroot).1
  exact ⟨growing_start he hbase _, rfl⟩

theorem grows_start {document : Element} {rootId : String} {e : Element} {base : QueryItem}
    (hroot : (Definition.ofElement document).root = .ok (rootId, e)) (hbase : tableItem e = .ok base) :
    Grows (Definition.ofElement document) ((Definition.ofElement document).start rootId base) [rootId]
      (grow (Definition.ofElement document) ((Definition.ofElement document).items.size + 1)
        ((Definition.ofElement document).start rootId base) [rootId]) :=
  (visiting_start hroot hbase).grows (by simp)

/-- The loop over the references ends, whatever they are, and a query that is read has their tree. -/
theorem ofElement_mirrors (document : Element) :
    (∀ rootId e base, (Definition.ofElement document).root = .ok (rootId, e) → tableItem e = .ok base →
      Grows (Definition.ofElement document) ((Definition.ofElement document).start rootId base) [rootId]
        (grow (Definition.ofElement document) ((Definition.ofElement document).items.size + 1)
          ((Definition.ofElement document).start rootId base) [rootId])) ∧
    ∀ q, ofElement document = .ok q →
      ∃ rootId table, Mirrors (itemIds document) (Definition.ofElement document).references rootId table q := by
  refine ⟨fun rootId e base => grows_start, fun q hq => ?_⟩
  obtain ⟨⟨rootId, e⟩, hroot, hq⟩ := Result.bind_eq_ok.mp hq
  obtain ⟨base, hbase, hq⟩ := Result.bind_eq_ok.mp hq
  obtain ⟨g, hg, hq⟩ := Result.bind_eq_ok.mp hq
  split at hq
  · cases hq
  next hsize =>
  obtain ⟨taken, hvisiting, -⟩ := (visiting_start hroot hbase).exists_of_grows (grows_start hroot hbase) hg
  have hgrowing := hvisiting.growing
  have hcompleted : Completed g.query g.query := ⟨hgrowing.kept, rfl, fun _ => rfl, fun _ => rfl, hgrowing.filtered⟩
  exact ⟨rootId, g.table, hvisiting.mirrors (not_not.mp hsize) (root_eq_ok hroot).2 (fun _ => mem_itemIds)
    (hcompleted.foldlM hq)⟩

/-- The item of a table of this type. -/
def typedItem (id typeName : String) : Element :=
  .node "Item" [("type", "qry_QueryItem"), ("item_type", typeName)] [.leaf "ref_id" id] ""

/-- A reference between two items. -/
def referenceItem (ends : List Element) : Element :=
  .node "Item" [("type", "qry_QueryReference")] ends ""

/-- References with one end only. -/
def looseEnds : Element :=
  .branch "Relationships"
    [typedItem "A" "Part", referenceItem [.leaf "parent_ref_id" "A"], referenceItem [.leaf "child_ref_id" "A"]]

/-- There is a reference from the known item and one to it, but they are not looked at: the item is the root, and nothing
    is joined to it. -/
theorem ofElement_looseEnds :
    itemIds looseEnds = ["A"] ∧
    (itemsOfType "qry_QueryReference" looseEnds).map (fun e => (e.value? "parent_ref_id", e.value? "child_ref_id"))
      = [(some "A", none), (none, some "A")] ∧
    (ofElement looseEnds).map (fun q => (q.tableCount, q.joins.length)) = .ok (1, 0) :=
  ⟨rfl, rfl, rfl⟩

/-- The condition by which the rows of a relationship are found. -/
def sourceKey : Element :=
  .branch "condition"
    [.branch "eq"
      [.node "property" [("name", "id"), ("query_items_xpath", "parent::Item")] [] "",
       .node "property" [("name", "source_id")] [] ""]]

/-- A type and a relationship of it. -/
def structureDefinition (key : String) : Element :=
  .branch "Relationships"
    [typedItem "A" "Part BOM",
     referenceItem [.leaf "parent_ref_id" "B", .leaf "child_ref_id" "A", .leaf "filter_xml" key],
     typedItem "B" "Part"]

/-- The query of the type, with a table for the relationship. -/
def structureTables : TableId × Query :=
  (Query.ofType "Part").addTable (.ofType "Part BOM")

theorem exists_ofElement_structureDefinition {key : String} (hkey : key.isEmpty = false) {q : Query}
    (hadd : addReference structureTables.2 (Query.ofType "Part").root structureTables.1 (some key) = .ok q) :
    ∃ q, ofElement (structureDefinition key) = .ok q := by
  have hok {α β : Type} (a : α) (k : α → Result β) : (Except.ok a >>= k) = k a := rfl
  have hfilter : (some key).filter (!·.isEmpty) = some key := by simp [Option.filter, hkey]
  have hitem : (Definition.ofElement (structureDefinition key)).items.get? "A" = some (typedItem "A" "Part BOM") := rfl
  have htable : tableItem (typedItem "A" "Part BOM") = .ok (.ofType "Part BOM") := rfl
  have hroot : (Definition.ofElement (structureDefinition key)).root = .ok ("B", typedItem "B" "Part") := rfl
  have hchildren : addChildren (Definition.ofElement (structureDefinition key)) (Query.ofType "Part").root
      ((Definition.ofElement (structureDefinition key)).start "B" (.ofType "Part"))
        [⟨"B", "A", (some key).filter (!·.isEmpty)⟩]
      = .ok { query := q, tables := ⟨[("A", structureTables.1), ("B", (Query.ofType "Part").root)]⟩ } := by
    rw [addChildren, hitem]
    dsimp only
    rw [if_neg (by rintro ⟨⟩), hfilter, htable, hok]
    change (addReference structureTables.2 _ structureTables.1 _ >>= _) = _
    rw [hadd, hok]
    rfl
  have hgrow : grow (Definition.ofElement (structureDefinition key)) 3
      ((Definition.ofElement (structureDefinition key)).start "B" (.ofType "Part")) ["B"]
      = .ok { query := q, tables := ⟨[("A", structureTables.1), ("B", (Query.ofType "Part").root)]⟩ } :=
    congrArg (· >>= fun g => grow (Definition.ofElement (structureDefinition key)) 2 g ["A"]) hchildren
  rw [ofElement, Definition.toQuery, hroot, hok]
  change ∃ q', (grow _ 3 ((Definition.ofElement (structureDefinition key)).start "B" (.ofType "Part")) ["B"] >>= _) = _
  rw [hgrow]
  exact ⟨_, rfl⟩

theorem ofElement_mirrors_structureDefinition :
    Grows (Definition.ofElement (structureDefinition sourceKey.markup))
      ((Definition.ofElement (structureDefinition sourceKey.markup)).start "B" (.ofType "Part")) ["B"]
      (grow (Definition.ofElement (structureDefinition sourceKey.markup)) 3
        ((Definition.ofElement (structureDefinition sourceKey.markup)).start "B" (.ofType "Part")) ["B"]) ∧
    ∃ q rootId table, ofElement (structureDefinition sourceKey.markup) = .ok q ∧
      Mirrors ["A", "B"] (Definition.ofElement (structureDefinition sourceKey.markup)).references rootId table q := by
  have hplain : sourceKey.Plain := by
    refine plain_branch (by decide) ⟨plain_branch (by decide) ⟨?_, ?_, trivial⟩, trivial⟩
    · exact ⟨by decide, ⟨by decide, by decide⟩, trimmed_empty, trivial⟩
    · exact ⟨by decide, ⟨by decide, by decide⟩, trimmed_empty, trivial⟩
  have hread : ∀ parent child, readCondition { table := child, parent := some parent } sourceKey
      = .ok (some (.comparison .eq (.prop parent "id") (.prop child "source_id"))) := fun _ _ => rfl
  have hadd : ∃ q, addReference structureTables.2 (Query.ofType "Part").root structureTables.1 (some sourceKey.markup)
      = .ok q := by
    rw [addReference]
    dsimp only
    rw [parseCondition_markup _ hplain, hread]
    exact ⟨_, rfl⟩
  obtain ⟨q, hq⟩ := exists_ofElement_structureDefinition sourceKey.isEmpty_markup hadd.choose_spec
  obtain ⟨rootId, table, hmirrors⟩ := (ofElement_mirrors (structureDefinition sourceKey.markup)).2 q hq
  exact ⟨(ofElement_mirrors _).1 "B" (typedItem "B" "Part") (.ofType "Part") rfl rfl, q, rootId, table, hq, hmirrors⟩

end ItemQuery.StoredQuery
