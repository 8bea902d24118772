import ItemQuery.Proofs.Query.Tree
import ItemQuery.Proofs.StoredQuery.Documents
import ItemQuery.Proofs.StoredQuery.Tree

/-! A query without criteria that is written as a document is read again, up to its handles. The references of the
    document can all be followed, and lead to every item; each item gives its table what was written for it. -/

namespace ItemQuery.StoredQuery

open Relation
open Xml (Element)
open Xml.Element (plain_branch plain_bare)

/-! ### Definitions that can be followed -/

/-- Every reference leads to an item by a key, and none to the root or to an item that another one leads to. -/
structure Followable (d : Definition) (rootId : String) : Prop where
  nodup : (rootId :: d.references.map (·.child)).Nodup
  items : ∀ r ∈ d.references, ∃ e base, d.items.get? r.child = some e ∧ tableItem e = .ok base
  keys : ∀ r ∈ d.references, ∀ parent child, ∃ key, Keyed parent child r.filter key []

section
variable {d : Definition} {rootId : String}

theorem Followable.exists_addChildren (hd : Followable d rootId) {done rs : List Reference} {g : Growth} {id : String}
    {parent : TableId} (h : Growing d rootId done g) (hparent : g.tables.get? id = some parent)
    (hrs : ∀ r ∈ rs, r ∈ d.references ∧ r.parent = id) (hnodup : (rootId :: (done ++ rs).map (·.child)).Nodup) :
    ∃ g', addChildren d parent g rs = .ok g' := by
  induction rs generalizing g done with
  | nil => exact ⟨g, rfl⟩
  | cons r rs ih =>
    rw [List.forall_mem_cons] at hrs
    obtain ⟨⟨hr, rfl⟩, hrs⟩ := hrs
    obtain ⟨e, base, he, hbase⟩ := hd.items r hr
    obtain ⟨key, hkey⟩ := hd.keys r hr parent (g.query.addTable base).1
    have hfirst : g.tables.get? r.child = none := by
      by_contra hknown
      have hmem := (h.keys r.child).mp (Option.isSome_iff_ne_none.mpr hknown)
      rw [List.map_append, List.map_cons, ← List.cons_append] at hnodup
      exact (List.nodup_append.mp hnodup).2.2 _ hmem _ List.mem_cons_self rfl
    obtain ⟨q, hgraft, -, heq⟩ := h.exists_graft hparent he hfirst hbase hkey (show extraFilter [] = .ok none from rfl) rs
    rw [heq]
    refine ih (h.graft hgraft) (hgraft.get?_insert.mpr (.inr hparent)) hrs ?_
    rwa [List.append_assoc, List.singleton_append]

/-- The loop does not fail. -/
theorem Followable.exists_ok (hd : Followable d rootId) {taken queue : List String} {g : Growth} {result : Result Growth}
    (h : Visiting d rootId taken queue g) (hg : Grows d g queue result) : ∃ g', result = .ok g' := by
  induction hg generalizing taken with
  | done => exact ⟨_, rfl⟩
  | next hparent hchildren _ ih => exact ih (h.next hparent hchildren).1
  | @fail g id queue parent err hparent hchildren =>
    have htaken : (taken ++ [id]).Nodup := by
      have hall : (taken ++ id :: queue).Nodup := h.order ▸ h.growing.nodup
      exact hall.sublist (List.Sublist.append_left (List.singleton_sublist.mpr List.mem_cons_self) _)
    have hperm := perm_flatMap_filter d.references htaken
    have hnodup : (rootId :: (taken.flatMap d.below ++ d.below id).map (·.child)).Nodup := by
      rw [List.flatMap_append, List.flatMap_singleton] at hperm
      refine (((hperm.map (·.child)).cons rootId).nodup_iff).mpr (hd.nodup.sublist ?_)
      exact (List.filter_sublist.map _).cons_cons _
    obtain ⟨g', hg'⟩ := hd.exists_addChildren h.growing hparent (fun r hr => mem_below.mp hr) hnodup
    rw [hchildren] at hg'
    cases hg'

end

/-! ### Details of all tables -/

/-- One table was changed, and nothing else. -/
structure Changed (q q' : Query) (t : TableId) (f : QueryItem → QueryItem) : Prop where
  root : q'.root = q.root
  parameters : q'.parameters = q.parameters
  get? : ∀ id, q'.get? id = if id = t then (q.get? t).map f else q.get? id

theorem changed_modify (q : Query) (t : TableId) (f : QueryItem → QueryItem) : Changed q (q.modify t f) t f :=
  ⟨rfl, rfl, Query.get?_modify f t⟩

theorem Changed.trans {q q' q'' : Query} {t : TableId} {f f' : QueryItem → QueryItem} (h : Changed q q' t f)
    (h' : Changed q' q'' t f') : Changed q q'' t (f' ∘ f) where
  root := h'.root.trans h.root
  parameters := h'.parameters.trans h.parameters
  get? id := by
    rw [h'.get?, h.get?, if_pos rfl, h.get?, Option.map_map]
    split <;> rfl

theorem Changed.congr {q q' : Query} {t : TableId} {f f' : QueryItem → QueryItem} (h : Changed q q' t f)
    (hf : ∀ item, q.get? t = some item → f item = f' item) : Changed q q' t f' where
  root := h.root
  parameters := h.parameters
  get? id := by
    rw [h.get?]
    split
    next => exact Option.map_congr hf
    next => rfl

theorem changed_self {q : Query} {t : TableId} {f : QueryItem → QueryItem}
    (hf : ∀ item, q.get? t = some item → f item = item) :
    Changed q q t f where
  root := rfl
  parameters := rfl
  get? id := by
    split
    next heq =>
      rw [heq]
      cases hget : q.get? t with
      | none => rfl
      | some item => rw [Option.map_some, hf item hget]
    next => rfl

/-- The table with what its item says besides its type, its alias and its joins. -/
def detailed (f : TableId → TableId) (stored base : QueryItem) : QueryItem :=
  let paged := if stored.offset.isNone && stored.fetch.isNone then base
    else { base with offset := stored.offset.filter (0 < ·), fetch := stored.fetch }
  { paged with
    select := stored.select.map fun s => { s with expr := s.expr.mapTables f }
    orderBy := stored.orderBy.map fun k => { k with expr := k.expr.mapTables f } }

theorem detailed_eq {f : TableId → TableId} {stored base : QueryItem} (hfetch : base.fetch = none)
    (hoffset : base.offset = none) :
    detailed f stored base = { base with
      offset := stored.offset.filter (0 < ·)
      fetch := stored.fetch
      select := stored.select.map fun s => { s with expr := s.expr.mapTables f }
      orderBy := stored.orderBy.map fun k => { k with expr := k.expr.mapTables f } } := by
  rw [detailed]
  split
  next hnone =>
    rw [Bool.and_eq_true, Option.isNone_iff_eq_none, Option.isNone_iff_eq_none] at hnone
    simp [hnone, hfetch, hoffset]
  next => rfl

theorem exists_addDetails {ctx : Context} {source q : Query} {t : TableId} {item : QueryItem}
    (h : Storable ctx source t item) (f : TableId → TableId) (id name : String) (hlive : q.contains (f t) = true) :
    ∃ q', addDetails q (itemElement id name item) (f t) = .ok q' ∧ Changed q q' (f t) (detailed f item) := by
  obtain ⟨base, hbase⟩ := Query.contains_iff.mp hlive
  have hfilter : withFilter q (itemElement id name item) (f t) = .ok q := by
    rw [withFilter, value?_filter_xml]
    rfl
  have hpaging : ∃ q', withPaging q (itemElement id name item) (f t) = .ok q' ∧
      Changed q q' (f t) fun base => if item.offset.isNone && item.fetch.isNone then base
        else { base with offset := item.offset.filter (0 < ·), fetch := item.fetch } := by
    rw [withPaging, value?_offset_fetch_xml]
    by_cases hnone : (item.offset.isNone && item.fetch.isNone) = true
    · simp only [hnone, if_true]
      exact ⟨q, rfl, changed_self fun _ _ => rfl⟩
    · simp only [if_neg hnone, Query.item, hbase, bind, Except.bind, applyPaging_pagingElement]
      refine ⟨_, rfl, (changed_modify q (f t) _).congr fun other hother => ?_⟩
      rw [Option.some.inj (hbase.symm.trans hother)]
  obtain ⟨q', hq', hchanged⟩ := hpaging
  rw [addDetails_eq, hfilter]
  simp only [bind, Except.bind, hq', sortKeys_itemElement h, selections_itemElement h]
  exact ⟨_, rfl, hchanged.trans (changed_modify ..)⟩

/-- The details of all tables, one after the other. -/
theorem exists_foldlM {step : Query → String × TableId → Result Query}
    {P : String × TableId → (QueryItem → QueryItem) → Prop} {entries : List (String × TableId)}
    (hnodup : (entries.map (·.2)).Nodup)
    (hstep : ∀ entry ∈ entries, ∀ q : Query, q.contains entry.2 = true →
      ∃ q' f, step q entry = .ok q' ∧ P entry f ∧ Changed q q' entry.2 f)
    {q : Query} (hlive : ∀ entry ∈ entries, q.contains entry.2 = true) :
    ∃ q', entries.foldlM step q = .ok q' ∧ q'.root = q.root ∧ q'.parameters = q.parameters ∧
      (∀ entry ∈ entries, ∃ f, P entry f ∧ q'.get? entry.2 = (q.get? entry.2).map f) ∧
        ∀ id ∉ entries.map (·.2), q'.get? id = q.get? id := by
  induction entries generalizing q with
  | nil => exact ⟨q, rfl, rfl, rfl, nofun, fun _ _ => rfl⟩
  | cons entry entries ih =>
    rw [List.map_cons, List.nodup_cons] at hnodup
    rw [List.forall_mem_cons] at hstep hlive
    obtain ⟨q₁, f, hq₁, hf, hchanged⟩ := hstep.1 q hlive.1
    have hsame : ∀ other ∈ entries, q₁.get? other.2 = q.get? other.2 := by
      intro other hmem
      rw [hchanged.get?, if_neg]
      exact fun heq => hnodup.1 (heq ▸ List.mem_map_of_mem hmem)
    have hlive₁ : ∀ other ∈ entries, q₁.contains other.2 = true := by
      intro other hmem
      rw [Query.contains_iff, hsame other hmem, ← Query.contains_iff]
      exact hlive.2 other hmem
    obtain ⟨q', hq', hroot, hparameters, hdetails, hrest⟩ := ih hnodup.2 hstep.2 hlive₁
    refine ⟨q', by rw [List.foldlM_cons, hq₁]; exact hq', hroot.trans hchanged.root, hparameters.trans hchanged.parameters,
      List.forall_mem_cons.mpr ⟨⟨f, hf, ?_⟩, fun other hmem => ?_⟩, fun id hid => ?_⟩
    · rw [hrest _ hnodup.1, hchanged.get?, if_pos rfl]
    · obtain ⟨f', hf', heq⟩ := hdetails other hmem
      exact ⟨f', hf', by rw [heq, hsame other hmem]⟩
    · rw [List.map_cons, List.mem_cons, not_or] at hid
      rw [hrest id hid.2, hchanged.get?, if_neg hid.1]

/-! ### Ids of tables -/

namespace Writer

variable {w : Writer} {t a b : TableId}

theorem mem_refIds (hwalk : t ∈ w.refIds.map (·.1)) : (t, w.refId t) ∈ w.refIds := by
  obtain ⟨entry, hentry, rfl⟩ := List.mem_map.mp hwalk
  obtain ⟨found, hfound⟩ := Option.isSome_iff_exists.mp
    (List.find?_isSome.mpr ⟨entry, hentry, by simp⟩ : (w.refIds.find? (·.1 == entry.1)).isSome)
  have hkey : found.1 = entry.1 := by simpa using List.find?_some hfound
  rw [refId, hfound, Option.map_some, Option.getD_some, ← hkey]
  exact List.mem_of_find?_eq_some hfound

theorem refId_injective (hids : (w.refIds.map (·.2)).Nodup) (ha : a ∈ w.refIds.map (·.1)) (hb : b ∈ w.refIds.map (·.1))
    (heq : w.refId a = w.refId b) : a = b :=
  congrArg Prod.fst (List.inj_on_of_nodup_map hids (mem_refIds ha) (mem_refIds hb) heq)

end Writer

/-! ### Keys of joins -/

theorem plain_joinElement (j : Join) : (joinElement j).Plain := by
  refine plain_branch (by decide) ⟨plain_branch (by decide) ⟨?_, ?_, trivial⟩, trivial⟩
  · exact plain_bare (by decide) ⟨by simp; decide, by simp⟩
  · exact plain_bare (by decide) ⟨by simp; decide, by simp⟩

theorem parseCondition_joinElement (parent child : TableId) (j : Join) :
    parseCondition { table := child, parent := some parent } (joinElement j).markup
      = .ok (some (.comparison .eq (.prop parent j.leftProperty) (.prop child j.rightProperty))) := by
  rw [parseCondition_markup _ (plain_joinElement j)]
  rfl

theorem takeKey_comparison (parent child : TableId) (left right : String) :
    takeKey parent child ((Expr.comparison .eq (.prop parent left) (.prop child right)).flatten .and)
      = (some (left, right), []) := by
  simp [Expr.flatten, takeKey, joinKey?, Expr.prop]

theorem keyed_joinElement (parent child : TableId) (j : Join) :
    Keyed parent child (some (joinElement j).markup) (j.leftProperty, j.rightProperty) [] :=
  ⟨_, _, rfl, parseCondition_joinElement parent child j, takeKey_comparison ..⟩

/-- The key that is found is that of the join. -/
theorem Keyed.eq_joinElement {parent child : TableId} {j : Join} {key : String × String} {rest : List Expr}
    (h : Keyed parent child (some (joinElement j).markup) key rest) : key = (j.leftProperty, j.rightProperty) := by
  obtain ⟨source, condition, hsource, hcondition, hkey⟩ := h
  cases hsource
  rw [parseCondition_joinElement] at hcondition
  cases hcondition
  rw [takeKey_comparison] at hkey
  exact (Option.some.inj (congrArg Prod.fst hkey)).symm

/-! ### The definition of a query -/

/-- What a query and its ids have to satisfy: its joins form a forest, whose foreign keys lead to ids; its tables can be
    stored; and the ids tell them apart. -/
structure Fit (w : Writer) : Prop where
  kept : w.query.Kept
  storable : ∀ t ∈ w.query.walk, ∃ item, w.query.get? t = some item ∧ Storable w.ctx w.query t item
  keys : ∀ t, ∀ j ∈ w.query.joinsOf t, (j.cardinality = .oneToOne ↔ j.rightProperty = "id")
  injective : ∀ a ∈ w.query.walk, ∀ b ∈ w.query.walk, w.refId a = w.refId b → a = b
  nonempty : ∀ t ∈ w.query.walk, w.refId t ≠ ""
  parameters : ∀ p ∈ w.query.parameters, p.name ≠ "" ∧ p.default ≠ some ""

/-- The parts of the document. -/
def Writer.definition (w : Writer) : Definition :=
  { items := .ofList (w.query.walk.map fun t => (w.refId t, itemElement (w.refId t) (w.typeName t) (w.table t)))
    references := (w.query.walk.flatMap w.query.joinsOf).map w.referenceOf
    parameters := w.query.parameters }

namespace Fit

variable {w : Writer} (h : Fit w) {t : TableId} {j : Join}
include h

theorem rooted : w.query.Rooted :=
  h.kept.rooted

theorem storable_table (ht : t ∈ w.query.walk) :
    w.query.get? t = some (w.table t) ∧ Storable w.ctx w.query t (w.table t) := by
  obtain ⟨item, hitem, hstorable⟩ := h.storable t ht
  have htable : w.table t = item := by rw [Writer.table, hitem, Option.getD_some]
  exact htable ▸ ⟨hitem, hstorable⟩

theorem typeName_ne (ht : t ∈ w.query.walk) : w.ctx.tableTypeName w.query t = some (w.typeName t) ∧ w.typeName t ≠ "" := by
  obtain ⟨name, hname, hne⟩ := (h.storable_table ht).2.typeName
  have htype : w.typeName t = name := by rw [Writer.typeName, hname, Option.getD_some]
  exact htype ▸ ⟨hname, hne⟩

theorem ofElement_eq : Definition.ofElement w.tree = w.definition :=
  Writer.ofElement_tree h.nonempty
    (fun _ ht _ hj => ⟨h.nonempty _ (h.rooted.left_eq hj ▸ ht), h.nonempty _ (h.rooted.right_mem_walk ht hj)⟩)
    h.parameters

theorem nodup_ids {ids : List TableId} (hsub : ids ⊆ w.query.walk) (hnodup : ids.Nodup) : (ids.map w.refId).Nodup :=
  hnodup.map_on fun a ha b hb => h.injective a (hsub ha) b (hsub hb)

theorem get?_items (ht : t ∈ w.query.walk) :
    w.definition.items.get? (w.refId t) = some (itemElement (w.refId t) (w.typeName t) (w.table t)) := by
  refine Dictionary.get?_ofList ?_ (List.mem_map_of_mem ht)
  rw [List.map_map]
  exact h.nodup_ids (List.Subset.refl _) h.rooted.lists_walk.nodup

omit h in
theorem mem_keys_items {id : String} : id ∈ w.definition.items.keys ↔ ∃ t ∈ w.query.walk, w.refId t = id := by
  rw [Writer.definition, Dictionary.mem_keys_ofList, List.map_map, List.mem_map]
  rfl

theorem tableItem_eq (ht : t ∈ w.query.walk) :
    tableItem (itemElement (w.refId t) (w.typeName t) (w.table t))
      = .ok { QueryItem.ofType (w.typeName t) with aliasName := (w.table t).aliasName } :=
  tableItem_itemElement (h.typeName_ne ht).2 (h.storable_table ht).2.aliasName

omit h in
theorem mem_references {r : Reference} :
    r ∈ w.definition.references ↔ ∃ t ∈ w.query.walk, ∃ j ∈ w.query.joinsOf t, w.referenceOf j = r := by
  rw [Writer.definition, List.mem_map]
  simp only [List.mem_flatMap]
  constructor
  · rintro ⟨j, ⟨t, ht, hj⟩, rfl⟩
    exact ⟨t, ht, j, hj, rfl⟩
  · rintro ⟨t, ht, j, hj, rfl⟩
    exact ⟨j, ⟨t, ht, hj⟩, rfl⟩

/-- The references from an item are those of the joins of its table. -/
theorem below_eq (ht : t ∈ w.query.walk) : w.definition.below (w.refId t) = (w.query.joinsOf t).map w.referenceOf := by
  rw [Definition.below, Writer.definition, List.map_flatMap]
  refine filter_flatMap_of_mem h.rooted.lists_walk.nodup ht fun a ha r hr => ?_
  obtain ⟨j, hj, rfl⟩ := List.mem_map.mp hr
  rw [Writer.referenceOf, h.rooted.left_eq hj, beq_iff_eq]
  exact ⟨h.injective a ha t ht, congrArg w.refId⟩

theorem nodup_rights : (w.query.root :: (w.query.walk.flatMap w.query.joinsOf).map (·.right)).Nodup := by
  refine List.nodup_cons.mpr ⟨fun hroot => ?_, ?_⟩
  · obtain ⟨j, hj, heq⟩ := List.mem_map.mp hroot
    obtain ⟨t, ht, hj⟩ := List.mem_flatMap.mp hj
    have hjoined : w.query.Joined t w.query.root := h.rooted.forest.mem_children.mp (heq ▸ List.mem_map_of_mem hj)
    exact h.rooted.acyclic _ (TransGen.tail' (h.rooted.mem_walk.mp ht) hjoined)
  · exact h.rooted.nodup_rights h.rooted.lists_walk.nodup

theorem followable : Followable w.definition (w.refId w.query.root) where
  nodup := by
    have hsub : w.query.root :: (w.query.walk.flatMap w.query.joinsOf).map (·.right) ⊆ w.query.walk := by
      intro t ht
      rcases List.mem_cons.mp ht with rfl | ht
      · exact h.rooted.root_mem_walk
      · obtain ⟨j, hj, rfl⟩ := List.mem_map.mp ht
        obtain ⟨a, ha, hj⟩ := List.mem_flatMap.mp hj
        exact h.rooted.right_mem_walk ha hj
    have hids := h.nodup_ids hsub h.nodup_rights
    rw [List.map_cons, List.map_map] at hids
    rw [Writer.definition, List.map_map]
    exact hids
  items r hr := by
    obtain ⟨t, ht, j, hj, rfl⟩ := mem_references.mp hr
    exact ⟨_, _, h.get?_items (h.rooted.right_mem_walk ht hj), h.tableItem_eq (h.rooted.right_mem_walk ht hj)⟩
  keys r hr parent child := by
    obtain ⟨t, ht, j, hj, rfl⟩ := mem_references.mp hr
    exact ⟨_, keyed_joinElement parent child j⟩

/-- The item of the root is the one that no reference leads to. -/
theorem root_eq : w.definition.root
    = .ok (w.refId w.query.root, itemElement (w.refId w.query.root) (w.typeName w.query.root) (w.table w.query.root)) := by
  have hordered : w.definition.items.Ordered := Dictionary.ordered_ofList _
  have hmem := hordered.get?_eq_some_iff.mp (h.get?_items h.rooted.root_mem_walk)
  have hfilter : w.definition.items.entries.filter (fun entry => !w.definition.references.any (·.child == entry.1))
      = [(w.refId w.query.root, itemElement (w.refId w.query.root) (w.typeName w.query.root) (w.table w.query.root))] := by
    have hsingle := filter_flatMap_of_mem (f := fun entry => [entry]) (hordered.nodup_keys.of_map _) hmem
      (p := fun entry => !w.definition.references.any (·.child == entry.1)) ?_
    · rwa [List.flatMap_singleton'] at hsingle
    intro entry hentry other hother
    cases List.mem_singleton.mp hother
    obtain ⟨t, ht, hid⟩ := mem_keys_items.mp (List.mem_map_of_mem hentry)
    have hget := hordered.get?_eq_some_iff.mpr hentry
    rw [← hid, h.get?_items ht] at hget
    have heq : entry = (w.refId t, itemElement (w.refId t) (w.typeName t) (w.table t)) :=
      Prod.ext hid.symm (Option.some.inj hget).symm
    rw [heq]
    by_cases hroot : t = w.query.root
    · subst hroot
      have hfree := (List.nodup_cons.mp h.followable.nodup).1
      have hnone : w.definition.references.any (·.child == w.refId w.query.root) = false := by
        rw [List.any_eq_false]
        intro r hr hchild
        exact hfree (beq_iff_eq.mp hchild ▸ List.mem_map_of_mem hr)
      simp [hnone]
    · obtain heq | ⟨b, hb, hjoined⟩ := (h.rooted.mem_walk.mp ht).cases_tail
      · exact absurd heq hroot
      have hwalk : b ∈ w.query.walk := h.rooted.mem_walk.mpr hb
      obtain ⟨j, hj, rfl⟩ := List.mem_map.mp (h.rooted.forest.mem_children.mpr hjoined)
      have hreferenced : w.definition.references.any (·.child == w.refId j.right) = true :=
        List.any_eq_true.mpr ⟨w.referenceOf j, mem_references.mpr ⟨b, hwalk, j, hj, rfl⟩, beq_self_eq_true _⟩
      rw [hreferenced]
      refine ⟨nofun, fun hsame => absurd ?_ hroot⟩
      exact h.injective _ ht _ h.rooted.root_mem_walk (congrArg Prod.fst hsame)
  rw [Definition.root, hfilter]

/-- All references are followed. -/
theorem exists_grow :
    ∃ taken g, grow w.definition (w.definition.items.size + 1) (w.definition.start (w.refId w.query.root)
        { QueryItem.ofType (w.typeName w.query.root) with aliasName := (w.table w.query.root).aliasName })
        [w.refId w.query.root] = .ok g ∧
      Visiting w.definition (w.refId w.query.root) taken [] g ∧ g.query.parameters = w.query.parameters := by
  have hroot : (Definition.ofElement w.tree).root = _ := h.ofElement_eq ▸ h.root_eq
  have hstart := visiting_start hroot (h.tableItem_eq h.rooted.root_mem_walk)
  have hgrows := grows_start hroot (h.tableItem_eq h.rooted.root_mem_walk)
  rw [h.ofElement_eq] at hstart hgrows
  obtain ⟨g, hg⟩ := h.followable.exists_ok hstart hgrows
  obtain ⟨taken, hvisiting, hparameters⟩ := hstart.exists_of_grows hgrows hg
  exact ⟨taken, g, hg, hvisiting, hparameters⟩

section
variable {taken : List String} {g : Growth} (hvisiting : Visiting w.definition (w.refId w.query.root) taken [] g)
include hvisiting

theorem refId_mem_taken (ht : t ∈ w.query.walk) : w.refId t ∈ taken := by
  have hway := h.rooted.mem_walk.mp ht
  clear ht
  induction hway with
  | refl =>
    rw [hvisiting.taken_eq]
    exact List.mem_cons_self
  | @tail a b hway hjoined ih =>
    have hwalk : a ∈ w.query.walk := h.rooted.mem_walk.mpr hway
    obtain ⟨j, hj, rfl⟩ := List.mem_map.mp (h.rooted.forest.mem_children.mpr hjoined)
    refine hvisiting.child_mem (mem_references.mpr ⟨a, hwalk, j, hj, rfl⟩) ?_
    rw [Writer.referenceOf, h.rooted.left_eq hj]
    exact ih

theorem get?_tables (ht : t ∈ w.query.walk) : g.tables.get? (w.refId t) = some (g.table (w.refId t)) :=
  hvisiting.get?_table (h.refId_mem_taken hvisiting ht)

omit h in
theorem exists_of_get? {id : String} {u : TableId} (hu : g.tables.get? id = some u) :
    ∃ t ∈ w.query.walk, w.refId t = id ∧ g.table (w.refId t) = u := by
  obtain ⟨e, -, -, he, -⟩ := hvisiting.growing.described id u hu
  obtain ⟨t, ht, rfl⟩ := mem_keys_items.mp (Dictionary.contains_iff_mem_keys.mp (Dictionary.contains_iff.mpr ⟨e, he⟩))
  exact ⟨t, ht, rfl, Growth.table_eq hu⟩

include h in
theorem size_tables : g.tables.size = w.definition.items.size := by
  have hitems : w.definition.items.Ordered := Dictionary.ordered_ofList _
  have hkeys : ∀ id, id ∈ g.tables.keys ↔ id ∈ w.definition.items.keys := by
    intro id
    rw [← Dictionary.contains_iff_mem_keys, Dictionary.contains_iff, mem_keys_items]
    constructor
    · rintro ⟨u, hu⟩
      obtain ⟨t, ht, hid, -⟩ := exists_of_get? hvisiting hu
      exact ⟨t, ht, hid⟩
    · rintro ⟨t, ht, rfl⟩
      exact ⟨_, h.get?_tables hvisiting ht⟩
  have hperm := (List.perm_ext_iff_of_nodup hvisiting.growing.ordered.nodup_keys hitems.nodup_keys).mpr hkeys
  simpa [Dictionary.keys, Dictionary.size] using hperm.length_eq

/-- The joins of a table are followed in their order. -/
theorem joinsOf_table (ht : t ∈ w.query.walk) :
    (g.query.joinsOf (g.table (w.refId t))).map Join.link
      = (w.query.joinsOf t).map fun j =>
        { j.link with left := g.table (w.refId j.left), right := g.table (w.refId j.right) } := by
  have hjoins := hvisiting.growing.joins _ _ (h.get?_tables hvisiting ht)
  rw [hvisiting.filter_below (h.refId_mem_taken hvisiting ht), h.below_eq ht] at hjoins
  symm
  rw [List.forall₂_map_left_iff] at hjoins
  rw [← List.forall₂_eq_eq_eq, List.forall₂_map_left_iff, List.forall₂_map_right_iff]
  refine ((List.forall₂_and_left _ _).mpr ⟨fun j (hj : j ∈ w.query.joinsOf t) => hj, hjoins⟩).imp ?_
  rintro j j' ⟨hj, hchild, key, rest, hkey, heq⟩
  obtain rfl := hkey.eq_joinElement
  have hright : g.table (w.refId j.right) = j'.right := Growth.table_eq hchild
  have hcardinality : (if j.rightProperty = "id" then Cardinality.oneToOne else .oneToMany) = j.cardinality := by
    split
    next hid => exact ((h.keys t j hj).mpr hid).symm
    next hid =>
      cases hj' : j.cardinality with
      | oneToOne => exact absurd ((h.keys t j hj).mp hj') hid
      | oneToMany => rfl
  rw [heq, h.rooted.left_eq hj, hright]
  simp only [Join.link, keyJoin, hcardinality]

end

end Fit

/-! ### The query again -/

/-- A table of the query that was written, and its table in the query that was read. The kind of a join is not stored,
    and no offset is the same as one of zero. -/
structure SameTable (ctx : Context) (q : Query) (f : TableId → TableId) (t : TableId) (item item' : QueryItem) : Prop where
  typeName : item'.typeName = ctx.tableTypeName q t
  aliasName : item'.aliasName = item.aliasName
  select : item'.select = item.select.map fun s => { s with expr := s.expr.mapTables f }
  orderBy : item'.orderBy = item.orderBy.map fun k => { k with expr := k.expr.mapTables f }
  fetch : item'.fetch = item.fetch
  offset : item'.offset = item.offset.filter (0 < ·)
  joins : item'.joins.map Join.link = item.joins.map fun j => { j.link with left := f j.left, right := f j.right }

/-- The tables that are reached from the root correspond to all tables of the other query. -/
structure Restored (ctx : Context) (q q' : Query) (f : TableId → TableId) : Prop where
  root : q'.root = f q.root
  injective : ∀ a ∈ q.walk, ∀ b ∈ q.walk, f a = f b → a = b
  live : ∀ t, q'.contains t = true ↔ ∃ a ∈ q.walk, f a = t
  tables : ∀ t ∈ q.walk, ∃ item item', q.get? t = some item ∧ q'.get? (f t) = some item' ∧ SameTable ctx q f t item item'
  parameters : q'.parameters = q.parameters

/-- The details of a table, if its item is there. -/
def Definition.addDetails (d : Definition) (q : Query) (entry : String × TableId) : Result Query :=
  match d.items.get? entry.1 with
  | some e => StoredQuery.addDetails q e entry.2
  | none => pure q

/-- The details of its item are added to each table that has grown, and nothing else changes. -/
structure Detailed (w : Writer) (g : Growth) (q' : Query) : Prop where
  root : q'.root = g.query.root
  parameters : q'.parameters = g.query.parameters
  live : ∀ t, q'.contains t = g.query.contains t
  table : ∀ t ∈ w.query.walk, q'.get? (g.table (w.refId t)) =
    (g.query.get? (g.table (w.refId t))).map (detailed (fun t => g.table (w.refId t)) (w.table t))

section
variable {w : Writer} {taken : List String} {g : Growth} {q' : Query} {t : TableId} (h : Fit w)
  (hvisiting : Visiting w.definition (w.refId w.query.root) taken [] g)
include h hvisiting

theorem Fit.table_inj : ∀ a ∈ w.query.walk, ∀ b ∈ w.query.walk, g.table (w.refId a) = g.table (w.refId b) → a = b :=
  fun a ha b hb heq => h.injective a ha b hb
    (hvisiting.growing.injective _ _ _ (h.get?_tables hvisiting ha) (heq ▸ h.get?_tables hvisiting hb))

theorem Fit.exists_detailed :
    ∃ q', g.tables.entries.foldlM w.definition.addDetails g.query = .ok q' ∧ Detailed w g q' := by
  have hgrowing := hvisiting.growing
  have hnodup : (g.tables.entries.map (·.2)).Nodup := by
    refine (hgrowing.ordered.nodup_keys.of_map _).map_on fun a ha b hb heq => ?_
    have hkey := hgrowing.injective a.1 b.1 a.2 (hgrowing.ordered.get?_eq_some_iff.mpr ha)
      (heq ▸ hgrowing.ordered.get?_eq_some_iff.mpr hb)
    exact Prod.ext hkey heq
  have hlive : ∀ entry ∈ g.tables.entries, g.query.contains entry.2 = true := fun entry hentry =>
    (hgrowing.live _).mpr ⟨entry.1, hgrowing.ordered.get?_eq_some_iff.mpr hentry⟩
  obtain ⟨q', hq', hroot, hsame, hdetails, hrest⟩ : ∃ q', g.tables.entries.foldlM w.definition.addDetails g.query =
      .ok q' ∧ q'.root = g.query.root ∧ q'.parameters = g.query.parameters ∧
      (∀ entry ∈ g.tables.entries, ∃ f, (∀ t ∈ w.query.walk, w.refId t = entry.1 →
        f = detailed (fun t => g.table (w.refId t)) (w.table t)) ∧ q'.get? entry.2 = (g.query.get? entry.2).map f) ∧
      ∀ id ∉ g.tables.entries.map (·.2), q'.get? id = g.query.get? id := by
    refine exists_foldlM hnodup (fun entry hmem q hq => ?_) hlive
    obtain ⟨t, ht, hid, htable⟩ := Fit.exists_of_get? hvisiting (hgrowing.ordered.get?_eq_some_iff.mpr hmem)
    obtain ⟨q', hq', hchanged⟩ := exists_addDetails (h.storable_table ht).2 (fun t => g.table (w.refId t)) (w.refId t)
      (w.typeName t) (htable ▸ hq)
    refine ⟨q', _, ?_, fun u hu hsame => ?_, htable ▸ hchanged⟩
    · rw [Definition.addDetails, ← hid, h.get?_items ht, ← htable]
      exact hq'
    · rw [h.injective u hu t ht (hsame.trans hid.symm)]
  refine ⟨q', hq', hroot, hsame, fun t => ?_, fun t ht => ?_⟩
  · by_cases hmem : t ∈ g.tables.entries.map (·.2)
    · obtain ⟨entry, hentry, rfl⟩ := List.mem_map.mp hmem
      obtain ⟨f, -, heq⟩ := hdetails entry hentry
      exact (congrArg Option.isSome heq).trans Option.isSome_map
    · exact congrArg Option.isSome (hrest t hmem)
  · obtain ⟨f, hf, heq⟩ := hdetails _ (hgrowing.ordered.get?_eq_some_iff.mp (h.get?_tables hvisiting ht))
    rw [← hf t ht rfl]
    exact heq

/-- A table that has grown and has its details is the table that was written. -/
theorem Fit.exists_sameTable (hdetailed : Detailed w g q') (ht : t ∈ w.query.walk) :
    ∃ item item', w.query.get? t = some item ∧ q'.get? (g.table (w.refId t)) = some item' ∧
      SameTable w.ctx w.query (fun t => g.table (w.refId t)) t item item' := by
  have heq := hdetailed.table t ht
  obtain ⟨e, base, item, he, hbase, hitem, hdescribed⟩ := hvisiting.growing.described _ _ (h.get?_tables hvisiting ht)
  cases (h.get?_items ht).symm.trans he
  cases (h.tableItem_eq ht).symm.trans hbase
  have hbare : item.fetch = none ∧ item.offset = none ∧ item.typeName = some (w.typeName t) ∧
      item.aliasName = (w.table t).aliasName := by
    rw [hdescribed]
    exact ⟨rfl, rfl, rfl, rfl⟩
  have hjoins := h.joinsOf_table hvisiting ht
  rw [Query.joinsOf, hitem, Query.joinsOf, (h.storable_table ht).1, Option.elim_some, Option.elim_some] at hjoins
  rw [hitem, Option.map_some, detailed_eq hbare.1 hbare.2.1] at heq
  refine ⟨w.table t, _, (h.storable_table ht).1, heq, ?_⟩
  exact ⟨hbare.2.2.1.trans (h.typeName_ne ht).1.symm, hbare.2.2.2, rfl, rfl, rfl, rfl, hjoins⟩

end

theorem Fit.exists_restored {w : Writer} (h : Fit w) :
    ∃ q' f, ofElement w.tree = .ok q' ∧ Restored w.ctx w.query q' f := by
  obtain ⟨taken, g, hg, hvisiting, hparameters⟩ := h.exists_grow
  obtain ⟨q', hq', hdetailed⟩ := h.exists_detailed hvisiting
  refine ⟨q', fun t => g.table (w.refId t), ?_, ?_, h.table_inj hvisiting, fun t => ?_,
    fun t ht => h.exists_sameTable hvisiting hdetailed ht, hdetailed.parameters.trans hparameters⟩
  · rw [ofElement, h.ofElement_eq, Definition.toQuery, h.root_eq]
    rw [Definition.start] at hg
    simp only [bind, Except.bind, h.tableItem_eq h.rooted.root_mem_walk, hg, Fit.size_tables h hvisiting, ne_eq,
      not_true_eq_false, if_false]
    exact hq'
  · rw [hdetailed.root]
    exact (Growth.table_eq hvisiting.growing.root).symm
  · rw [hdetailed.live, hvisiting.growing.live]
    constructor
    · rintro ⟨id, ht⟩
      obtain ⟨a, ha, -, htable⟩ := Fit.exists_of_get? hvisiting ht
      exact ⟨a, ha, htable⟩
    · rintro ⟨a, ha, rfl⟩
      exact ⟨_, h.get?_tables hvisiting ha⟩

/-! ### Queries that are built from a type -/

/-- Queries that grow from a table of a type along foreign keys and relationships; whatever else a table says can be set
    at any time. -/
inductive Built : Query → Prop
  | start (typeName : String) : Built (Query.ofType typeName)
  | joinProperty {q : Query} {table : TableId} (hq : Built q) (htable : q.contains table = true) (property : String)
      (kind : JoinKind) : Built (q.joinProperty table property kind).2
  | addRelationship {q : Query} {table : TableId} (hq : Built q) (htable : q.contains table = true) (typeName : String) :
      Built (q.addRelationship table typeName).2
  | modify {q : Query} {f : QueryItem → QueryItem} (hq : Built q) (hf : ∀ item, (f item).joins = item.joins)
      (table : TableId) : Built (q.modify table f)
  | parameters {q : Query} (hq : Built q) (parameters : List ParameterDef) : Built { q with parameters }

theorem grown_parameters {q : Query} (h : q.Grown) (parameters : List ParameterDef) :
    Query.Grown { q with parameters } where
  kept := ⟨h.kept.sound, h.kept.rooted.of_sublist (fun _ => .refl _) h.kept.rooted.live⟩
  rootLive := h.rootLive
  reached := h.reached
  distinct := h.distinct
  shape := h.shape

theorem Built.grown {q : Query} (h : Built q) : q.Grown := by
  induction h with
  | start typeName => exact Query.grown_ofItem rfl
  | joinProperty _ htable property kind ih => exact (ih.joinProperty htable property kind).1
  | addRelationship _ htable typeName ih => exact (ih.addRelationship htable typeName).1
  | modify _ hf table ih => exact (ih.modify (fun item => congrArg _ (hf item)) table).1
  | parameters _ parameters ih => exact grown_parameters ih parameters

theorem sublist_map_snd_zip {α β : Type} (as : List α) (bs : List β) : ((as.zip bs).map (·.2)).Sublist bs := by
  induction as generalizing bs with
  | nil => exact List.nil_sublist bs
  | cons a as ih =>
    cases bs with
    | nil => exact List.nil_sublist _
    | cons b bs => exact (ih bs).cons_cons b

theorem fit_of_built {ctx : Context} {q : Query} {refIds : List String} (hq : Built q)
    (hids : refIds.Nodup) (hnonempty : "" ∉ refIds) (hcount : q.walk.length ≤ refIds.length)
    (htables : ∀ t ∈ q.walk, ∃ item, q.get? t = some item ∧ Storable ctx q t item)
    (hparameters : ∀ p ∈ q.parameters, p.name ≠ "" ∧ p.default ≠ some "") :
    Fit { ctx, query := q, refIds := q.walk.zip refIds } := by
  have hkeys : ∀ t ∈ q.walk, t ∈ (q.walk.zip refIds).map (·.1) := fun t ht => by rwa [List.map_fst_zip hcount]
  have hvalues : ((q.walk.zip refIds).map (·.2)).Nodup := hids.sublist (sublist_map_snd_zip ..)
  refine ⟨hq.grown.kept, htables, fun t j hj => ?_, fun a ha b hb heq => ?_, fun t ht hempty => ?_, hparameters⟩
  · simpa [Join.isForeignKey, Join.link] using hq.grown.shape t j.link (List.mem_map_of_mem hj)
  · exact Writer.refId_injective hvalues (hkeys a ha) (hkeys b hb) heq
  · have hmem := Writer.mem_refIds (w := { ctx, query := q, refIds := q.walk.zip refIds }) (hkeys t ht)
    exact hnonempty (hempty ▸ (List.of_mem_zip hmem).2)

theorem events_eq_of_built {ctx : Context} {q : Query} (refIds : List String) (hq : Built q)
    (htables : ∀ t ∈ q.walk, ∃ item, q.get? t = some item ∧ Storable ctx q t item) :
    events ctx q refIds = .ok (Writer.tree { ctx, query := q, refIds := q.walk.zip refIds }).events := by
  refine Writer.document_eq htables fun t _ j hj heq => ?_
  exact hq.grown.kept.rooted.acyclic j.right (.single ⟨j, Query.mem_joins.mpr ⟨t, hj⟩, heq, rfl⟩)

theorem toStoredQuery_of_events {ctx : Context} {q : Query} {refIds : List String} {tree : Element}
    (h : events ctx q refIds = .ok tree.events) : q.toStoredQuery ctx refIds = .ok tree.markup := by
  rw [Query.toStoredQuery, h]
  exact tree.write_events

theorem eq_of_events {ctx : Context} {q : Query} {refIds : List String} {tree read : Element}
    (h : events ctx q refIds = .ok tree.events) (hread : (events ctx q refIds >>= Element.ofEvents) = .ok read) :
    tree = read := by
  rw [h] at hread
  exact Except.ok.inj ((Element.ofEvents_eq tree).symm.trans hread)

theorem parse_of_parse {text : String} {tree : Element} (h : Element.parse text = .ok tree) :
    parse text = ofElement tree := by
  rw [parse, h]
  rfl

/-- A query without criteria is written, and is read from its document again. What is read of the text is assumed to be the
    tree that was written. -/
theorem Built.exists_parse_toStoredQuery {ctx : Context} {q : Query} (hq : Built q) (refIds : List String)
    (hids : refIds.Nodup) (hnonempty : "" ∉ refIds) (hcount : q.walk.length ≤ refIds.length)
    (htables : ∀ t ∈ q.walk, ∃ item, q.get? t = some item ∧ Storable ctx q t item)
    (hparameters : ∀ p ∈ q.parameters, p.name ≠ "" ∧ p.default ≠ some "") :
    ∃ text tree, q.toStoredQuery ctx refIds = .ok text ∧ (events ctx q refIds >>= Element.ofEvents) = .ok tree ∧
      (Element.parse text = .ok tree → ∃ q' f, parse text = .ok q' ∧ Restored ctx q q' f) := by
  have hfit := fit_of_built hq hids hnonempty hcount htables hparameters
  have hevents := events_eq_of_built refIds hq htables
  refine ⟨_, Writer.tree { ctx, query := q, refIds := q.walk.zip refIds }, toStoredQuery_of_events hevents, ?_,
    fun hread => ?_⟩
  · rw [hevents]
    exact Element.ofEvents_eq _
  · obtain ⟨q', f, hq', hrestored⟩ := hfit.exists_restored
    exact ⟨q', f, (parse_of_parse hread).trans hq', hrestored⟩

/-- A type with a sort key and a limit, and a relationship of it with an alias. -/
def partStructure : Query :=
  let below := (Query.ofType "Part").addRelationship (Query.ofType "Part").root "Part BOM"
  (below.2.modify below.1 fun item => { item with aliasName := some "lines" }).modify (Query.ofType "Part").root
    fun item => { item with
      orderBy := [{ expr := .prop (Query.ofType "Part").root "name", direction := .descending }], fetch := some 5 }

theorem built_partStructure : Built partStructure := by
  have hroot : (Query.ofType "Part").contains (Query.ofType "Part").root = true := by decide
  have hbelow := (Built.start "Part").addRelationship hroot "Part BOM"
  have hnamed := hbelow.modify (f := fun item => { item with aliasName := some "lines" }) (fun _ => rfl)
    ((Query.ofType "Part").addRelationship (Query.ofType "Part").root "Part BOM").1
  exact hnamed.modify (f := fun item => { item with
    orderBy := [{ expr := .prop (Query.ofType "Part").root "name", direction := .descending }], fetch := some 5 })
    (fun _ => rfl) _

theorem storable_partStructure :
    ∀ t ∈ partStructure.walk, ∃ item, partStructure.get? t = some item ∧ Storable {} partStructure t item := by
  have hwalk : partStructure.walk = [⟨0, 0⟩, ⟨1, 0⟩] := by decide +kernel
  rw [hwalk, List.forall_mem_cons, List.forall_mem_singleton]
  refine ⟨⟨_, rfl, ⟨"Part", rfl, by decide⟩, rfl, rfl, rfl, rfl, nofun, nofun, ?_, by decide⟩,
    ⟨_, rfl, ⟨"Part BOM", rfl, by decide⟩, rfl, rfl, rfl, rfl, by decide, nofun, nofun, by decide⟩⟩
  intro k hk
  cases List.mem_singleton.mp hk
  exact ⟨"name", rfl, by decide, by decide⟩

theorem exists_parse_partStructure :
    Built partStructure ∧ ∃ text q' f, partStructure.toStoredQuery {} ["A", "B"] = .ok text ∧ parse text = .ok q' ∧
      Restored {} partStructure q' f := by
  have hevents := events_eq_of_built ["A", "B"] built_partStructure storable_partStructure
  have hplain : (Writer.tree { ctx := {}, query := partStructure, refIds := partStructure.walk.zip ["A", "B"] }).Plain := by
    decide +kernel
  obtain ⟨text, tree, htext, htree, hread⟩ := built_partStructure.exists_parse_toStoredQuery ["A", "B"] (by decide)
    (by decide) (by decide +kernel) storable_partStructure (by decide +kernel)
  have hmarkup := Except.ok.inj ((toStoredQuery_of_events hevents).symm.trans htext)
  have hparse := Element.parse_markup hplain
  rw [hmarkup, eq_of_events hevents htree] at hparse
  obtain ⟨q', f, hq', hrestored⟩ := hread hparse
  exact ⟨built_partStructure, text, q', f, htext, hq', hrestored⟩

/-! ### A property that is named like all of them -/

/-- A sort key that is a property whose name is a star. -/
def starKey : SortKey :=
  { expr := .prop (Query.ofType "Part").root "*" }

/-- A table sorted by it. -/
def starSorted : Query :=
  (Query.ofType "Part").modify (Query.ofType "Part").root fun item => { item with orderBy := [starKey] }

theorem sortKeys_starKey (t : TableId) :
    sortKeys (itemElement "A" "Part" { QueryItem.ofType "Part" with orderBy := [starKey] }) t
      = .ok [{ expr := .allProperties t false }] := by
  have hnamed : (itemsOfType "qry_QueryItemSortProperty"
      (itemElement "A" "Part" { QueryItem.ofType "Part" with orderBy := [starKey] })).filterMap (fun p =>
        (p.value? "property_name").map fun name => (name, p)) = [("*", sortElement (starKey, 0))] := rfl
  have hentry : sortEntry t "*" (sortElement (starKey, 0)) = _ := sortEntry_sortElement (by decide) t "*"
  rw [sortKeys, hnamed]
  simp only [List.mapM_cons, List.mapM_nil, hentry, bind, Except.bind, pure, Except.pure, List.mergeSort_singleton]
  rfl

/-- The star is read as all properties, in the sort keys as in the select list. -/
theorem parse_starSorted :
    Built starSorted ∧
      ∃ text, starSorted.toStoredQuery {} ["A"] = .ok text ∧
        (parse text).map (fun q => (q.get? q.root).map (·.orderBy))
          = .ok (some [{ expr := .allProperties starSorted.root false }]) := by
  have hbuilt : Built starSorted :=
    (Built.start "Part").modify (f := fun item => { item with orderBy := [starKey] }) (fun _ => rfl) _
  let tree : Element := Writer.tree { ctx := {}, query := starSorted, refIds := starSorted.walk.zip ["A"] }
  have hdetails : addDetails (Query.ofType "Part")
      (itemElement "A" "Part" { QueryItem.ofType "Part" with orderBy := [starKey] }) (Query.ofType "Part").root
      = .ok ((Query.ofType "Part").modify (Query.ofType "Part").root fun item =>
        { item with select := [], orderBy := [{ expr := .allProperties (Query.ofType "Part").root false }] }) := by
    rw [addDetails_eq, sortKeys_starKey]
    rfl
  have hread : ofElement tree = addDetails (Query.ofType "Part")
      (itemElement "A" "Part" { QueryItem.ofType "Part" with orderBy := [starKey] }) (Query.ofType "Part").root >>= pure :=
    rfl
  refine ⟨hbuilt, tree.markup, toStoredQuery_of_events rfl, ?_⟩
  rw [parse_of_parse (Element.parse_markup (by decide +kernel)), hread, hdetails]
  rfl

end ItemQuery.StoredQuery
