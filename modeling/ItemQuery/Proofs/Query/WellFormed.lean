import ItemQuery.Proofs.Expr.Tables
import ItemQuery.Proofs.Query.Tree

/-! Well-formed queries, and queries on the way there. While a query is read, filters stand on the root and on
    relationships and keep to what foreign keys reach from there, and only tables that are still open may lack a
    type; once none is open, the query is well formed. -/

namespace ItemQuery.Query

open Relation

variable {q q' : Query} {id table : TableId} {opened : List TableId}

/-- Joins are a tree of all tables below the root, a table has one foreign key at most for each property, the root and
    all relationships have a type, and they alone have filters, about themselves and what foreign keys reach from
    them. -/
structure WellFormed (q : Query) : Prop where
  forest : q.Forest
  rootLive : q.contains q.root = true
  rootFree : ∀ a, ¬q.Joined a q.root
  reached : ∀ id, q.contains id = true → ReflTransGen q.Joined q.root id
  distinct : ∀ id item, q.get? id = some item → (item.foreignKeys.map (·.leftProperty)).Nodup
  typed : ∀ id, q.Heads id → ∃ item name, q.get? id = some item ∧ item.typeName = some name ∧ name ≠ ""
  filtered : ∀ id item c, q.get? id = some item → item.filter = some c → q.Heads id ∧ c.Among (q.Behind id)

/-- A query while these tables are open. -/
structure Tidy (q : Query) (opened : List TableId) : Prop where
  grown : q.Grown
  filtered : ∀ id c, q.filterOf id = some c → q.Heads id ∧ c.Among (q.Behind id)
  typed : ∀ id, q.Heads id → (∃ name, q.typeOf id = some name ∧ name ≠ "") ∨ id ∈ opened

theorem Tidy.of_widens (h : q.Tidy opened) (hgrown : q'.Grown) (hwidens : q.Widens q') : q'.Tidy opened where
  grown := hgrown
  filtered id c hc := by
    obtain ⟨hhead, hamong⟩ := h.filtered id c (hwidens.filterOf id ▸ hc)
    exact ⟨hwidens.heads hhead, hamong.mono fun _ => hwidens.behind⟩
  typed id hid := by
    rw [hwidens.typeOf]
    exact h.typed id ((hwidens.heads_iff id).mp hid)

/-- Only the table that is there counts. -/
theorem modify_congr {f g : QueryItem → QueryItem} (h : ∀ item, q.get? table = some item → f item = g item) :
    q.modify table f = q.modify table g := by
  cases hget : q.get? table with
  | none =>
    have hlive : ¬q.contains table = true := by simp [contains_iff, hget]
    rw [modify_of_not_contains f hlive, modify_of_not_contains g hlive]
  | some item => simp only [Query.modify, Arena.modify, show q.arena.get? table = some item from hget, h item hget]

/-- A change of an open table that leaves joins and filter. -/
theorem Tidy.modify (h : q.Tidy opened) (table : TableId) {f : QueryItem → QueryItem}
    (hf : ∀ item, q.get? table = some item → (f item).joins = item.joins ∧ (f item).filter = item.filter)
    (htable : table ∈ opened) : (q.modify table f).Tidy opened ∧ q.Extends (q.modify table f) := by
  -- The change may as well leave joins and filter of all tables.
  let g (item : QueryItem) : QueryItem := { f item with joins := item.joins, filter := item.filter }
  have hfg : q.modify table f = q.modify table g := by
    refine modify_congr fun item hitem => ?_
    obtain ⟨hjoins, hfilter⟩ := hf item hitem
    simp only [g, ← hjoins, ← hfilter]
  obtain ⟨hgrown, hext⟩ := h.grown.modify (f := g) (fun _ => rfl) table
  rw [hfg]
  refine ⟨⟨hgrown, fun id c hc => ?_, fun id hid => ?_⟩, hext⟩
  · have hold : q.filterOf id = some c := (bind_get?_modify (f := g) (fun _ => rfl) table id).symm.trans hc
    obtain ⟨hhead, hamong⟩ := h.filtered id c hold
    exact ⟨hext.heads hhead, hamong.mono fun _ => hext.behind⟩
  · by_cases heq : id = table
    · exact .inr (heq ▸ htable)
    · have htype : (q.modify table g).typeOf id = q.typeOf id := by
        rw [typeOf, typeOf, get?_modify, if_neg heq]
      rw [htype]
      exact h.typed id ((heads_modify (f := g) (fun _ => rfl) table).mp hid)

theorem Tidy.close (h : q.Tidy (table :: opened))
    (htyped : q.Heads table → ∃ name, q.typeOf table = some name ∧ name ≠ "") : q.Tidy opened where
  grown := h.grown
  filtered := h.filtered
  typed id hid := by
    rcases h.typed id hid with htype | hopen
    · exact .inl htype
    · rcases List.mem_cons.mp hopen with rfl | hopen
      · exact .inl (htyped hid)
      · exact .inr hopen

theorem Tidy.opening (h : q.Tidy opened) (table : TableId) : q.Tidy (table :: opened) where
  grown := h.grown
  filtered := h.filtered
  typed id hid := (h.typed id hid).imp_right (List.mem_cons_of_mem table)

/-- A relationship is open from the start. -/
theorem Tidy.addRelationship (h : q.Tidy opened) (htable : q.contains table = true) (typeName : String) :
    (q.addRelationship table typeName).2.contains (q.addRelationship table typeName).1 = true ∧
      (q.addRelationship table typeName).2.Heads (q.addRelationship table typeName).1 ∧
      (q.addRelationship table typeName).2.Tidy ((q.addRelationship table typeName).1 :: opened) ∧
      q.Extends (q.addRelationship table typeName).2 := by
  obtain ⟨hgrown, hext, hlive, hheads, hfilter, htype⟩ := h.grown.addRelationship htable typeName
  refine ⟨hlive, (hheads _).mpr (.inr rfl), ⟨hgrown, fun id c hc => ?_, fun id hid => ?_⟩, hext⟩
  · obtain ⟨hhead, hamong⟩ := h.filtered id c (hfilter id ▸ hc)
    exact ⟨hext.heads hhead, hamong.mono fun _ => hext.behind⟩
  · by_cases hnew : id = (q.addRelationship table typeName).1
    · exact .inr (hnew ▸ List.mem_cons_self)
    · rw [htype id hnew]
      exact (h.typed id (((hheads id).mp hid).resolve_right hnew)).imp_right (List.mem_cons_of_mem _)

theorem Tidy.addFilter (h : q.Tidy opened) (hhead : q.Heads table) {c : Expr} (hc : c.Among (q.Behind table)) :
    (q.modify table (·.addFilter c)).Tidy opened ∧ q.Extends (q.modify table (·.addFilter c)) := by
  obtain ⟨hgrown, hext⟩ := h.grown.modify (f := (·.addFilter c)) (fun _ => rfl) table
  refine ⟨⟨hgrown, fun id d hd => ?_, fun id hid => ?_⟩, hext⟩
  · rw [filterOf, get?_modify] at hd
    split at hd
    next heq =>
      subst heq
      refine ⟨hext.heads hhead, Expr.Among.mono ?_ fun _ => hext.behind⟩
      obtain ⟨item', hitem', hfilter⟩ := Option.bind_eq_some_iff.mp hd
      obtain ⟨item, hitem, rfl⟩ := Option.map_eq_some_iff.mp hitem'
      cases hold : item.filter with
      | none =>
        rw [QueryItem.addFilter, hold] at hfilter
        cases hfilter
        exact hc
      | some e =>
        rw [QueryItem.addFilter, hold] at hfilter
        cases hfilter
        have he : q.filterOf id = some e := Option.bind_eq_some_iff.mpr ⟨item, hitem, hold⟩
        exact Expr.among_logical.mpr ⟨(h.filtered id e he).2, hc⟩
    next =>
      obtain ⟨hhead, hamong⟩ := h.filtered id d hd
      exact ⟨hext.heads hhead, hamong.mono fun _ => hext.behind⟩
  · have htype : (q.modify table (·.addFilter c)).typeOf id = q.typeOf id :=
      bind_get?_modify (f := (·.addFilter c)) (fun _ => rfl) table id
    rw [htype]
    exact h.typed id ((heads_modify (f := (·.addFilter c)) (fun _ => rfl) table).mp hid)

theorem tidy_ofItem (item : QueryItem) (hjoins : item.joins = []) (hfilter : item.filter = none) :
    (ofItem item).Tidy [(ofItem item).root] where
  grown := grown_ofItem hjoins
  filtered id c hc := by
    rw [filterOf, get?_ofItem] at hc
    split at hc
    next => exact absurd (hfilter.symm.trans hc) nofun
    next => cases hc
  typed id hid := by
    rcases heads_iff_exists_link.mp hid with rfl | ⟨a, j, hj, -⟩
    · exact .inr List.mem_cons_self
    · rw [links_ofItem hjoins] at hj
      cases hj

theorem Tidy.wellFormed (h : q.Tidy []) : q.WellFormed where
  forest := h.grown.kept.rooted.forest
  rootLive := h.grown.rootLive
  rootFree a ha := by
    have hback := h.grown.reached a (h.grown.kept.rooted.forest.contains_of_joined ha).1
    exact h.grown.kept.rooted.acyclic _ (.tail' hback ha)
  reached := h.grown.reached
  distinct id item hitem := by
    have hkeys := h.grown.distinct id
    rw [links, joinsOf, hitem, List.filter_map, List.map_map] at hkeys
    exact hkeys
  typed id hid := by
    obtain ⟨name, hname, hne⟩ := (h.typed id hid).resolve_right List.not_mem_nil
    obtain ⟨item, hitem, htype⟩ := Option.bind_eq_some_iff.mp hname
    exact ⟨item, name, hitem, htype, hne⟩
  filtered id item c hitem hc := h.filtered id c (Option.bind_eq_some_iff.mpr ⟨item, hitem, hc⟩)

end ItemQuery.Query
