import ItemQuery.Proofs.Query.Near
import ItemQuery.Proofs.StoredQuery.Tree

/-! Select entries and sort keys of an item are about its own table, and its filter about that table and its parent, so
    that all that stands with a table of a stored query names near tables. -/

namespace ItemQuery.StoredQuery

open Xml (Element)

variable {q q' : Query} {t : TableId} {e : Element}

/-! ### Tables and references -/

theorem listed_tableItem {base : QueryItem} (h : tableItem e = .ok base) : base.select = [] ∧ base.orderBy = [] := by
  unfold tableItem at h
  dsimp only at h
  split at h <;> split at h <;> cases h <;> exact ⟨rfl, rfl⟩

theorem listed_addReference (h : q.Listed) {parent child : TableId} {filter : Option String}
    (hq : addReference q parent child filter = .ok q') : q'.Listed := by
  obtain ⟨key, rest, hkey⟩ := exists_keyed hq
  rw [addReference_of_keyed hkey] at hq
  obtain ⟨joined, hjoined, hq⟩ := Result.bind_eq_ok.mp hq
  obtain ⟨extra, -, hq⟩ := Result.bind_eq_ok.mp hq
  cases hq
  have hjoined : joined.Listed := by
    refine Query.Listed.addJoin ?_ hjoined
    split
    · exact h.modify_of_eq child fun _ => ⟨rfl, rfl⟩
    · exact h
  cases extra with
  | none => exact hjoined
  | some c => exact hjoined.addFilter child c

theorem listed_addChildren {d : Definition} {parent : TableId} {g g' : Growth} {rs : List Reference} (h : g.query.Listed)
    (hg : addChildren d parent g rs = .ok g') : g'.query.Listed := by
  induction rs generalizing g with
  | nil =>
    cases hg
    exact h
  | cons r rs ih =>
    rw [addChildren] at hg
    split at hg
    · cases hg
    split at hg
    · cases hg
    obtain ⟨base, hbase, hg⟩ := Result.bind_eq_ok.mp hg
    obtain ⟨q, hq, hg⟩ := Result.bind_eq_ok.mp hg
    obtain ⟨hselect, horder⟩ := listed_tableItem hbase
    exact ih (listed_addReference (h.addTable hselect horder) hq) hg

theorem listed_grow {d : Definition} {fuel : Nat} {g g' : Growth} {queue : List String} (h : g.query.Listed)
    (hg : grow d fuel g queue = .ok g') : g'.query.Listed := by
  induction fuel generalizing g queue with
  | zero =>
    cases hg
    exact h
  | succ fuel ih =>
    cases queue with
    | nil =>
      cases hg
      exact h
    | cons id queue =>
      rw [grow] at hg
      split at hg
      · exact ih h hg
      · obtain ⟨next, hnext, hg⟩ := Result.bind_eq_ok.mp hg
        exact ih (listed_addChildren h hnext) hg

/-! ### Details -/

theorem names_propertyExpr (t : TableId) (name : String) : (propertyExpr t name).Names (· = t) := by
  unfold propertyExpr
  split <;> simp [Expr.Names, Expr.tableRefs, Expr.prop]

theorem names_selections {s : Selection} (h : s ∈ selections e t) : s.expr.Names (· = t) := by
  obtain ⟨name, -, rfl⟩ := List.mem_map.mp h
  exact names_propertyExpr t name

theorem expr_of_sortEntry {name : String} {entry : Int × SortKey} (h : sortEntry t name e = .ok entry) :
    entry.2.expr = propertyExpr t name := by
  unfold sortEntry at h
  split at h
  · cases h
    rfl
  · split at h <;> cases h
    rfl

theorem names_sortKeys {keys : List SortKey} (h : sortKeys e t = .ok keys) {key : SortKey} (hkey : key ∈ keys) :
    key.expr.Names (· = t) := by
  obtain ⟨entries, hentries, h⟩ := Result.bind_eq_ok.mp h
  cases h
  obtain ⟨entry, hentry, rfl⟩ := List.mem_map.mp hkey
  obtain ⟨named, -, hnamed⟩ := Result.exists_of_mem hentries (List.mem_mergeSort.mp hentry)
  rw [expr_of_sortEntry hnamed]
  exact names_propertyExpr t named.1

theorem listed_withFilter (h : q.Listed) (hq : withFilter q e t = .ok q') : q'.Listed := by
  obtain rfl | ⟨n, -, rfl⟩ := exists_of_withFilter hq
  · exact h
  · exact h.addFilter t n

theorem listed_withPaging (h : q.Listed) (hq : withPaging q e t = .ok q') : q'.Listed := by
  obtain rfl | ⟨item, offset, fetch, hitem, rfl⟩ := exists_of_withPaging hq
  · exact h
  refine h.modify t fun other hother hlists => ?_
  obtain rfl : item = other := Option.some.inj (hitem.symm.trans hother)
  exact hlists.of_eq rfl rfl

theorem listed_addDetails (h : q.Listed) (hq : addDetails q e t = .ok q') : q'.Listed := by
  rw [addDetails_eq] at hq
  obtain ⟨filtered, hfiltered, hq⟩ := Result.bind_eq_ok.mp hq
  obtain ⟨paged, hpaged, hq⟩ := Result.bind_eq_ok.mp hq
  obtain ⟨keys, hkeys, hq⟩ := Result.bind_eq_ok.mp hq
  cases hq
  refine (listed_withPaging (listed_withFilter h hfiltered) hpaged).modify t fun _ _ _ => ?_
  exact ⟨fun s hs => names_selections hs, fun key hkey => names_sortKeys hkeys hkey⟩

theorem listed_foldlM {d : Definition} {entries : List (String × TableId)} (h : q.Listed)
    (hq : entries.foldlM (fun q entry => match d.items.get? entry.1 with
      | some e => addDetails q e entry.2
      | none => pure q) q = .ok q') : q'.Listed := by
  induction entries generalizing q with
  | nil =>
    cases hq
    exact h
  | cons entry entries ih =>
    rw [List.foldlM_cons] at hq
    obtain ⟨next, hnext, hq⟩ := Result.bind_eq_ok.mp hq
    refine ih ?_ hq
    split at hnext
    · exact listed_addDetails h hnext
    · cases hnext
      exact h

/-! ### Documents -/

theorem Mirrors.rootFree {ids : List String} {references : List Reference} {rootId : String} {table : String → TableId}
    (h : Mirrors ids references rootId table q) (a : TableId) : ¬q.Joined a q.root := fun ha =>
  h.forest.acyclic q.root (.tail' (h.tree a (h.forest.contains_of_joined ha).1) ha)

theorem local_of_ofElement {document : Element} (h : ofElement document = .ok q) : q.Local := by
  obtain ⟨⟨rootId, e⟩, hroot, hq⟩ := Result.bind_eq_ok.mp h
  obtain ⟨base, hbase, hq⟩ := Result.bind_eq_ok.mp hq
  obtain ⟨g, hg, hq⟩ := Result.bind_eq_ok.mp hq
  split at hq
  · cases hq
  next hsize =>
  obtain ⟨taken, hvisiting, -⟩ := (visiting_start hroot hbase).exists_of_grows (grows_start hroot hbase) hg
  have hgrowing := hvisiting.growing
  have hstart : Completed g.query g.query := ⟨hgrowing.kept, rfl, fun _ => rfl, fun _ => rfl, hgrowing.filtered⟩
  have hmirrors := hvisiting.mirrors (not_not.mp hsize) (root_eq_ok hroot).2 (fun _ => mem_itemIds) (hstart.foldlM hq)
  obtain ⟨hselect, horder⟩ := listed_tableItem hbase
  have hfirst := Query.listed_ofItem hselect horder
  have hlisted : q.Listed := listed_foldlM (listed_grow ⟨hfirst.sound, hfirst.lists⟩ hg) hq
  refine hlisted.isLocal hmirrors.forest.rooted hmirrors.rootFree fun id item c hitem hc => ?_
  refine (hmirrors.filtered id item c hitem hc).names.mono fun t ht => ?_
  rcases ht with rfl | ht
  · exact .inl .refl
  · exact .inr ht

theorem exists_ofElement_of_parse {source : String} (h : parse source = .ok q) :
    ∃ document, ofElement document = .ok q := by
  obtain ⟨document, -, hq⟩ := Result.bind_eq_ok.mp h
  exact ⟨document, hq⟩

end ItemQuery.StoredQuery
