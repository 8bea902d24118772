import ItemQuery.Proofs.Query.Copies

/-! Subtrees that are copied into a query with tables of its own. Nothing is asked of the joins of either query: a
    copy that succeeds has added all joins below the table again, so that no two of them lead to the same table, and
    then the search below the table ended before its bound and made room for every table once. -/

namespace ItemQuery

open Relation

namespace Query

variable {q q' : Query} {s t : TableId} {j : Join} {js : List Join}

/-- A way along stored joins leads from `s` to `t`. -/
def Descends (q : Query) (s t : TableId) : Prop :=
  ReflTransGen (fun a b => b ∈ q.children a) s t

theorem Descends.eq_of_children_eq_nil (h : q.Descends s t) (hleaf : q.children s = []) : t = s := by
  rcases h.cases_head with heq | ⟨a, ha, -⟩
  · exact heq.symm
  · rw [hleaf] at ha
    cases ha

/-! ### Joins one after the other -/

theorem mem_joins_of_addJoin (h : q.addJoin j = .ok q') {k : Join} (hk : k ∈ q.joins ∨ k = j) : k ∈ q'.joins := by
  obtain ⟨hleft, -, -, -, rfl⟩ := addJoin_eq_ok h
  obtain ⟨left, hitem⟩ := contains_iff.mp hleft
  rcases hk with hk | rfl
  · obtain ⟨id, hid⟩ := mem_joins.mp hk
    obtain ⟨item, hget, hmem⟩ := mem_joinsOf.mp hid
    refine mem_joins.mpr ⟨id, mem_joinsOf.mpr ?_⟩
    rw [get?_modify]
    split
    next heq =>
      subst heq
      cases hget.symm.trans hitem
      exact ⟨_, by rw [hitem]; rfl, List.mem_append_left _ hmem⟩
    next => exact ⟨item, hget, hmem⟩
  · have hget := get?_modify (q := q) (fun item => { item with joins := item.joins ++ [k] }) k.left k.left
    rw [if_pos rfl, hitem] at hget
    exact mem_joins.mpr ⟨k.left, mem_joinsOf.mpr ⟨_, hget, List.mem_append_right _ List.mem_cons_self⟩⟩

/-- Joins that are added lead to different tables, which no join led to before. -/
theorem nodup_of_foldlM_addJoin (h : js.foldlM (fun q j => q.addJoin j) q = .ok q') :
    (js.map (·.right)).Nodup ∧ ∀ j ∈ js, ∀ k ∈ q.joins, k.right ≠ j.right := by
  induction js generalizing q with
  | nil => exact ⟨.nil, nofun⟩
  | cons j js ih =>
    rw [List.foldlM_cons] at h
    obtain ⟨q₁, hadd, hrest⟩ := Result.bind_eq_ok.mp h
    obtain ⟨hnodup, hapart⟩ := ih hrest
    obtain ⟨-, -, -, hfirst, -⟩ := addJoin_eq_ok hadd
    refine ⟨List.nodup_cons.mpr ⟨fun hmem => ?_, hnodup⟩, List.forall_mem_cons.mpr ⟨fun k hk => ?_, fun i hi k hk => ?_⟩⟩
    · obtain ⟨k, hk, heq⟩ := List.mem_map.mp hmem
      exact hapart k hk j (mem_joins_of_addJoin hadd (.inr rfl)) heq.symm
    · simpa using List.find?_eq_none.mp hfirst k hk
    · exact hapart i hi k (mem_joins_of_addJoin hadd (.inl hk))

theorem get?_foldlM_addJoin (h : js.foldlM (fun q j => q.addJoin j) q = .ok q') (id : TableId) :
    q'.get? id = (q.get? id).map fun item => { item with joins := item.joins ++ js.filter (·.left == id) } := by
  induction js generalizing q with
  | nil =>
    obtain rfl := Result.pure_eq_ok.mp h
    cases q.get? id <;> simp
  | cons j js ih =>
    rw [List.foldlM_cons] at h
    obtain ⟨q₁, hadd, hrest⟩ := Result.bind_eq_ok.mp h
    obtain ⟨-, -, -, -, rfl⟩ := addJoin_eq_ok hadd
    rw [ih hrest, get?_modify]
    split
    next heq =>
      subst heq
      rw [Option.map_map]
      cases q.get? j.left <;> simp
    next hne =>
      have hothers : (j :: js).filter (·.left == id) = js.filter (·.left == id) :=
        List.filter_cons_of_neg fun heq => hne (beq_iff_eq.mp heq).symm
      rw [hothers]

end Query

namespace Cloner

variable {source target target' : Query} {s t copy : TableId} {c : Cloner} {state state' : Cloner × Query}
  {queue order : List TableId}

/-! ### The search below a table -/

/-- The search lists its queue and, in order, what lies directly below the tables it lists, as far as its bound goes,
    and makes room for all of the latter. -/
theorem allocateBelow_eq_ok {fuel : Nat} (h : allocateBelow source fuel state queue = .ok (order, state')) :
    ∃ rest, queue ++ order.flatMap source.children = order ++ rest ∧ (rest = [] ∨ order.length = fuel) ∧
      state' = (order.flatMap source.children).foldl allocate state ∧ ∀ t ∈ order, ∃ a ∈ queue, source.Descends a t := by
  induction fuel generalizing state queue order with
  | zero =>
    cases h
    exact ⟨queue, by simp, .inr rfl, rfl, nofun⟩
  | succ fuel ih =>
    cases queue with
    | nil =>
      cases h
      exact ⟨[], rfl, .inl rfl, rfl, nofun⟩
    | cons id queue =>
      rw [allocateBelow] at h
      obtain ⟨item, hitem, h⟩ := Result.bind_eq_ok.mp h
      obtain ⟨⟨order, last⟩, hrec, h⟩ := Result.bind_eq_ok.mp h
      cases h
      have hchildren : item.joins.map (·.right) = source.children id := by
        rw [Query.children, Query.joinsOf, Query.item_eq_ok.mp hitem, Option.elim_some]
      rw [hchildren] at hrec
      obtain ⟨rest, hlist, hend, rfl, hbelow⟩ := ih hrec
      refine ⟨rest, ?_, hend.imp_right fun hlength => by rw [List.length_cons, hlength], ?_,
        List.forall_mem_cons.mpr ⟨⟨id, List.mem_cons_self, .refl⟩, fun t ht => ?_⟩⟩
      · rw [List.flatMap_cons, List.cons_append, ← List.append_assoc, hlist, List.cons_append]
      · rw [List.flatMap_cons, List.foldl_append]
      · obtain ⟨a, ha, hat⟩ := hbelow t ht
        rcases List.mem_append.mp ha with ha | ha
        · exact ⟨a, List.mem_cons_of_mem _ ha, hat⟩
        · exact ⟨id, List.mem_cons_self, .head ha hat⟩

/-- If no two joins lead to the same table, the search below a table lists no table twice, not even the first. Hence
    its bound is not met, and all tables below are listed. -/
theorem allocateBelow_singleton (h : allocateBelow source (source.tableCount + 1) state [s] = .ok (order, state'))
    (hlive : ∀ t ∈ order, source.contains t = true) (hnodup : (order.flatMap source.children).Nodup) :
    order = s :: order.flatMap source.children ∧ order.Nodup ∧ (∀ t, t ∈ order ↔ source.Descends s t) ∧
      state' = (order.flatMap source.children).foldl allocate state := by
  obtain ⟨rest, hlist, hend, hstate, hway⟩ := allocateBelow_eq_ok h
  have hbelow : ∀ t ∈ order, source.Descends s t := fun t ht => by simpa using hway t ht
  cases order with
  | nil =>
    rcases hend with rfl | hlength
    · cases hlist
    · cases hlength
  | cons first order =>
    obtain ⟨rfl, hlist⟩ : s = first ∧ (first :: order).flatMap source.children = order ++ rest :=
      List.cons_eq_cons.mp hlist
    have hlater : order.Nodup := (List.nodup_append.mp (hlist ▸ hnodup)).1
    have hfirst : s ∉ order := by
      intro hs
      -- Below a first table that is listed again lies nothing, since it would be listed again as well.
      have hleaf : source.children s = [] := by
        refine List.eq_nil_iff_forall_not_mem.mpr fun a ha => ?_
        rw [List.flatMap_cons] at hnodup
        exact (List.nodup_append.mp hnodup).2.2 a ha a (List.mem_flatMap.mpr ⟨s, hs, ha⟩) rfl
      have hnone : (s :: order).flatMap source.children = [] :=
        List.flatMap_eq_nil_iff.mpr fun t ht => (hbelow t ht).eq_of_children_eq_nil hleaf ▸ hleaf
      rw [hnone] at hlist
      rw [(List.append_eq_nil_iff.mp hlist.symm).1] at hs
      cases hs
    have hall : (s :: order).Nodup := List.nodup_cons.mpr ⟨hfirst, hlater⟩
    have hlength : (s :: order).length ≤ source.tableCount := Arena.length_le_toList hall hlive
    obtain rfl : rest = [] := hend.resolve_right (by omega)
    rw [List.append_nil] at hlist
    refine ⟨by rw [hlist], hall, fun t => ⟨hbelow t, fun ht => ?_⟩, hstate⟩
    induction ht with
    | refl => exact List.mem_cons_self
    | tail _ hstep ih => exact List.mem_cons_of_mem _ (hlist ▸ List.mem_flatMap.mpr ⟨_, ih, hstep⟩)

/-! ### Copies below a table -/

/-- What lies below `s`, and nothing else, was copied: each table under a handle that was none of the target before,
    with its contents under the new handles. The tables that were there before may have got joins, but nothing else. -/
structure Copied (source : Query) (s : TableId) (target : Query) (c : Cloner) (target' : Query) : Prop where
  mapped : ∀ t, source.Descends s t ↔ ∃ t', c.mapped? t = some t'
  fresh : ∀ {t t'}, c.mapped? t = some t' → target.get? t' = none
  get? : ∀ {t t'}, c.mapped? t = some t' →
    ∃ item joins, source.get? t = some item ∧ target'.get? t' = some { c.remapItem item with joins := joins }
  kept : ∀ {t item}, target.get? t = some item → ∃ joins, target'.get? t = some { item with joins := joins }

theorem Opened.mapped? (h : Opened target order (c, target')) (hnodup : order.Nodup) :
    (∀ t, t ∈ order ↔ ∃ t', c.mapped? t = some t') ∧
      ∀ t t', c.mapped? t = some t' → t' ∈ c.copies.map (·.2) ∧ c.renamed t = t' := by
  constructor
  · intro t
    simp only [h.mapped?_eq_some hnodup]
    rw [← List.mem_reverse, ← h.keys]
    simp
  · intro t t' ht
    have hmem := (h.mapped?_eq_some hnodup).mp ht
    exact ⟨List.mem_map_of_mem (f := (·.2)) hmem, h.renamed_eq hnodup hmem⟩

theorem mem_copies_foldl_allocate {entry : TableId × TableId} (h : entry ∈ state.1.copies) (ids : List TableId) :
    entry ∈ (ids.foldl allocate state).1.copies := by
  induction ids generalizing state with
  | nil => exact h
  | cons id ids ih => exact ih (List.mem_cons_of_mem _ h)

/-- A copy that succeeds lists the tables below `s`, fills their places and adds the joins between them. -/
theorem exists_order_of_copySubtree (state : Cloner × Query) (h : state.1.copySubtree source s state.2 = .ok (c, target')) :
    ∃ order opened, order = s :: order.flatMap source.children ∧ order.Nodup ∧ (∀ t, t ∈ order ↔ source.Descends s t) ∧
      (∀ t ∈ order, source.contains t = true) ∧ (order.flatMap source.children).foldl allocate state = (c, opened) ∧
      ((order.flatMap source.joinsOf).map c.remapJoin).foldlM (fun t j => t.addJoin j)
        ((order.map fun t => (t, (source.get? t).getD {})).foldl
          (fun t entry => t.modify (c.renamed entry.1) fun _ => c.remapItem entry.2) opened) = .ok target' := by
  obtain ⟨⟨order, c, opened⟩, hallocate, h⟩ := Result.bind_eq_ok.mp h
  obtain ⟨items, hitems, h⟩ := Result.bind_eq_ok.mp h
  obtain ⟨result, hjoins, h⟩ := Result.bind_eq_ok.mp h
  cases h
  have hlive : ∀ t ∈ order, source.contains t = true := by
    intro t ht
    obtain ⟨entry, -, hentry⟩ := Result.exists_mem_of_mapM hitems ht
    obtain ⟨item, hitem, -⟩ := Result.bind_eq_ok.mp hentry
    exact Query.contains_iff.mpr ⟨item, Query.item_eq_ok.mp hitem⟩
  cases (mapM_items hlive).symm.trans hitems
  rw [flatMap_remapJoin hlive] at hjoins
  have hrights : ((order.flatMap source.joinsOf).map c.remapJoin).map (·.right)
      = (order.flatMap source.children).map c.renamed := by
    rw [List.map_map, List.map_flatMap, List.map_flatMap]
    refine List.flatMap_congr fun t _ => ?_
    rw [Query.children, List.map_map]
    rfl
  have hnodup := (Query.nodup_of_foldlM_addJoin hjoins).1
  rw [hrights] at hnodup
  obtain ⟨hlist, hdistinct, hbelow, hstate⟩ := allocateBelow_singleton hallocate hlive hnodup.of_map
  exact ⟨order, opened, hlist, hdistinct, hbelow, hlive, hstate.symm, hjoins⟩

/-- The copies are filled and joined. -/
theorem Opened.copied {opened : Query} (h : Opened target order (c, opened)) (hnodup : order.Nodup)
    (hbelow : ∀ t, t ∈ order ↔ source.Descends s t) (hlive : ∀ t ∈ order, source.contains t = true) {joins : List Join}
    (hjoins : joins.foldlM (fun t j => t.addJoin j) ((order.map fun t => (t, (source.get? t).getD {})).foldl
      (fun t entry => t.modify (c.renamed entry.1) fun _ => c.remapItem entry.2) opened) = .ok target') :
    Copied source s target c target' := by
  obtain ⟨hmapped, hplace⟩ := h.mapped? hnodup
  have hplaces : ((order.map fun t => (t, (source.get? t).getD {})).map fun entry => c.renamed entry.1)
      = order.map c.renamed := by
    rw [List.map_map]
    rfl
  have hdistinct : (order.map c.renamed).Nodup := hnodup.map_on (h.injective hnodup)
  obtain ⟨-, -, hfilled, hothers⟩ := foldl_fill c.remapItem (hplaces ▸ hdistinct) opened
  have hjoined := Query.get?_foldlM_addJoin hjoins
  refine ⟨fun t => (hbelow t).symm.trans (hmapped t), fun ht => h.fresh _ (hplace _ _ ht).1, fun {t t'} ht => ?_,
    fun {t item} ht => ?_⟩
  · obtain ⟨hmem, rfl⟩ := hplace t t' ht
    have horder := (hmapped t).mpr ⟨_, ht⟩
    obtain ⟨item, hitem⟩ := Query.contains_iff.mp (hlive t horder)
    have hget := hjoined (c.renamed t)
    rw [hfilled (t, (source.get? t).getD {}) (List.mem_map_of_mem horder), h.get?, if_pos hmem, hitem] at hget
    exact ⟨item, _, hitem, hget⟩
  · have hmem : t ∉ c.copies.map (·.2) := by
      intro hmem
      cases (h.fresh t hmem).symm.trans ht
    have hother : t ∉ order.map c.renamed := fun hin => hmem ((h.mem_places hnodup).mpr (List.mem_map.mp hin))
    have hget := hjoined t
    rw [hothers t (hplaces ▸ hother), h.get?, if_neg hmem, ht] at hget
    exact ⟨_, hget⟩

/-- A table and everything below it are copied by a cloner that copied nothing before. -/
theorem copied_of_cloneTable (hsound : target.arena.Sound)
    (h : ({} : Cloner).cloneTable source s target = .ok (copy, c, target')) :
    Copied source s target c target' ∧ c.mapped? s = some copy := by
  rw [cloneTable] at h
  split at h
  next =>
    obtain ⟨result, hcopy, h⟩ := Result.bind_eq_ok.mp h
    cases h
    obtain ⟨order, opened, hlist, hnodup, hbelow, hlive, hstate, hjoins⟩ :=
      exists_order_of_copySubtree (allocate ({}, target) s) hcopy
    have hstart : Opened target [s] (allocate ({}, target) s) := (opened_nil hsound).allocate s
    have hopened : Opened target (s :: order.flatMap source.children) (c, opened) :=
      hstate ▸ hstart.foldl_allocate (order.flatMap source.children)
    rw [← hlist] at hopened
    refine ⟨hopened.copied hnodup hbelow hlive hjoins, (hopened.mapped?_eq_some hnodup).mpr ?_⟩
    have hmem := hstart.mem_copies (List.nodup_singleton s) List.mem_cons_self
    exact hstate ▸ mem_copies_foldl_allocate hmem (order.flatMap source.children)
  next => cases h

end Cloner
end ItemQuery
