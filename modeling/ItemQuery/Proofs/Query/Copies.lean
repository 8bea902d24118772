import ItemQuery.Query.Clone
import ItemQuery.Proofs.Query.Tree
import ItemQuery.Proofs.Expr.Handles
import ItemQuery.Proofs.Result

/-! Copies of queries. A table is given its place before any content is copied, level by level; then the tables are
    filled, and then they are joined again, which fails for no join of a forest. -/

namespace ItemQuery

open Relation

/-- The table with every handle inside of it replaced. -/
def QueryItem.mapTables (f : TableId → TableId) (item : QueryItem) : QueryItem :=
  { item with
    filter := item.filter.map (·.mapTables f)
    select := item.select.map fun s => { s with expr := s.expr.mapTables f }
    orderBy := item.orderBy.map fun k => { k with expr := k.expr.mapTables f }
    joins := item.joins.map fun j => { j with left := f j.left, right := f j.right }
    provider := item.provider.map fun p => { p with table := f p.table } }

/-- `q'` holds what is reached from the root of `q`, under other handles, and nothing else. -/
structure Query.Renames (q q' : Query) (f : TableId → TableId) : Prop where
  root : q'.root = f q.root
  injective : ∀ a ∈ q.walk, ∀ b ∈ q.walk, f a = f b → a = b
  live : ∀ t, q'.contains t = true ↔ ∃ a ∈ q.walk, f a = t
  get? : ∀ t ∈ q.walk, q'.get? (f t) = (q.get? t).map (·.mapTables f)
  parameters : q'.parameters = q.parameters

namespace Cloner

/-! ### Places -/

/-- Each of these tables has a place, which was none of the tables before and is still empty. -/
structure Opened (before : Query) (ids : List TableId) (state : Cloner × Query) : Prop where
  keys : state.1.copies.map (·.1) = ids.reverse
  distinct : (state.1.copies.map (·.2)).Nodup
  sound : state.2.arena.Sound
  fresh : ∀ t ∈ state.1.copies.map (·.2), before.get? t = none
  get? : ∀ t, state.2.get? t = if t ∈ state.1.copies.map (·.2) then some {} else before.get? t

/-- Each of these tables, and no other, has a place, which is still empty; that of `start` is the root. -/
structure Places (start : TableId) (ids : List TableId) (state : Cloner × Query) : Prop where
  keys : state.1.copies.map (·.1) = ids.reverse
  distinct : (state.1.copies.map (·.2)).Nodup
  kept : state.2.Kept
  get? : ∀ t, state.2.get? t = if t ∈ state.1.copies.map (·.2) then some {} else none
  root : (start, state.2.root) ∈ state.1.copies

variable {q before : Query} {start id : TableId} {ids : List TableId} {state : Cloner × Query}

theorem opened_nil (h : before.arena.Sound) : Opened before [] ({}, before) where
  keys := rfl
  distinct := .nil
  sound := h
  fresh := nofun
  get? _ := rfl

theorem Opened.not_mem_places (h : Opened before ids state) {t : TableId} (ht : ¬state.2.contains t = true) :
    t ∉ state.1.copies.map (·.2) ∧ before.get? t = none := by
  have hnone : state.2.get? t = none := by
    simpa [Query.contains_iff, ← Option.ne_none_iff_exists'] using ht
  rw [h.get?] at hnone
  split at hnone
  next => cases hnone
  next hmem => exact ⟨hmem, hnone⟩

theorem Opened.allocate (h : Opened before ids state) (id : TableId) :
    Opened before (ids ++ [id]) (allocate state id) := by
  have hnew : ¬state.2.contains (state.2.addTable {}).1 = true :=
    fun hlive => h.sound.ne_insert_of_known (.inl hlive) {} rfl
  obtain ⟨hplace, hfresh⟩ := h.not_mem_places hnew
  refine ⟨?_, List.nodup_cons.mpr ⟨hplace, h.distinct⟩, h.sound.insert {}, List.forall_mem_cons.mpr ⟨hfresh, h.fresh⟩,
    fun t => ?_⟩
  · rw [Cloner.allocate, List.map_cons, h.keys, List.reverse_append]
    rfl
  · rw [Cloner.allocate, Query.get?_addTable h.sound, h.get?, List.map_cons]
    simp only [List.mem_cons]
    split
    next heq => exact (if_pos (.inl heq)).symm
    next hne => exact if_congr (or_iff_right hne).symm rfl rfl

theorem Opened.foldl_allocate (h : Opened before ids state) (below : List TableId) :
    Opened before (ids ++ below) (below.foldl Cloner.allocate state) := by
  induction below generalizing ids state with
  | nil => simpa using h
  | cons id below ih => simpa using ih (h.allocate id)

theorem Opened.mapped?_eq_some (h : Opened before ids state) (hids : ids.Nodup) {t : TableId} :
    state.1.mapped? id = some t ↔ (id, t) ∈ state.1.copies := by
  have hkeys : (state.1.copies.map (·.1)).Nodup := h.keys ▸ List.nodup_reverse.mpr hids
  rw [mapped?, Option.map_eq_some_iff]
  constructor
  · rintro ⟨entry, hentry, rfl⟩
    obtain rfl : entry.1 = id := by simpa using List.find?_some hentry
    exact List.mem_of_find?_eq_some hentry
  · intro hmem
    obtain ⟨found, hfound⟩ := Option.isSome_iff_exists.mp
      (List.find?_isSome.mpr ⟨_, hmem, beq_self_eq_true id⟩ : (state.1.copies.find? (·.1 == id)).isSome)
    have hsame : found.1 = id := by simpa using List.find?_some hfound
    rw [List.inj_on_of_nodup_map hkeys (List.mem_of_find?_eq_some hfound) hmem hsame] at hfound
    exact ⟨_, hfound, rfl⟩

theorem Opened.renamed_eq (h : Opened before ids state) (hids : ids.Nodup) {entry : TableId × TableId}
    (hentry : entry ∈ state.1.copies) : state.1.renamed entry.1 = entry.2 := by
  rw [renamed, (h.mapped?_eq_some hids).mpr hentry, Option.getD_some]

theorem Opened.mem_copies (h : Opened before ids state) (hids : ids.Nodup) (hid : id ∈ ids) :
    (id, state.1.renamed id) ∈ state.1.copies := by
  have hmem : id ∈ state.1.copies.map (·.1) := by
    rw [h.keys]
    exact List.mem_reverse.mpr hid
  obtain ⟨entry, hentry, rfl⟩ := List.mem_map.mp hmem
  rwa [h.renamed_eq hids hentry]

theorem Opened.injective (h : Opened before ids state) (hids : ids.Nodup) :
    ∀ a ∈ ids, ∀ b ∈ ids, state.1.renamed a = state.1.renamed b → a = b := by
  intro a ha b hb heq
  have hsame := List.inj_on_of_nodup_map h.distinct (h.mem_copies hids ha) (h.mem_copies hids hb) heq
  exact congrArg Prod.fst hsame

theorem Opened.mem_places (h : Opened before ids state) (hids : ids.Nodup) {t : TableId} :
    t ∈ state.1.copies.map (·.2) ↔ ∃ a ∈ ids, state.1.renamed a = t := by
  constructor
  · intro ht
    obtain ⟨entry, hentry, rfl⟩ := List.mem_map.mp ht
    refine ⟨entry.1, ?_, h.renamed_eq hids hentry⟩
    rw [← List.mem_reverse, ← h.keys]
    exact List.mem_map_of_mem hentry
  · rintro ⟨a, ha, rfl⟩
    exact List.mem_map_of_mem (f := (·.2)) (h.mem_copies hids ha)

/-- The places of a copy of its own are places in a query without tables. -/
theorem Places.opened (h : Places start ids state) : Opened { arena := .empty, root := start } ids state where
  keys := h.keys
  distinct := h.distinct
  sound := h.kept.sound
  fresh _ _ := rfl
  get? := h.get?

theorem places_start (start : TableId) :
    Places start [start] ({ copies := [(start, (Query.ofItem {}).root)] }, .ofItem {}) where
  keys := rfl
  distinct := List.nodup_singleton _
  kept := Query.kept_ofItem rfl
  get? t := by
    simp only [Query.get?_ofItem, List.map_cons, List.map_nil, List.mem_singleton]
  root := List.mem_singleton_self _

theorem Places.allocate (h : Places start ids state) (id : TableId) : Places start (ids ++ [id]) (allocate state id) where
  keys := (h.opened.allocate id).keys
  distinct := (h.opened.allocate id).distinct
  kept := h.kept.addTable rfl
  get? := (h.opened.allocate id).get?
  root := List.mem_cons_of_mem _ h.root

theorem Places.foldl_allocate (h : Places start ids state) (below : List TableId) :
    Places start (ids ++ below) (below.foldl Cloner.allocate state) := by
  induction below generalizing ids state with
  | nil => simpa using h
  | cons id below ih => simpa using ih (h.allocate id)

/-! ### Levels -/

/-- Every table below these is one of `ids`. -/
def Closed (q : Query) (taken ids : List TableId) : Prop :=
  ∀ a ∈ taken, ∀ b ∈ q.children a, b ∈ ids

/-- The search below a queue lists no table twice, and its bound is never met. -/
theorem exists_allocateBelow (h : q.Rooted) (hstart : q.contains start = true) {fuel : Nat}
    {taken queue : List TableId} (hs : q.Spreading start taken queue) (hclosed : Closed q taken (taken ++ queue))
    (hplaces : Places start (taken ++ queue) state) (hfuel : q.tableCount + 1 ≤ taken.length + fuel) :
    ∃ order state', allocateBelow q fuel state queue = .ok (order, state') ∧
      q.Spreading start (taken ++ order) [] ∧ Closed q (taken ++ order) (taken ++ order) ∧
      Places start (taken ++ order) state' := by
  induction fuel generalizing taken queue state with
  | zero =>
    have hlength := h.length_le_of_spreading hs
    rw [List.length_append] at hlength
    obtain rfl : queue = [] := List.length_eq_zero_iff.mp (by omega)
    rw [List.append_nil] at hclosed hplaces
    exact ⟨[], state, rfl, by simpa using hs, by simpa using hclosed, by simpa using hplaces⟩
  | succ fuel ih =>
    cases queue with
    | nil =>
      rw [List.append_nil] at hclosed hplaces
      exact ⟨[], state, rfl, by simpa using hs, by simpa using hclosed, by simpa using hplaces⟩
    | cons id queue =>
      have hlive : q.contains id = true := by
        rcases hs.behind id (by simp) with rfl | ⟨a, -, hjoined⟩
        · exact hstart
        · exact (h.forest.contains_of_joined hjoined).2
      obtain ⟨item, hitem⟩ := Query.contains_iff.mp hlive
      have hchildren : item.joins.map (·.right) = q.children id := by
        rw [Query.children, Query.joinsOf, hitem, Option.elim_some]
      have hlist : taken ++ [id] ++ (queue ++ q.children id) = taken ++ id :: queue ++ q.children id := by simp
      have hspread := h.spreading_append hs (h.nodup_children id) fun _ hb => h.forest.mem_children.mp hb
      have hbelow : Closed q (taken ++ [id]) (taken ++ [id] ++ (queue ++ q.children id)) := by
        intro a ha b hb
        rw [hlist]
        rcases List.mem_append.mp ha with ha | ha
        · exact List.mem_append_left _ (hclosed a ha b hb)
        · rw [List.mem_singleton.mp ha] at hb
          exact List.mem_append_right _ hb
      obtain ⟨order, state', hrest, hdone⟩ := ih hspread hbelow (by rw [hlist]; exact hplaces.foldl_allocate _)
        (by rw [List.length_append, List.length_singleton]; omega)
      refine ⟨id :: order, state', ?_, by simpa using hdone⟩
      rw [allocateBelow]
      simp only [Query.item, hitem, bind, Except.bind, hchildren, hrest]
      rfl

/-- The tables that were listed are those that are reached. -/
theorem exists_order (h : q.Rooted) (hroot : q.contains q.root = true) :
    ∃ order state, allocateBelow q (q.tableCount + 1)
        ({ copies := [(q.root, (Query.ofItem {}).root)] }, .ofItem {}) [q.root] = .ok (order, state) ∧
      order.Nodup ∧ (∀ t, t ∈ order ↔ t ∈ q.walk) ∧ Places q.root order state := by
  obtain ⟨order, state, hallocate, hs, hclosed, hplaces⟩ := exists_allocateBelow h hroot (q.spreading_start q.root)
    nofun (places_start q.root) (Nat.le_of_eq (Nat.zero_add _).symm)
  rw [List.nil_append] at hs hclosed hplaces
  have hfirst : q.root ∈ order := by
    have hkey : q.root ∈ state.1.copies.map (·.1) := List.mem_map_of_mem (f := (·.1)) hplaces.root
    rwa [hplaces.keys, List.mem_reverse] at hkey
  refine ⟨order, state, hallocate, by simpa using hs.nodup, fun t => ⟨fun ht => ?_, fun ht => ?_⟩, hplaces⟩
  · exact h.mem_walk.mpr (hs.below t (by simpa using ht))
  · have hway := h.mem_walk.mp ht
    clear ht
    induction hway with
    | refl => exact hfirst
    | tail _ hstep ih => exact hclosed _ ih _ (h.forest.mem_children.mpr hstep)

/-! ### Contents -/

/-- The places are filled, and the joins of `done` are there again. -/
structure Filled (q : Query) (c : Cloner) (done : List Join) (target : Query) : Prop where
  kept : target.Kept
  root : target.root = c.renamed q.root
  live : ∀ t, target.contains t = true ↔ ∃ a ∈ q.walk, c.renamed a = t
  get? : ∀ t ∈ q.walk, target.get? (c.renamed t) = (q.get? t).map fun item =>
    { c.remapItem item with joins := (done.filter (·.left == t)).map c.remapJoin }

/-- Contents that are put into places of their own. -/
theorem foldl_fill {place : TableId → TableId} (content : QueryItem → QueryItem)
    {entries : List (TableId × QueryItem)} (hnodup : (entries.map fun entry => place entry.1).Nodup) (target : Query) :
    let filled := entries.foldl (fun t entry => t.modify (place entry.1) fun _ => content entry.2) target
    (target.arena.Sound → filled.arena.Sound) ∧ filled.root = target.root ∧
      (∀ entry ∈ entries, filled.get? (place entry.1) = (target.get? (place entry.1)).map fun _ => content entry.2) ∧
      ∀ id, id ∉ entries.map (fun entry => place entry.1) → filled.get? id = target.get? id := by
  induction entries generalizing target with
  | nil => exact ⟨id, rfl, List.forall_mem_nil _, fun _ _ => rfl⟩
  | cons entry entries ih =>
    rw [List.map_cons, List.nodup_cons] at hnodup
    obtain ⟨hsound, hroot, hfilled, hothers⟩ := ih hnodup.2 (target.modify (place entry.1) fun _ => content entry.2)
    rw [List.foldl_cons]
    refine ⟨fun h => hsound (h.modify _ _), hroot, List.forall_mem_cons.mpr ⟨?_, fun other hother => ?_⟩, fun id hid => ?_⟩
    · rw [hothers _ hnodup.1, Query.get?_modify, if_pos rfl]
    · have hne : place other.1 ≠ place entry.1 := fun heq => hnodup.1 (heq ▸ List.mem_map_of_mem hother)
      rw [hfilled other hother, Query.get?_modify, if_neg hne]
    · rw [List.map_cons, List.mem_cons, not_or] at hid
      rw [hothers id hid.2, Query.get?_modify, if_neg hid.1]

/-- The items of tables that are all live. -/
theorem mapM_items {ids : List TableId} (hlive : ∀ t ∈ ids, q.contains t = true) :
    ids.mapM (fun old => do return (old, ← q.item old)) = .ok (ids.map fun t => (t, (q.get? t).getD {})) := by
  refine Result.mapM_eq_ok fun t ht => ?_
  obtain ⟨item, hitem⟩ := Query.contains_iff.mp (hlive t ht)
  rw [Query.item, hitem]
  rfl

/-- The joins of these items, between the copies. -/
theorem flatMap_remapJoin {c : Cloner} (hlive : ∀ t ∈ ids, q.contains t = true) :
    (ids.map fun t => (t, (q.get? t).getD {})).flatMap (fun entry => entry.2.joins.map c.remapJoin)
      = (ids.flatMap q.joinsOf).map c.remapJoin := by
  rw [List.flatMap_map, List.map_flatMap]
  refine List.flatMap_congr fun t ht => ?_
  obtain ⟨item, hitem⟩ := Query.contains_iff.mp (hlive t ht)
  simp only [Query.joinsOf, hitem, Option.getD_some, Option.elim_some]

/-- Handles of joins, from the copies back. -/
theorem Filled.exists_of_joined {c : Cloner} {done : List Join} {target : Query} (h : Filled q c done target)
    {a b : TableId} (hab : target.Joined a b) : ∃ j ∈ done, c.renamed j.left = a ∧ c.renamed j.right = b := by
  obtain ⟨j, hj, rfl, rfl⟩ := hab
  obtain ⟨t, ht⟩ := Query.mem_joins.mp hj
  obtain ⟨a, ha, rfl⟩ := (h.live t).mp (Query.contains_of_mem_joinsOf ht)
  rw [Query.joinsOf, h.get? a ha] at ht
  cases hitem : q.get? a with
  | none =>
    rw [hitem] at ht
    cases ht
  | some item =>
    rw [hitem] at ht
    obtain ⟨k, hk, rfl⟩ := List.mem_map.mp ht
    exact ⟨k, List.mem_of_mem_filter hk, rfl, rfl⟩

/-- Joins are added again one by one: no two of them lead to the same table, and none leads back. -/
theorem Filled.exists_addJoin {c : Cloner} {done rest : List Join} {j : Join} {target : Query} (h : q.Rooted)
    (hinjective : ∀ a ∈ q.walk, ∀ b ∈ q.walk, c.renamed a = c.renamed b → a = b)
    (hjoins : ∀ k ∈ done ++ j :: rest, ∃ t ∈ q.walk, k ∈ q.joinsOf t)
    (hrights : ((done ++ j :: rest).map (·.right)).Nodup) (hfilled : Filled q c done target) :
    ∃ target', target.addJoin (c.remapJoin j) = .ok target' ∧ Filled q c (done ++ [j]) target' := by
  have hends : ∀ k ∈ done ++ j :: rest, k.left ∈ q.walk ∧ k.right ∈ q.walk ∧ q.Joined k.left k.right := by
    intro k hk
    obtain ⟨t, ht, hk⟩ := hjoins k hk
    rw [h.left_eq hk]
    exact ⟨ht, h.right_mem_walk ht hk, h.forest.mem_children.mp (List.mem_map_of_mem hk)⟩
  obtain ⟨hleft, hright, hjoined⟩ := hends j (by simp)
  have hback : ¬target.isAncestor (c.renamed j.right) (c.renamed j.left) = true := by
    rw [hfilled.kept.rooted.forest.isAncestor_iff]
    intro hway
    have hfrom : ∀ x, ReflTransGen target.Joined (c.renamed j.right) x →
        ∃ b ∈ q.walk, c.renamed b = x ∧ ReflTransGen q.Joined j.right b := by
      intro x hx
      induction hx with
      | refl => exact ⟨j.right, hright, rfl, .refl⟩
      | tail _ hstep ih =>
        obtain ⟨b, hb, rfl, hway⟩ := ih
        obtain ⟨k, hk, hkleft, rfl⟩ := hfilled.exists_of_joined hstep
        obtain ⟨hkl, hkr, hkjoined⟩ := hends k (List.mem_append_left _ hk)
        obtain rfl := hinjective _ hkl _ hb hkleft
        exact ⟨k.right, hkr, rfl, hway.tail hkjoined⟩
    obtain ⟨b, hb, heq, hway⟩ := hfrom _ hway
    obtain rfl := hinjective b hb _ hleft heq
    exact h.acyclic _ (.head' hjoined hway)
  have hfirst : ¬(target.parentJoin? (c.renamed j.right)).isSome = true := by
    intro hsome
    obtain ⟨k, hk⟩ := Option.isSome_iff_exists.mp hsome
    have hstep := hfilled.kept.rooted.forest.joined_iff_parentJoin?.mpr ⟨k, hk, rfl⟩
    obtain ⟨d, hd, -, hdright⟩ := hfilled.exists_of_joined hstep
    have hsame := hinjective _ (hends d (List.mem_append_left _ hd)).2.1 _ hright hdright
    rw [List.map_append, List.map_cons] at hrights
    exact (List.nodup_append.mp hrights).2.2 _ (List.mem_map_of_mem hd) _ List.mem_cons_self hsame
  have hadd : target.addJoin (c.remapJoin j) = .ok (target.modify (c.renamed j.left) fun item =>
      { item with joins := item.joins ++ [c.remapJoin j] }) := by
    rw [Query.addJoin, remapJoin, (hfilled.live _).mpr ⟨_, hleft, rfl⟩, (hfilled.live _).mpr ⟨_, hright, rfl⟩]
    simp [hback, hfirst]
  refine ⟨_, hadd, hfilled.kept.addJoin hadd, hfilled.root, fun t => ?_, fun t ht => ?_⟩
  · rw [Query.contains_modify, hfilled.live]
  · rw [Query.get?_modify, hfilled.get? t ht, List.filter_append, List.map_append]
    split
    next heq =>
      obtain rfl := hinjective _ ht _ hleft heq
      have hown : [j].filter (·.left == j.left) = [j] := List.filter_cons_of_pos (beq_self_eq_true _)
      rw [hfilled.get? _ ht, hown, Option.map_map]
      rfl
    next hne =>
      have hother : [j].filter (·.left == t) = [] :=
        List.filter_cons_of_neg fun heq => hne (congrArg _ (beq_iff_eq.mp heq).symm)
      rw [hother, List.map_nil, List.append_nil]

theorem Filled.exists_foldlM {c : Cloner} {done : List Join} {target : Query} (h : q.Rooted) (rest : List Join)
    (hinjective : ∀ a ∈ q.walk, ∀ b ∈ q.walk, c.renamed a = c.renamed b → a = b)
    (hjoins : ∀ k ∈ done ++ rest, ∃ t ∈ q.walk, k ∈ q.joinsOf t) (hrights : ((done ++ rest).map (·.right)).Nodup)
    (hfilled : Filled q c done target) :
    ∃ target', (rest.map c.remapJoin).foldlM (fun t j => t.addJoin j) target = .ok target' ∧
      Filled q c (done ++ rest) target' := by
  induction rest generalizing done target with
  | nil => exact ⟨target, rfl, by simpa using hfilled⟩
  | cons j rest ih =>
    obtain ⟨target₁, hadd, hfilled₁⟩ := hfilled.exists_addJoin h hinjective hjoins hrights
    obtain ⟨target', hrest, hfilled'⟩ := ih (by simpa using hjoins) (by simpa using hrights) hfilled₁
    refine ⟨target', ?_, by simpa using hfilled'⟩
    rw [List.map_cons, List.foldlM_cons, hadd]
    exact hrest

/-- The tables are filled while nothing is joined yet. -/
theorem Places.filled {c : Cloner} {target : Query} {order : List TableId} (h : Places q.root order (c, target))
    (hnodup : order.Nodup) (horder : ∀ t, t ∈ order ↔ t ∈ q.walk) (hlive : ∀ t ∈ order, q.contains t = true) :
    Filled q c [] ((order.map fun t => (t, (q.get? t).getD {})).foldl
      (fun t entry => t.modify (c.renamed entry.1) fun _ => c.remapItem entry.2) target) := by
  have hplaces : ((order.map fun t => (t, (q.get? t).getD {})).map fun entry => c.renamed entry.1)
      = order.map c.renamed := by
    rw [List.map_map]
    rfl
  have hdistinct : (order.map c.renamed).Nodup := hnodup.map_on (h.opened.injective hnodup)
  obtain ⟨hsound, hroot, hfilled, hothers⟩ := foldl_fill c.remapItem (hplaces ▸ hdistinct) target
  generalize (order.map fun t => (t, (q.get? t).getD {})).foldl
    (fun t entry => t.modify (c.renamed entry.1) fun _ => c.remapItem entry.2) target = result
    at hsound hroot hfilled hothers ⊢
  have hget : ∀ t ∈ order, result.get? (c.renamed t) = (q.get? t).map c.remapItem := by
    intro t ht
    obtain ⟨item, hitem⟩ := Query.contains_iff.mp (hlive t ht)
    have hplace := (h.opened.mem_places hnodup).mpr ⟨t, ht, rfl⟩
    rw [hfilled (t, (q.get? t).getD {}) (List.mem_map_of_mem ht), h.get?, if_pos hplace, hitem]
    rfl
  have hnone : ∀ id, (¬∃ a ∈ order, c.renamed a = id) → result.get? id = none := by
    intro id hid
    have hid' : id ∉ order.map c.renamed := fun hmem => hid (List.mem_map.mp hmem)
    rw [hothers id (hplaces ▸ hid'), h.get?, if_neg fun hplace => hid ((h.opened.mem_places hnodup).mp hplace)]
  have hends : ∀ id, result.ends id = [] := by
    intro id
    by_cases hid : ∃ a ∈ order, c.renamed a = id
    · obtain ⟨a, ha, rfl⟩ := hid
      rw [Query.ends, Query.joinsOf, hget a ha]
      cases q.get? a <;> rfl
    · rw [Query.ends, Query.joinsOf, hnone id hid]
      rfl
  refine ⟨⟨hsound h.kept.sound, Query.rooted_of_ends_eq_nil hends⟩, ?_, fun t => ?_, fun t ht => ?_⟩
  · rw [hroot]
    exact (h.opened.renamed_eq hnodup h.root).symm
  · simp only [← horder]
    constructor
    · intro ht
      by_contra hid
      obtain ⟨item, hitem⟩ := Query.contains_iff.mp ht
      cases (hnone t hid).symm.trans hitem
    · rintro ⟨a, ha, rfl⟩
      obtain ⟨item, hitem⟩ := Query.contains_iff.mp (hlive a ha)
      exact Query.contains_iff.mpr ⟨c.remapItem item, by rw [hget a ha, hitem]; rfl⟩
  · rw [hget t ((horder t).mpr ht)]
    rfl

end Cloner

open Cloner in
/-- What can be reached from a live root is copied, under other handles. -/
theorem Query.Rooted.exists_clone {q : Query} (h : q.Rooted) (hroot : q.contains q.root = true) :
    ∃ q' f, q.clone = .ok q' ∧ q'.Kept ∧ q.Renames q' f := by
  obtain ⟨order, ⟨c, target⟩, hallocate, hnodup, horder, hplaces⟩ := exists_order h hroot
  have hlive : ∀ t ∈ order, q.contains t = true := fun t ht => h.contains_of_mem_walk hroot ((horder t).mp ht)
  have hinjective : ∀ a ∈ q.walk, ∀ b ∈ q.walk, c.renamed a = c.renamed b → a = b := fun a ha b hb =>
    hplaces.opened.injective hnodup a ((horder a).mpr ha) b ((horder b).mpr hb)
  have hfrom : ∀ k ∈ order.flatMap q.joinsOf, ∃ t ∈ q.walk, k ∈ q.joinsOf t := by
    intro k hk
    obtain ⟨t, ht, hk⟩ := List.mem_flatMap.mp hk
    exact ⟨t, (horder t).mp ht, hk⟩
  obtain ⟨q', hjoins, hfilled⟩ :=
    (hplaces.filled hnodup horder hlive).exists_foldlM h (order.flatMap q.joinsOf) hinjective hfrom (h.nodup_rights hnodup)
  have hcopied : Cloner.copySubtree { copies := [(q.root, (ofItem {}).root)] } q q.root (.ofItem {}) = .ok (c, q') := by
    refine Result.bind_eq_ok.mpr ⟨_, hallocate, Result.bind_eq_ok.mpr ⟨_, mapM_items hlive, ?_⟩⟩
    refine Result.bind_eq_ok.mpr ⟨q', ?_, rfl⟩
    rw [flatMap_remapJoin hlive, hjoins]
  refine ⟨{ q' with parameters := q.parameters }, c.renamed, Result.bind_eq_ok.mpr ⟨_, hcopied, rfl⟩, ?_, ?_⟩
  · exact ⟨hfilled.kept.sound, hfilled.kept.rooted.of_sublist (fun _ => .refl _) hfilled.kept.rooted.live⟩
  · refine ⟨hfilled.root, hinjective, hfilled.live, fun t ht => ?_, rfl⟩
    have hget := hfilled.get? t ht
    rw [List.nil_append, h.filter_left hnodup ((horder t).mpr ht)] at hget
    refine hget.trans ?_
    obtain ⟨item, hitem⟩ := contains_iff.mp (hlive t ((horder t).mpr ht))
    rw [joinsOf, hitem]
    rfl

end ItemQuery
