import ItemQuery.Proofs.Query.Tree

/-! Queries whose joins all follow foreign keys. The tables behind two foreign keys of a table are apart, so that the
    foreign key towards a table is the only one it stands behind, and ways down have a bound. -/

namespace ItemQuery.Query

open Relation

variable {q : Query} {a b c t : TableId}

/-- A query that has grown along foreign keys only. -/
structure KeyTree (q : Query) : Prop extends q.Grown where
  keys : ∀ id, ∀ j ∈ q.links id, j.isForeignKey = true

/-- One foreign key or more lead from `a` to `b`. -/
def Below (q : Query) (a b : TableId) : Prop :=
  ∃ c ∈ q.keyed a, q.Behind c b

/-! ### Ways -/

theorem behind_of_below (h : q.Below a b) : q.Behind a b := by
  obtain ⟨c, hc, hb⟩ := h
  exact .head hc hb

theorem eq_or_below_of_behind (h : q.Behind a b) : a = b ∨ q.Below a b := by
  rcases h.cases_head with rfl | ⟨c, hc, hb⟩
  · exact .inl rfl
  · exact .inr ⟨c, hc, hb⟩

section
variable (h : q.KeyTree)
include h

theorem KeyTree.forest : q.Forest :=
  h.kept.rooted.forest

theorem KeyTree.mem_keyed_iff_joined : b ∈ q.keyed a ↔ q.Joined a b := by
  refine ⟨h.forest.joined_of_mem_keyed, fun hab => ?_⟩
  obtain ⟨id, j, hj, rfl, rfl⟩ := joined_iff_exists_link.mp hab
  have howner : j.left = id := by
    obtain ⟨k, hk, rfl⟩ := List.mem_map.mp hj
    obtain ⟨item, hitem, hmem⟩ := mem_joinsOf.mp hk
    exact h.forest.owned id item hitem k hmem
  rw [howner]
  exact mem_keyed_iff.mpr ⟨j.leftProperty, j, hj, h.keys id j hj, rfl, rfl⟩

theorem KeyTree.behind_iff : q.Behind a b ↔ ReflTransGen q.Joined a b := by
  constructor
  · exact ReflTransGen.mono (fun _ _ => h.mem_keyed_iff_joined.mp) a b
  · exact ReflTransGen.mono (fun _ _ => h.mem_keyed_iff_joined.mpr) a b

theorem KeyTree.not_behind_of_mem_keyed (hc : c ∈ q.keyed a) : ¬q.Behind c a := fun hback =>
  h.forest.acyclic a (.head' (h.mem_keyed_iff_joined.mp hc) (h.behind_iff.mp hback))

theorem KeyTree.not_below_self : ¬q.Below a a := fun ⟨_, hc, hback⟩ =>
  h.not_behind_of_mem_keyed hc hback

theorem KeyTree.not_below_root (a : TableId) : ¬q.Below a q.root := fun hbelow => by
  rcases (behind_of_below hbelow).cases_tail with heq | ⟨c, -, hc⟩
  · rw [← heq] at hbelow
    exact h.not_below_self hbelow
  · exact h.not_heads_of_mem_keyed hc (.inl rfl)

/-- Of two tables that a third stands behind, one stands behind the other. -/
theorem KeyTree.behind_total (ha : q.Behind a t) (hb : q.Behind b t) : q.Behind a b ∨ q.Behind b a := by
  have hunique : Relator.RightUnique (Function.swap q.Joined) := fun _ _ _ hx hy => h.forest.eq_of_joined hx hy
  simp only [h.behind_iff] at ha hb ⊢
  rcases ReflTransGen.total_of_right_unique hunique (reflTransGen_swap.mpr ha) (reflTransGen_swap.mpr hb) with hba | hab
  · exact .inr (reflTransGen_swap.mp hba)
  · exact .inl (reflTransGen_swap.mp hab)

theorem KeyTree.eq_of_behind (hb : b ∈ q.keyed a) (hc : c ∈ q.keyed a) (hbt : q.Behind b t) (hct : q.Behind c t) :
    b = c :=
  h.forest.eq_of_reached_both (h.mem_keyed_iff_joined.mp hb) (h.mem_keyed_iff_joined.mp hc) (h.behind_iff.mp hbt)
    (h.behind_iff.mp hct)

theorem KeyTree.exists_parentJoin? (hc : c ∈ q.keyed a) :
    ∃ j, q.parentJoin? c = some j ∧ q.Leads a j.leftProperty c := by
  obtain ⟨name, k, hk, hkey, rfl, hright⟩ := mem_keyed_iff.mp hc
  obtain ⟨j, hj, rfl⟩ := List.mem_map.mp hk
  exact ⟨j, h.forest.parentJoin?_eq_some.mpr ⟨mem_joins.mpr ⟨a, hj⟩, hright⟩, j.link, hk, hkey, rfl, hright⟩

end

/-- The foreign key that leads to a table has one name. -/
theorem Leads.unique (h : q.Grown) {a b c : TableId} {name other : String} (hb : q.Leads a name c)
    (hc : q.Leads b other c) : a = b ∧ name = other := by
  have hjoin : ∀ {a name}, q.Leads a name c → ∃ j, q.parentJoin? c = some j ∧ j.left = a ∧ j.leftProperty = name := by
    rintro a name ⟨k, hk, -, rfl, hright⟩
    obtain ⟨j, hj, rfl⟩ := List.mem_map.mp hk
    obtain ⟨item, hitem, hmem⟩ := mem_joinsOf.mp hj
    exact ⟨j, h.kept.rooted.forest.parentJoin?_eq_some.mpr ⟨mem_joins.mpr ⟨a, hj⟩, hright⟩,
      h.kept.rooted.forest.owned a item hitem j hmem, rfl⟩
  obtain ⟨j, hj, rfl, rfl⟩ := hjoin hb
  obtain ⟨k, hk, rfl, rfl⟩ := hjoin hc
  cases hj.symm.trans hk
  exact ⟨rfl, rfl⟩

theorem Leads.right_unique (h : q.Grown) {a b c : TableId} {name : String} (hb : q.Leads a name b)
    (hc : q.Leads a name c) : b = c := by
  obtain ⟨j, hj, hjkey, hjname, rfl⟩ := hb
  obtain ⟨k, hk, hkkey, hkname, rfl⟩ := hc
  have hinj := List.inj_on_of_nodup_map (h.distinct a)
  rw [hinj (List.mem_filter.mpr ⟨hj, hjkey⟩) (List.mem_filter.mpr ⟨hk, hkkey⟩) (hjname.trans hkname.symm)]

/-- What stands above a table is its parent or stands above it. -/
theorem KeyTree.behind_of_below (h : q.KeyTree) (hac : q.Below a c) (hc : c ∈ q.keyed b) : q.Behind a b := by
  rcases (Query.behind_of_below hac).cases_tail with rfl | ⟨parent, hparent, hjoined⟩
  · exact absurd hac h.not_below_self
  · rwa [h.forest.eq_of_joined (h.mem_keyed_iff_joined.mp hc) (h.mem_keyed_iff_joined.mp hjoined)]

theorem Below.trans_behind (h : q.Below a b) (hb : q.Behind b c) : q.Below a c := by
  obtain ⟨d, hd, hdb⟩ := h
  exact ⟨d, hd, hdb.trans hb⟩

theorem Below.of_behind_below (h : q.Behind a b) (hb : q.Below b c) : q.Below a c := by
  rcases eq_or_below_of_behind h with rfl | h
  · exact hb
  · exact h.trans_behind (behind_of_below hb)

/-! ### Towards a table -/

/-- The search upwards ends at the foreign key that the table stands behind. -/
theorem KeyTree.exists_of_climbs (h : q.KeyTree) (hc : c ∈ q.keyed a) {result : Option Join}
    (hclimbs : q.Climbs a t result) (ht : q.Behind c t) : ∃ j, result = some j ∧ j.right = c := by
  obtain ⟨j, hj, -⟩ := h.exists_parentJoin? hc
  have hjoined : q.Joined a c := h.mem_keyed_iff_joined.mp hc
  induction hclimbs with
  | top hnone =>
    rcases ht.cases_tail with rfl | ⟨parent, -, hlast⟩
    · cases hj.symm.trans hnone
    · obtain ⟨k, hk, -⟩ := h.exists_parentJoin? hlast
      cases hk.symm.trans hnone
  | @found id k hk hleft =>
    have hid : id ∈ q.keyed a :=
      h.mem_keyed_iff_joined.mpr (h.forest.joined_iff_parentJoin?.mpr ⟨k, hk, hleft⟩)
    refine ⟨k, rfl, ?_⟩
    rw [(h.forest.parentJoin?_eq_some.mp hk).2]
    exact h.eq_of_behind hid hc .refl ht
  | @up id k result hk hleft hrest ih =>
    have hstep : q.Joined k.left id := h.forest.joined_iff_parentJoin?.mpr ⟨k, hk, rfl⟩
    rcases ht.cases_tail with rfl | ⟨parent, hparent, hlast⟩
    · exact absurd (h.forest.eq_of_joined hstep hjoined) hleft
    · obtain rfl := h.forest.eq_of_joined hstep (h.mem_keyed_iff_joined.mp hlast)
      exact ih hparent

theorem KeyTree.behind_of_climbs (h : q.KeyTree) {result : Option Join} (hclimbs : q.Climbs a t result) {j : Join}
    (hj : result = some j) : j.right ∈ q.keyed a ∧ q.Behind j.right t ∧ j.isForeignKey = true := by
  induction hclimbs with
  | top => cases hj
  | @found id k hk hleft =>
    cases hj
    obtain ⟨hmem, rfl⟩ := h.forest.parentJoin?_eq_some.mp hk
    obtain ⟨owner, howner⟩ := mem_joins.mp hmem
    refine ⟨h.mem_keyed_iff_joined.mpr ⟨j, hmem, hleft, rfl⟩, .refl, ?_⟩
    exact h.keys owner j.link (List.mem_map_of_mem howner)
  | @up id k result hk hleft hrest ih =>
    obtain ⟨hright, hbehind, hkey⟩ := ih hj
    refine ⟨hright, hbehind.tail (h.mem_keyed_iff_joined.mpr ?_), hkey⟩
    exact h.forest.joined_iff_parentJoin?.mpr ⟨k, hk, rfl⟩

/-- The foreign key of `a` towards `t`. -/
theorem KeyTree.childTowards_eq (h : q.KeyTree) :
    ((q.childTowards a t).filter (·.isForeignKey)).map (·.right) = some c ↔ c ∈ q.keyed a ∧ q.Behind c t := by
  have hclimbs := h.forest.climbs_childTowards a t
  constructor
  · intro hmap
    obtain ⟨j, hfiltered, rfl⟩ := Option.map_eq_some_iff.mp hmap
    obtain ⟨hright, hbehind, -⟩ := h.behind_of_climbs hclimbs (Option.filter_eq_some_iff.mp hfiltered).1
    exact ⟨hright, hbehind⟩
  · rintro ⟨hc, ht⟩
    obtain ⟨j, hj, rfl⟩ := h.exists_of_climbs hc hclimbs ht
    obtain ⟨-, -, hkey⟩ := h.behind_of_climbs hclimbs hj
    rw [hj, Option.filter_some_pos hkey]
    rfl

/-! ### Depth -/

/-- Ways down from a table take fewer steps than `depth`. -/
def Deep (q : Query) (depth : Nat) (id : TableId) : Prop :=
  ∀ way : List TableId, (id :: way).IsChain q.Joined → way.length < depth

theorem Rooted.deep (h : q.Rooted) (id : TableId) : q.Deep (q.tableCount + 1) id := fun _ hway =>
  Nat.lt_succ_of_le (h.forest.length_le_of_down hway)

theorem KeyTree.deep (h : q.KeyTree) (id : TableId) : q.Deep (q.tableCount + 1) id :=
  h.kept.rooted.deep id

theorem Deep.ne_zero {depth : Nat} (h : q.Deep depth a) : depth ≠ 0 := by
  rintro rfl
  exact absurd (h [] (.singleton a)) (Nat.lt_irrefl 0)

theorem Deep.of_joined {depth : Nat} (h : q.Deep (depth + 1) a) (hab : q.Joined a b) : q.Deep depth b := fun way hway =>
  Nat.lt_of_succ_lt_succ (h (b :: way) (.cons_cons hab hway))

theorem KeyTree.deep_of_mem_keyed (h : q.KeyTree) {depth : Nat} (hdeep : q.Deep (depth + 1) a) (hc : c ∈ q.keyed a) :
    q.Deep depth c :=
  hdeep.of_joined (h.mem_keyed_iff_joined.mp hc)

/-! ### Queries that are built by joins -/

theorem keyTree_ofItem {item : QueryItem} (hitem : item.joins = []) : (ofItem item).KeyTree where
  toGrown := grown_ofItem hitem
  keys id j hj := by
    rw [links_ofItem hitem] at hj
    cases hj

theorem KeyTree.modify (h : q.KeyTree) {f : QueryItem → QueryItem} (hf : ∀ item, (f item).joins = item.joins)
    (a : TableId) : (q.modify a f).KeyTree := by
  have hlinks : ∀ item, (f item).joins.map Join.link = item.joins.map Join.link := fun item => by rw [hf]
  refine ⟨(h.toGrown.modify hlinks a).1, fun id j hj => h.keys id j ?_⟩
  rwa [links_modify hlinks] at hj

/-- A join that is no foreign key would make its table a head, but the root is the only one. -/
theorem KeyTree.of_widens {q' : Query} (h : q.KeyTree) (hgrown : q'.Grown) (hwidens : q.Widens q') : q'.KeyTree := by
  refine ⟨hgrown, fun id j hj => Bool.of_not_eq_false fun hkey => ?_⟩
  have hhead : q.Heads j.right :=
    (hwidens.heads_iff j.right).mp (heads_iff_exists_link.mpr (.inr ⟨id, j, hj, hkey, rfl⟩))
  have hjoined : q'.Joined j.left j.right := joined_iff_exists_link.mpr ⟨id, j, hj, rfl, rfl⟩
  rcases heads_iff_exists_link.mp hhead with hroot | ⟨a, k, hk, hkkey, -⟩
  · rw [hroot, ← hwidens.root] at hjoined
    have hback := hgrown.reached j.left (hgrown.kept.rooted.forest.contains_of_joined hjoined).1
    exact hgrown.kept.rooted.forest.acyclic _ (.head' hjoined hback)
  · rw [h.keys a k hk] at hkkey
    cases hkkey

theorem KeyTree.joinProperty (h : q.KeyTree) (ha : q.contains a = true) (name : String) (kind : JoinKind) :
    (q.joinProperty a name kind).2.KeyTree := by
  obtain ⟨hgrown, hwidens, -⟩ := h.toGrown.joinProperty ha name kind
  exact h.of_widens hgrown hwidens

/-! ### Tables behind foreign keys -/

theorem Spreads.mem_iff {queue order : List TableId} (h : q.Spreads queue order) :
    t ∈ order ↔ ∃ a ∈ queue, q.Behind a t := by
  induction h with
  | done => simp
  | @next id queue order _ ih =>
    simp only [List.mem_cons, ih, List.mem_append]
    constructor
    · rintro (rfl | ⟨a, ha | ha, hat⟩)
      · exact ⟨_, .inl rfl, .refl⟩
      · exact ⟨a, .inr ha, hat⟩
      · exact ⟨id, .inl rfl, .head ha hat⟩
    · rintro ⟨a, rfl | ha, hat⟩
      · rcases hat.cases_head with rfl | ⟨b, hb, hbt⟩
        · exact .inl rfl
        · exact .inr ⟨b, .inr hb, hbt⟩
      · exact .inr ⟨a, .inl ha, hat⟩

theorem Rooted.mem_foreignKeyTree (h : q.Rooted) : t ∈ q.foreignKeyTree a ↔ q.Behind a t := by
  simp [(h.spreads_foreignKeyTree a).mem_iff]

/-- A table that is reached stands behind foreign keys, or is reached through a relationship of a table that does. -/
theorem Rooted.exists_behind (h : q.Rooted) (hat : ReflTransGen q.Joined a t) : ∃ b, q.Behind a b ∧
    (b = t ∨ ∃ item, q.get? b = some item ∧ ∃ j ∈ item.relationships, ReflTransGen q.Joined j.right t) := by
  induction hat using ReflTransGen.head_induction_on with
  | refl => exact ⟨t, .refl, .inl rfl⟩
  | @head a c hac hct ih =>
    obtain ⟨j, hj, rfl⟩ := List.mem_map.mp (h.forest.mem_children.mpr hac)
    obtain ⟨item, hitem, hmem⟩ := mem_joinsOf.mp hj
    cases hkey : j.isForeignKey with
    | true =>
      obtain ⟨b, hb, hbt⟩ := ih
      have hkeyed : j.right ∈ q.keyed a := by
        rw [keyed, hitem]
        exact List.mem_map_of_mem (List.mem_filter.mpr ⟨hmem, hkey⟩)
      exact ⟨b, .head hkeyed hb, hbt⟩
    | false =>
      exact ⟨a, .refl, .inr ⟨item, hitem, j, List.mem_filter.mpr ⟨hmem, by simp [hkey]⟩, hct⟩⟩

/-! ### Queries of one table -/

/-- A query whose root is its only table. -/
structure Single (q : Query) (item : QueryItem) : Prop where
  sound : q.arena.Sound
  found : q.get? q.root = some item
  alone : ∀ id, q.contains id = true → id = q.root
  unjoined : item.joins = []

theorem single_ofItem {item : QueryItem} (hitem : item.joins = []) : (ofItem item).Single item where
  sound := (kept_ofItem hitem).sound
  found := get?_ofItem.trans (if_pos rfl)
  alone id hid := by
    obtain ⟨other, hother⟩ := contains_iff.mp hid
    rw [get?_ofItem] at hother
    split at hother
    next heq => exact heq
    next => cases hother
  unjoined := hitem

theorem Single.links_eq_nil {item : QueryItem} (h : q.Single item) (id : TableId) : q.links id = [] := by
  by_cases hid : q.contains id = true
  · rw [h.alone id hid, links, joinsOf, h.found]
    simp [h.unjoined]
  · exact links_of_not_contains hid

theorem Single.keyTree {item : QueryItem} (h : q.Single item) : q.KeyTree where
  kept := ⟨h.sound, rooted_of_ends_eq_nil fun id => by rw [ends_eq_map_links, h.links_eq_nil, List.map_nil]⟩
  rootLive := contains_iff.mpr ⟨item, h.found⟩
  reached id hid := h.alone id hid ▸ .refl
  distinct id := by simp [h.links_eq_nil]
  shape id j hj := by simp [h.links_eq_nil] at hj
  keys id j hj := by simp [h.links_eq_nil] at hj

theorem Single.filterOf_eq {item : QueryItem} (h : q.Single item) (id : TableId) :
    q.filterOf id = if id = q.root then item.filter else none := by
  split
  next heq =>
    rw [heq, filterOf, h.found]
    rfl
  next hne =>
    rw [filterOf]
    cases hget : q.get? id with
    | none => rfl
    | some other => exact absurd (h.alone id (contains_iff.mpr ⟨other, hget⟩)) hne

end ItemQuery.Query
