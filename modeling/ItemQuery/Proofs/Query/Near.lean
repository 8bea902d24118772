import ItemQuery.Proofs.Expr.Names
import ItemQuery.Proofs.Query.Blocks

/-! What stands with a table names tables near it: itself, what its foreign keys reach, and the table that it is joined
    to. Select lists and sort keys name the table itself only, and no change of a query but one of these lists touches
    that. -/

namespace ItemQuery

namespace Query

variable {q : Query} {a t u : TableId}

/-! ### Near tables -/

/-- A table, what its foreign keys reach, and the table that it is joined to. -/
def Near (q : Query) (a b : TableId) : Prop :=
  q.Behind a b ∨ q.Joined b a

/-- Tables near one of a block are in the block, or the block hangs below them. -/
theorem Rooted.near_block (h : q.Rooted) (ht : t ∈ q.foreignKeyTree a) (hu : q.Near t u) :
    u ∈ q.foreignKeyTree a ∨ q.Joined u a := by
  rw [h.mem_foreignKeyTree] at ht ⊢
  rcases hu with hu | hu
  · exact .inl (ht.trans hu)
  · rcases ht.cases_tail with heq | ⟨v, hv, htv⟩
    · exact .inr (heq ▸ hu)
    · exact .inl (h.forest.eq_of_joined hu (h.forest.joined_of_mem_keyed htv) ▸ hv)

/-- Nothing leads to the root, and filters, select lists and sort keys name near tables. -/
structure Local (q : Query) : Prop where
  rooted : q.Rooted
  rootFree : ∀ a, ¬q.Joined a q.root
  filter : ∀ id item c, q.get? id = some item → item.filter = some c → c.Names (q.Near id)
  select : ∀ id item, q.get? id = some item → ∀ s ∈ item.select, s.expr.Names (q.Near id)
  orderBy : ∀ id item, q.get? id = some item → ∀ k ∈ item.orderBy, k.expr.Names (q.Near id)

end Query

/-! ### Select lists and sort keys -/

/-- The lists of a table name this table only. -/
structure QueryItem.Lists (id : TableId) (item : QueryItem) : Prop where
  select : ∀ s ∈ item.select, s.expr.Names (· = id)
  orderBy : ∀ k ∈ item.orderBy, k.expr.Names (· = id)

theorem QueryItem.Lists.of_eq {id : TableId} {item item' : QueryItem} (h : item.Lists id)
    (hselect : item'.select = item.select)
    (horder : item'.orderBy = item.orderBy) : item'.Lists id where
  select := hselect ▸ h.select
  orderBy := horder ▸ h.orderBy

theorem QueryItem.lists_of_nil {id : TableId} {item : QueryItem} (hselect : item.select = []) (horder : item.orderBy = []) :
    item.Lists id where
  select := by simp [hselect]
  orderBy := by simp [horder]

/-- The lists of all tables are their own. -/
structure Query.Listed (q : Query) : Prop where
  sound : q.arena.Sound
  lists : ∀ id item, q.get? id = some item → item.Lists id

namespace Query

variable {q : Query} {table : TableId} {item : QueryItem} {f : QueryItem → QueryItem}

theorem Listed.modify (h : q.Listed) (table : TableId)
    (hf : ∀ item, q.get? table = some item → item.Lists table → (f item).Lists table) : (q.modify table f).Listed where
  sound := h.sound.modify table f
  lists id item hitem := by
    rw [get?_modify] at hitem
    split at hitem
    next heq =>
      obtain ⟨old, hold, rfl⟩ := Option.map_eq_some_iff.mp hitem
      exact heq ▸ hf old hold (h.lists table old hold)
    next => exact h.lists id item hitem

/-- A change that leaves both lists. -/
theorem Listed.modify_of_eq (h : q.Listed) (table : TableId)
    (hf : ∀ item, (f item).select = item.select ∧ (f item).orderBy = item.orderBy) : (q.modify table f).Listed :=
  h.modify table fun item _ hlists => hlists.of_eq (hf item).1 (hf item).2

theorem Listed.addTable (h : q.Listed) (hselect : item.select = []) (horder : item.orderBy = []) :
    (q.addTable item).2.Listed where
  sound := h.sound.insert item
  lists id other hother := by
    rw [get?_addTable h.sound] at hother
    split at hother
    next =>
      cases hother
      exact QueryItem.lists_of_nil hselect horder
    next => exact h.lists id other hother

theorem Listed.joinProperty (h : q.Listed) (table : TableId) (property : String) (kind : JoinKind) :
    (q.joinProperty table property kind).2.Listed := by
  unfold Query.joinProperty
  dsimp only
  split
  · split
    · exact h.modify_of_eq table fun _ => ⟨rfl, rfl⟩
    · exact h
  · exact (h.addTable rfl rfl).modify_of_eq table fun _ => ⟨rfl, rfl⟩

theorem Listed.addRelationship (h : q.Listed) (table : TableId) (typeName : String) :
    (q.addRelationship table typeName).2.Listed :=
  (h.addTable rfl rfl).modify_of_eq table fun _ => ⟨rfl, rfl⟩

theorem Listed.addJoin (h : q.Listed) {j : Join} {q' : Query} (hq : q.addJoin j = .ok q') : q'.Listed := by
  obtain ⟨-, -, -, -, rfl⟩ := addJoin_eq_ok hq
  exact h.modify_of_eq j.left fun _ => ⟨rfl, rfl⟩

theorem Listed.addFilter (h : q.Listed) (table : TableId) (c : Expr) : (q.modify table (·.addFilter c)).Listed :=
  h.modify_of_eq table fun _ => ⟨rfl, rfl⟩

theorem listed_ofItem (hselect : item.select = []) (horder : item.orderBy = []) : (ofItem item).Listed where
  sound := Arena.sound_empty.insert item
  lists id other hother := by
    rw [get?_ofItem] at hother
    split at hother
    next =>
      cases hother
      exact QueryItem.lists_of_nil hselect horder
    next => cases hother

/-- With filters about near tables, all that stands with a table is. -/
theorem Listed.isLocal (h : q.Listed) (hrooted : q.Rooted) (hroot : ∀ a, ¬q.Joined a q.root)
    (hfilter : ∀ id item c, q.get? id = some item → item.filter = some c → c.Names (q.Near id)) : q.Local where
  rooted := hrooted
  rootFree := hroot
  filter := hfilter
  select id item hitem s hs := ((h.lists id item hitem).select s hs).mono fun _ ht => .inl (ht ▸ .refl)
  orderBy id item hitem k hk := ((h.lists id item hitem).orderBy k hk).mono fun _ ht => .inl (ht ▸ .refl)

end Query
end ItemQuery
