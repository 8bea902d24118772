import ItemQuery.Proofs.Query.Traversal

/-! Queries that grow from their root. A table is only ever added below a live one, behind a foreign key that had no
    table yet or as a relationship, so the joins stay a tree that holds all tables, and no two foreign keys of a
    table are the same property. Whether a join keeps rows without a partner matters for none of this, so joins are
    compared but for their kind. -/

namespace ItemQuery

/-- The join with its kind left out of account. -/
def Join.link (j : Join) : Join :=
  { j with kind := .inner }

namespace Query

open Relation

variable {q q' q'' : Query} {id a b table : TableId} {item : QueryItem} {j : Join} {f : QueryItem → QueryItem}

/-! ### Links -/

/-- The joins stored on a table, but for their kind. -/
def links (q : Query) (id : TableId) : List Join :=
  (q.joinsOf id).map Join.link

theorem ends_eq_map_links : q.ends id = (q.links id).map fun j => (j.left, j.right) := by
  rw [links, List.map_map]
  rfl

theorem keyed_eq_map_links : q.keyed id = ((q.links id).filter (·.isForeignKey)).map (·.right) := by
  have hkeyed : q.keyed id = ((q.joinsOf id).filter (·.isForeignKey)).map (·.right) := by
    unfold keyed joinsOf
    cases q.get? id <;> rfl
  rw [hkeyed, links, List.filter_map, List.map_map]
  rfl

theorem exists_join_iff_exists_link {p : Join → Prop} (hp : ∀ j : Join, p j.link ↔ p j) :
    (∃ j ∈ q.joins, p j) ↔ ∃ id, ∃ j ∈ q.links id, p j := by
  simp only [mem_joins, links, List.mem_map]
  constructor
  · rintro ⟨j, ⟨id, hj⟩, hpj⟩
    exact ⟨id, _, ⟨j, hj, rfl⟩, (hp j).mpr hpj⟩
  · rintro ⟨id, -, ⟨j, hj, rfl⟩, hpj⟩
    exact ⟨j, ⟨id, hj⟩, (hp j).mp hpj⟩

theorem links_of_get? (h : q'.get? id = q.get? id) : q'.links id = q.links id := by
  rw [links, joinsOf, h, links, joinsOf]

theorem links_of_not_contains (h : ¬q.contains id = true) : q.links id = [] := by
  rw [links, List.map_eq_nil_iff]
  refine List.eq_nil_iff_forall_not_mem.mpr fun j hj => h (contains_of_mem_joinsOf hj)

theorem links_modify (hf : ∀ item, (f item).joins.map Join.link = item.joins.map Join.link) (a id : TableId) :
    (q.modify a f).links id = q.links id := by
  by_cases hid : id = a
  · rw [links, joinsOf, get?_modify, if_pos hid, links, joinsOf, hid]
    cases q.get? a with
    | none => rfl
    | some item => exact hf item
  · exact links_of_get? (by rw [get?_modify, if_neg hid])

theorem map_link_loosen (p : Join → Bool) (js : List Join) : (loosen p js).map Join.link = js.map Join.link := by
  induction js with
  | nil => rfl
  | cons j js ih =>
    rw [loosen]
    split
    next => rfl
    next => rw [List.map_cons, ih, List.map_cons]

/-! ### Heads -/

/-- The table is the root or a relationship; all others are found by following foreign keys from such a table. -/
def Heads (q : Query) (id : TableId) : Prop :=
  id = q.root ∨ ∃ j ∈ q.joins, j.isForeignKey = false ∧ j.right = id

/-- Foreign keys alone lead from `a` to `b`. -/
def Behind (q : Query) (a b : TableId) : Prop :=
  ReflTransGen (fun x y => y ∈ q.keyed x) a b

/-- A foreign key of this name leads from `a` to `b`. -/
def Leads (q : Query) (a : TableId) (name : String) (b : TableId) : Prop :=
  ∃ j ∈ q.links a, j.isForeignKey = true ∧ j.leftProperty = name ∧ j.right = b

theorem mem_keyed_iff : b ∈ q.keyed a ↔ ∃ name, q.Leads a name b := by
  simp only [keyed_eq_map_links, List.mem_map, List.mem_filter, Leads]
  constructor
  · rintro ⟨j, ⟨hj, hkey⟩, hright⟩
    exact ⟨j.leftProperty, j, hj, hkey, rfl, hright⟩
  · rintro ⟨name, j, hj, hkey, -, hright⟩
    exact ⟨j, ⟨hj, hkey⟩, hright⟩

theorem Leads.mem_keyed {name : String} (h : q.Leads a name b) : b ∈ q.keyed a :=
  mem_keyed_iff.mpr ⟨name, h⟩

theorem heads_iff_exists_link :
    q.Heads id ↔ id = q.root ∨ ∃ a, ∃ j ∈ q.links a, j.isForeignKey = false ∧ j.right = id :=
  or_congr .rfl (exists_join_iff_exists_link fun _ => .rfl)

theorem joined_iff_exists_link : q.Joined a b ↔ ∃ id, ∃ j ∈ q.links id, j.left = a ∧ j.right = b :=
  exists_join_iff_exists_link fun _ => .rfl

/-! ### Extensions -/

/-- The query has the tables and links of `q`, and may have more. -/
structure Extends (q q' : Query) : Prop where
  root : q'.root = q.root
  live : ∀ id, q.contains id = true → q'.contains id = true
  links : ∀ id, q.links id <+: q'.links id

namespace Extends

theorem refl (q : Query) : q.Extends q :=
  ⟨rfl, fun _ h => h, fun _ => List.prefix_refl _⟩

theorem trans (h : q.Extends q') (h' : q'.Extends q'') : q.Extends q'' :=
  ⟨h'.root.trans h.root, fun id hid => h'.live id (h.live id hid), fun id => (h.links id).trans (h'.links id)⟩

theorem of_links_eq (hroot : q'.root = q.root) (hlive : ∀ id, q.contains id = true → q'.contains id = true)
    (hlinks : ∀ id, q'.links id = q.links id) : q.Extends q' :=
  ⟨hroot, hlive, fun id => (hlinks id).symm ▸ List.prefix_refl _⟩

theorem leads (h : q.Extends q') {name : String} (hb : q.Leads a name b) : q'.Leads a name b := by
  obtain ⟨j, hj, hkey⟩ := hb
  exact ⟨j, (h.links a).subset hj, hkey⟩

theorem mem_keyed (h : q.Extends q') (hb : b ∈ q.keyed a) : b ∈ q'.keyed a := by
  obtain ⟨name, hb⟩ := mem_keyed_iff.mp hb
  exact (h.leads hb).mem_keyed

theorem behind (h : q.Extends q') (hab : q.Behind a b) : q'.Behind a b :=
  ReflTransGen.mono (fun _ _ => h.mem_keyed) _ _ hab

theorem joined (h : q.Extends q') (hab : q.Joined a b) : q'.Joined a b := by
  obtain ⟨id, j, hj, hends⟩ := joined_iff_exists_link.mp hab
  exact joined_iff_exists_link.mpr ⟨id, j, (h.links id).subset hj, hends⟩

theorem heads (h : q.Extends q') (hid : q.Heads id) : q'.Heads id := by
  rw [heads_iff_exists_link] at hid ⊢
  rcases hid with rfl | ⟨a, j, hj, hends⟩
  · exact .inl h.root.symm
  · exact .inr ⟨a, j, (h.links a).subset hj, hends⟩

end Extends

/-! ### Trees -/

/-- What growth keeps. -/
structure Grown (q : Query) : Prop where
  kept : q.Kept
  rootLive : q.contains q.root = true
  reached : ∀ id, q.contains id = true → ReflTransGen q.Joined q.root id
  distinct : ∀ id, (((q.links id).filter (·.isForeignKey)).map (·.leftProperty)).Nodup
  shape : ∀ id, ∀ j ∈ q.links id, j.isForeignKey = true ↔ j.rightProperty = "id"

theorem get?_ofItem : (ofItem item).get? id = if id = (ofItem item).root then some item else none :=
  Arena.sound_empty.get?_insert item id

theorem links_ofItem (hitem : item.joins = []) : (ofItem item).links id = [] := by
  rw [links, joinsOf, get?_ofItem]
  split
  next => simp [hitem]
  next => rfl

theorem grown_ofItem (hitem : item.joins = []) : (ofItem item).Grown := by
  refine ⟨kept_ofItem hitem, contains_iff.mpr ⟨item, by rw [get?_ofItem, if_pos rfl]⟩, fun id hid => ?_, fun id => ?_,
    fun id j hj => ?_⟩
  · obtain ⟨other, hother⟩ := contains_iff.mp hid
    rw [get?_ofItem] at hother
    split at hother
    next heq => exact heq ▸ .refl
    next => cases hother
  · simp [links_ofItem hitem]
  · simp [links_ofItem hitem] at hj

/-- A change that leaves the links of the table. -/
theorem Grown.modify (h : q.Grown) (hf : ∀ item, (f item).joins.map Join.link = item.joins.map Join.link)
    (a : TableId) : (q.modify a f).Grown ∧ q.Extends (q.modify a f) := by
  have hlinks := links_modify (q := q) hf a
  have hext : q.Extends (q.modify a f) := .of_links_eq rfl (fun id hid => by rwa [contains_modify]) hlinks
  refine ⟨⟨h.kept.modify_ends fun id => ?_, ?_, fun id hid => ?_, fun id => ?_, fun id => ?_⟩, hext⟩
  · rw [ends_eq_map_links, hlinks, ends_eq_map_links]
  · exact hext.live _ h.rootLive
  · rw [contains_modify] at hid
    exact ReflTransGen.mono (fun _ _ => hext.joined) _ _ (h.reached id hid)
  · rw [hlinks]
    exact h.distinct id
  · rw [hlinks]
    exact h.shape id

/-! ### New tables -/

/-- A new table below `table`. -/
def attach (q : Query) (table : TableId) (item : QueryItem) (j : Join) : Query :=
  (q.addTable item).2.modify table fun item => { item with joins := item.joins ++ [j] }

theorem Kept.not_contains_new (h : q.Kept) (item : QueryItem) : ¬q.contains (q.addTable item).1 = true :=
  fun hnew => h.sound.ne_insert_of_known (.inl hnew) item rfl

theorem Kept.get?_attach (h : q.Kept) (item : QueryItem) (j : Join) (htable : q.contains table = true)
    (id : TableId) :
    (q.attach table item j).get? id =
      if id = (q.addTable item).1 then some item
      else if id = table then (q.get? id).map fun item => { item with joins := item.joins ++ [j] }
      else q.get? id := by
  have hne : table ≠ (q.addTable item).1 := fun heq => h.not_contains_new item (heq ▸ htable)
  rw [Query.attach, get?_modify, get?_addTable h.sound, get?_addTable h.sound, if_neg hne]
  by_cases hid : id = table
  · rw [if_pos hid, hid, if_neg hne, if_pos rfl]
  · rw [if_neg hid, if_neg hid]

theorem Kept.links_attach (h : q.Kept) (hitem : item.joins = []) (htable : q.contains table = true) (id : TableId) :
    (q.attach table item j).links id = if id = table then q.links table ++ [j.link] else q.links id := by
  have hget := h.get?_attach item j htable
  by_cases hnew : id = (q.addTable item).1
  · have hstale : ¬q.contains id = true := hnew ▸ h.not_contains_new item
    have hne : id ≠ table := fun heq => hstale (heq ▸ htable)
    rw [if_neg hne, q.links_of_not_contains hstale, links, joinsOf, hget, if_pos hnew]
    simp [hitem]
  · split
    next heq =>
      obtain ⟨old, hold⟩ := contains_iff.mp htable
      rw [links, joinsOf, hget, if_neg hnew, if_pos heq, heq, links, joinsOf, hold]
      simp
    next hne => exact links_of_get? (by rw [hget, if_neg hnew, if_neg hne])

theorem Kept.contains_attach (h : q.Kept) (item : QueryItem) (j : Join) (htable : q.contains table = true) :
    (q.attach table item j).contains id = true ↔ id = (q.addTable item).1 ∨ q.contains id = true := by
  rw [contains_iff, contains_iff, h.get?_attach item j htable]
  split
  next hnew => simp [hnew]
  next hnew =>
    simp only [hnew, false_or]
    split
    next => cases q.get? id <;> simp
    next => rfl

theorem Kept.extends_attach (h : q.Kept) (item : QueryItem) (hitem : item.joins = []) (htable : q.contains table = true) :
    q.Extends (q.attach table item j) := by
  refine ⟨rfl, fun id hid => (h.contains_attach item j htable).mpr (.inr hid), fun id => ?_⟩
  rw [h.links_attach hitem htable]
  split
  next heq => exact heq ▸ List.prefix_append _ _
  next => exact List.prefix_refl _

/-- The join to the new table is the only new one. -/
theorem Kept.mem_links_attach (h : q.Kept) (hitem : item.joins = []) (htable : q.contains table = true) {k : Join}
    (hk : k ∈ (q.attach table item j).links id) : k ∈ q.links id ∨ (id = table ∧ k = j.link) := by
  rw [h.links_attach hitem htable] at hk
  split at hk
  next heq => simpa [heq] using hk
  next => exact .inl hk

/-- No two foreign keys of a table are the same property, and foreign keys are told by the property that they lead to. -/
structure Regular (q : Query) : Prop where
  kept : q.Kept
  distinct : ∀ id, (((q.links id).filter (·.isForeignKey)).map (·.leftProperty)).Nodup
  shape : ∀ id, ∀ j ∈ q.links id, j.isForeignKey = true ↔ j.rightProperty = "id"

theorem Grown.regular (h : q.Grown) : q.Regular :=
  ⟨h.kept, h.distinct, h.shape⟩

theorem Regular.attach (h : q.Regular) (item : QueryItem) (hitem : item.joins = []) (htable : q.contains table = true)
    (hleft : j.left = table) (hright : j.right = (q.addTable item).1)
    (hshape : j.isForeignKey = true ↔ j.rightProperty = "id")
    (hfirst : j.isForeignKey = true → ∀ k ∈ q.links table, k.isForeignKey = true → k.leftProperty ≠ j.leftProperty) :
    (q.attach table item j).Regular := by
  refine ⟨h.kept.attach (.inl htable) hitem hleft hright, fun id => ?_, fun id k hk => ?_⟩
  · rw [h.kept.links_attach hitem htable]
    split
    next =>
      rw [List.filter_append, List.map_append, List.nodup_append]
      refine ⟨h.distinct table, ?_, fun name hname name' hname' => ?_⟩
      · exact (List.nodup_singleton _).sublist (List.filter_sublist.map _)
      · obtain ⟨k, hk, rfl⟩ := List.mem_map.mp hname
        obtain ⟨k', hk', rfl⟩ := List.mem_map.mp hname'
        obtain ⟨hk, hkey⟩ := List.mem_filter.mp hk
        obtain ⟨hk', hkey'⟩ := List.mem_filter.mp hk'
        obtain rfl := List.mem_singleton.mp hk'
        exact hfirst hkey' k hk hkey
    next => exact h.distinct id
  · rcases h.kept.mem_links_attach hitem htable hk with hk | ⟨-, rfl⟩
    · exact h.shape id k hk
    · exact hshape

theorem Grown.attach (h : q.Grown) (item : QueryItem) (hitem : item.joins = []) (htable : q.contains table = true)
    (hleft : j.left = table) (hright : j.right = (q.addTable item).1)
    (hshape : j.isForeignKey = true ↔ j.rightProperty = "id")
    (hfirst : j.isForeignKey = true → ∀ k ∈ q.links table, k.isForeignKey = true → k.leftProperty ≠ j.leftProperty) :
    (q.attach table item j).Grown := by
  have hext : q.Extends (q.attach table item j) := h.kept.extends_attach item hitem htable
  have hjoined : (q.attach table item j).Joined table (q.addTable item).1 := by
    refine joined_iff_exists_link.mpr ⟨table, j.link, ?_, hleft, hright⟩
    rw [h.kept.links_attach hitem htable, if_pos rfl]
    exact List.mem_append_right _ List.mem_cons_self
  have hold : ∀ id, q.contains id = true → ReflTransGen (q.attach table item j).Joined q.root id := fun id hid =>
    ReflTransGen.mono (fun _ _ => hext.joined) _ _ (h.reached id hid)
  obtain ⟨hkept, hdistinct, hshape'⟩ := h.regular.attach item hitem htable hleft hright hshape hfirst
  refine ⟨hkept, hext.live _ h.rootLive, fun id hid => ?_, hdistinct, hshape'⟩
  rcases (h.kept.contains_attach item j htable).mp hid with rfl | hid
  · exact (hold table htable).tail hjoined
  · exact hold id hid

theorem Grown.heads_attach (h : q.Grown) (hitem : item.joins = []) (htable : q.contains table = true)
    (hid : (q.attach table item j).Heads id) : q.Heads id ∨ (j.isForeignKey = false ∧ j.right = id) := by
  rw [heads_iff_exists_link] at hid ⊢
  rcases hid with hroot | ⟨a, k, hk, hends⟩
  · exact .inl (.inl hroot)
  · rcases h.kept.mem_links_attach hitem htable hk with hk | ⟨-, rfl⟩
    · exact .inl (.inr ⟨a, k, hk, hends⟩)
    · exact .inr hends

theorem Grown.contains_of_mem_keyed (h : q.Grown) (hb : b ∈ q.keyed a) : q.contains b = true :=
  (h.kept.rooted.forest.contains_of_joined (h.kept.rooted.forest.joined_of_mem_keyed hb)).2

/-- What stands behind a foreign key is neither root nor relationship. -/
theorem Grown.not_heads_of_mem_keyed (h : q.Grown) (hb : b ∈ q.keyed a) : ¬q.Heads b := by
  have hjoined : q.Joined a b := h.kept.rooted.forest.joined_of_mem_keyed hb
  rintro (rfl | ⟨k, hk, hkind, hright⟩)
  · have hback := h.reached a (h.kept.rooted.forest.contains_of_joined hjoined).1
    exact h.kept.rooted.acyclic _ (.tail' hback hjoined)
  · obtain ⟨name, j', hj', hkey, -, hright'⟩ := mem_keyed_iff.mp hb
    obtain ⟨j, hj, rfl⟩ := List.mem_map.mp hj'
    have heq : j = k := by
      have hparent := h.kept.rooted.forest.parentJoin?_eq_some.mpr ⟨mem_joins.mpr ⟨a, hj⟩, hright'⟩
      have hparent' := h.kept.rooted.forest.parentJoin?_eq_some.mpr ⟨hk, hright⟩
      exact Option.some.inj (hparent.symm.trans hparent')
    subst heq
    exact absurd (hkind.symm.trans hkey) nofun

/-! ### Filters and types -/

/-- The filter of a table, if there is one. -/
def filterOf (q : Query) (id : TableId) : Option Expr :=
  (q.get? id).bind (·.filter)

/-- The type name of a table, if there is one. -/
def typeOf (q : Query) (id : TableId) : Option String :=
  (q.get? id).bind (·.typeName)

/-- The query has the tables and links of `q`, more of them only behind foreign keys, and all filters and types
    stay. -/
structure Widens (q q' : Query) : Prop extends q.Extends q' where
  heads_iff : ∀ id, q'.Heads id ↔ q.Heads id
  filterOf : ∀ id, q'.filterOf id = q.filterOf id
  typeOf : ∀ id, q'.typeOf id = q.typeOf id

theorem Widens.refl (q : Query) : q.Widens q :=
  ⟨.refl q, fun _ => .rfl, fun _ => rfl, fun _ => rfl⟩

theorem Widens.trans (h : q.Widens q') (h' : q'.Widens q'') : q.Widens q'' :=
  ⟨h.toExtends.trans h'.toExtends, fun id => (h'.heads_iff id).trans (h.heads_iff id),
    fun id => (h'.filterOf id).trans (h.filterOf id), fun id => (h'.typeOf id).trans (h.typeOf id)⟩

theorem heads_modify (hf : ∀ item, (f item).joins.map Join.link = item.joins.map Join.link) (a : TableId) :
    (q.modify a f).Heads id ↔ q.Heads id := by
  simp only [heads_iff_exists_link, links_modify hf]
  rfl

theorem bind_get?_modify {α : Type} {view : QueryItem → Option α} (hf : ∀ item, view (f item) = view item)
    (a id : TableId) : ((q.modify a f).get? id).bind view = (q.get? id).bind view := by
  rw [get?_modify]
  split
  next heq =>
    rw [heq]
    cases q.get? a with
    | none => rfl
    | some item => exact hf item
  next => rfl

theorem Grown.widens_modify (h : q.Grown) (hjoins : ∀ item, (f item).joins.map Join.link = item.joins.map Join.link)
    (hfilter : ∀ item, (f item).filter = item.filter) (htype : ∀ item, (f item).typeName = item.typeName)
    (a : TableId) : (q.modify a f).Grown ∧ q.Widens (q.modify a f) :=
  ⟨(h.modify hjoins a).1, (h.modify hjoins a).2, fun _ => heads_modify hjoins a, bind_get?_modify hfilter a,
    bind_get?_modify htype a⟩

/-- A new table without filter and type shows in no view of filters and types. -/
theorem Grown.bind_get?_attach {α : Type} {view : QueryItem → Option α} (h : q.Grown) (htable : q.contains table = true)
    (hview : ∀ item js, view { item with joins := js } = view item) (hid : id = (q.addTable item).1 → view item = none) :
    ((q.attach table item j).get? id).bind view = (q.get? id).bind view := by
  rw [h.kept.get?_attach item j htable]
  split
  next hnew =>
    have hnone : q.get? id = none := by
      cases hget : q.get? id with
      | none => rfl
      | some old => exact absurd (contains_iff.mpr ⟨old, hnew ▸ hget⟩) (h.kept.not_contains_new item)
    rw [hnone]
    exact hid hnew
  next =>
    split
    next =>
      cases q.get? id with
      | none => rfl
      | some old => exact hview old _
    next => rfl

/-- The table behind a foreign key is there, or comes new. -/
theorem Grown.joinProperty (h : q.Grown) (htable : q.contains table = true) (property : String) (kind : JoinKind) :
    (q.joinProperty table property kind).2.Grown ∧ q.Widens (q.joinProperty table property kind).2 ∧
      (q.joinProperty table property kind).2.Leads table property (q.joinProperty table property kind).1 := by
  cases hfind : (q.get? table).bind fun item =>
      item.joins.find? fun j => j.leftProperty == property && j.rightProperty == "id" with
  | some j =>
    obtain ⟨item, hitem, hj⟩ := Option.bind_eq_some_iff.mp hfind
    have hlink : j.link ∈ q.links table :=
      List.mem_map_of_mem (mem_joinsOf.mpr ⟨item, hitem, List.mem_of_find?_eq_some hj⟩)
    have hleads : q.Leads table property j.right := by
      have hshape := List.find?_some hj
      simp only [Bool.and_eq_true, beq_iff_eq] at hshape
      exact ⟨j.link, hlink, (h.shape table _ hlink).mpr hshape.2, hshape.1, rfl⟩
    simp only [Query.joinProperty, hfind]
    split
    next =>
      obtain ⟨hgrown, hwidens⟩ := h.widens_modify (f := fun item => { item with joins := loosen _ item.joins })
        (fun item => map_link_loosen _ item.joins) (fun _ => rfl) (fun _ => rfl) table
      exact ⟨hgrown, hwidens, hwidens.leads hleads⟩
    next => exact ⟨h, .refl q, hleads⟩
  | none =>
    obtain ⟨item, hitem⟩ := contains_iff.mp htable
    have hfirst : ∀ k ∈ q.links table, k.isForeignKey = true → k.leftProperty ≠ property := by
      intro k hk hkey hname
      have hshape := (h.shape table k hk).mp hkey
      obtain ⟨j, hj, rfl⟩ := List.mem_map.mp hk
      rw [hitem, Option.bind_some, List.find?_eq_none] at hfind
      rw [joinsOf, hitem] at hj
      refine hfind j hj ?_
      simpa using ⟨hname, hshape⟩
    simp only [Query.joinProperty, hfind]
    generalize hnew : ({ provider := some ⟨table, property⟩ } : QueryItem) = new
    have hjoins : new.joins = [] := hnew ▸ rfl
    have hgrown := h.attach (j := ⟨table, (q.addTable new).1, kind, .oneToOne, property, "id"⟩) new hjoins htable rfl rfl
      (by simp [Join.isForeignKey]) fun _ => hfirst
    have hext := h.kept.extends_attach (j := ⟨table, (q.addTable new).1, kind, .oneToOne, property, "id"⟩) new hjoins htable
    refine ⟨hgrown, ⟨hext, fun id => ⟨fun hid => ?_, hext.heads⟩, fun id => ?_, fun id => ?_⟩, ?_⟩
    · rcases h.heads_attach hjoins htable hid with hid | ⟨hkind, -⟩
      · exact hid
      · cases hkind
    · exact h.bind_get?_attach htable (fun _ _ => rfl) fun _ => hnew ▸ rfl
    · exact h.bind_get?_attach htable (fun _ _ => rfl) fun _ => hnew ▸ rfl
    · refine ⟨Join.link ⟨table, (q.addTable new).1, kind, .oneToOne, property, "id"⟩, ?_, rfl, rfl, rfl⟩
      change _ ∈ (q.attach table new _).links table
      rw [h.kept.links_attach hjoins htable, if_pos rfl]
      exact List.mem_append_right _ List.mem_cons_self

/-- A relationship is the only new head. -/
theorem Grown.addRelationship (h : q.Grown) (htable : q.contains table = true) (typeName : String) :
    (q.addRelationship table typeName).2.Grown ∧ q.Extends (q.addRelationship table typeName).2 ∧
      (q.addRelationship table typeName).2.contains (q.addRelationship table typeName).1 = true ∧
      (∀ id, (q.addRelationship table typeName).2.Heads id ↔ q.Heads id ∨ id = (q.addRelationship table typeName).1) ∧
      (∀ id, (q.addRelationship table typeName).2.filterOf id = q.filterOf id) ∧
      ∀ id, id ≠ (q.addRelationship table typeName).1 →
        (q.addRelationship table typeName).2.typeOf id = q.typeOf id := by
  let j : Join := ⟨table, (q.addTable (.ofType typeName)).1, .inner, .oneToMany, "id", "source_id"⟩
  have hgrown := h.attach (j := j) (.ofType typeName) rfl htable rfl rfl (by simp [j, Join.isForeignKey]) nofun
  have hext := h.kept.extends_attach (j := j) (.ofType typeName) rfl htable
  refine ⟨hgrown, hext, (h.kept.contains_attach _ j htable).mpr (.inl rfl), fun id => ⟨fun hid => ?_, ?_⟩,
    fun id => ?_, fun id hid => ?_⟩
  · rcases h.heads_attach rfl htable hid with hid | ⟨-, hright⟩
    · exact .inl hid
    · exact .inr hright.symm
  · rintro (hid | rfl)
    · exact hext.heads hid
    · refine heads_iff_exists_link.mpr (.inr ⟨table, j.link, ?_, rfl, rfl⟩)
      rw [show (q.addRelationship table typeName).2 = q.attach table (.ofType typeName) j from rfl,
        h.kept.links_attach rfl htable, if_pos rfl]
      exact List.mem_append_right _ List.mem_cons_self
  · exact h.bind_get?_attach htable (fun _ _ => rfl) fun _ => rfl
  · exact h.bind_get?_attach htable (fun _ _ => rfl) fun hnew => absurd hnew hid

end Query
end ItemQuery
