import ItemQuery.Proofs.Query.Forest

/-! What a sequence of calls keeps. Whatever a call does, and whether it succeeds or fails, the joins stay a forest;
    the calls that make a table of their own need a handle that is live or stale, since a handle that no call has
    given out yet may turn out to be that of the new table. -/

namespace ItemQuery.Query

open Relation

variable {q q' : Query} {id a b table : TableId} {item : QueryItem} {j : Join}

/-! ### Tables after a call -/

theorem get?_modify (f : QueryItem → QueryItem) (id other : TableId) :
    (q.modify id f).get? other = if other = id then (q.get? id).map f else q.get? other :=
  Arena.get?_modify q.arena f id other

theorem contains_modify (f : QueryItem → QueryItem) (id other : TableId) :
    (q.modify id f).contains other = q.contains other := by
  change ((q.modify id f).get? other).isSome = (q.get? other).isSome
  rw [get?_modify]
  split
  next heq => rw [heq, Option.isSome_map]
  next => rfl

theorem modify_of_not_contains (f : QueryItem → QueryItem) (h : ¬q.contains id = true) : q.modify id f = q := by
  have hnone : q.arena.get? id = none := by
    cases hget : q.arena.get? id with
    | none => rfl
    | some item => exact absurd (contains_iff.mpr ⟨item, hget⟩) h
  rw [modify, Arena.modify, hnone]

theorem get?_addTable (h : q.arena.Sound) (item : QueryItem) (id : TableId) :
    (q.addTable item).2.get? id = if id = (q.addTable item).1 then some item else q.get? id :=
  h.get?_insert item id

theorem ends_of_get? (h : q'.get? id = q.get? id) : q'.ends id = q.ends id := by
  rw [ends, joinsOf, h, ends, joinsOf]

theorem ends_push (j : Join) (ha : q.contains a = true) (id : TableId) :
    (q.modify a fun item => { item with joins := item.joins ++ [j] }).ends id =
      if id = a then q.ends a ++ [(j.left, j.right)] else q.ends id := by
  split
  next heq =>
    obtain ⟨item, hitem⟩ := contains_iff.mp ha
    simp [ends, joinsOf, get?_modify, heq, hitem]
  next hne => exact ends_of_get? (by rw [get?_modify, if_neg hne])

theorem removeTable_of_stale (h : q.get? id = none) : (q.removeTable id).2 = q := by
  have hnone : q.arena.erase id = (none, q.arena) := by
    rw [Arena.erase, show q.arena.get? id = none from h]
  rw [removeTable, hnone]

theorem arena_removeTable (h : q.get? id = some item) :
    (q.removeTable id).2.arena =
      (q.arena.erase id).2.ids.foldl
        (fun a other => a.modify other fun item => { item with joins := item.joins.filter (·.right != id) })
        (q.arena.erase id).2 := by
  have hsome : q.arena.erase id = (some item, (q.arena.erase id).2) := by
    rw [Arena.erase, show q.arena.get? id = some item from h]
  rw [removeTable, hsome]

theorem get?_removeTable (h : q.get? id = some item) (other : TableId) :
    (q.removeTable id).2.get? other =
      if other = id then none
      else (q.get? other).map fun item => { item with joins := item.joins.filter (·.right != id) } := by
  rw [get?, arena_removeTable h, Arena.get?_foldl_ids, Arena.get?_erase h]
  split <;> rfl

/-! ### Steps -/

/-- What every call keeps: sound slots, and joins that form a forest. -/
structure Kept (q : Query) : Prop where
  sound : q.arena.Sound
  rooted : q.Rooted

theorem Kept.modify_ends (h : q.Kept) {f : QueryItem → QueryItem} (hends : ∀ id, (q.modify a f).ends id = q.ends id) :
    (q.modify a f).Kept where
  sound := h.sound.modify a f
  rooted := by
    refine h.rooted.of_sublist (fun id => by rw [hends]) fun id e he => ?_
    rw [contains_modify]
    exact h.rooted.live id e (hends id ▸ he)

theorem ends_addTable (h : q.arena.Sound) (hitem : item.joins = []) (id : TableId) :
    (q.addTable item).2.ends id = if id = (q.addTable item).1 then [] else q.ends id := by
  split
  next heq => simp [ends, joinsOf, get?_addTable h, heq, hitem]
  next hne => exact ends_of_get? (by rw [get?_addTable h, if_neg hne])

theorem contains_addTable (h : q.arena.Sound) (item : QueryItem) (hid : q.contains id = true) :
    (q.addTable item).2.contains id = true := by
  obtain ⟨old, hold⟩ := contains_iff.mp hid
  rw [contains_iff, get?_addTable h]
  split
  next => exact ⟨item, rfl⟩
  next => exact ⟨old, hold⟩

theorem contains_addTable_self (h : q.arena.Sound) (item : QueryItem) :
    (q.addTable item).2.contains (q.addTable item).1 = true :=
  contains_iff.mpr ⟨item, by rw [get?_addTable h, if_pos rfl]⟩

theorem Kept.addTable (h : q.Kept) (hitem : item.joins = []) : (q.addTable item).2.Kept where
  sound := h.sound.insert item
  rooted := by
    have hends : ∀ id, ((q.addTable item).2.ends id).Sublist (q.ends id) := by
      intro id
      rw [ends_addTable h.sound hitem]
      split
      next => exact List.nil_sublist _
      next => exact .refl _
    refine h.rooted.of_sublist hends fun id e he => ?_
    exact contains_addTable h.sound item (h.rooted.live id e ((hends id).mem he))

/-- A new table below a live or stale one; below a stale one it stays alone. -/
theorem Kept.attach (h : q.Kept) (hknown : q.arena.Known table) (hitem : item.joins = []) (hleft : j.left = table)
    (hright : j.right = (q.addTable item).1) :
    ((q.addTable item).2.modify table fun item => { item with joins := item.joins ++ [j] }).Kept := by
  have hadded := h.addTable hitem
  have hne : table ≠ (q.addTable item).1 := h.sound.ne_insert_of_known hknown item
  by_cases htable : (q.addTable item).2.contains table = true
  · refine ⟨hadded.sound.modify _ _, hadded.rooted.of_push (a := table) (b := (q.addTable item).1) ?_ ?_ ?_ ?_ ?_⟩
    · intro id
      rw [ends_push j htable, hleft, hright]
    · intro id hid
      rwa [contains_modify]
    · rw [contains_modify]
      exact contains_addTable_self h.sound item
    · -- Joins lead to tables that were live before.
      intro id e he heq
      rw [ends_addTable h.sound hitem] at he
      split at he
      next => cases he
      next =>
        have hold : q.arena.Known e.2 := .inl (h.rooted.live id e he)
        exact h.sound.ne_insert_of_known hold item heq
    · -- No join starts at the new table.
      intro hback
      rcases hback.cases_head with heq | ⟨c, hstep, -⟩
      · exact hne heq.symm
      · obtain ⟨id, he⟩ := joined_iff.mp hstep
        obtain rfl := hadded.rooted.owned id _ he
        simp [ends_addTable h.sound hitem] at he
  · rw [modify_of_not_contains _ htable]
    exact hadded

theorem Kept.setRoot (h : q.Kept) (id : TableId) : Kept { q with root := id } :=
  ⟨h.sound, h.rooted.of_sublist (fun _ => .refl _) h.rooted.live⟩

/-- A join that is added leads to a table that no join led to, and nothing else changes. -/
theorem addJoin_eq_ok (h : q.addJoin j = .ok q') :
    q.contains j.left = true ∧ q.contains j.right = true ∧ ¬q.isAncestor j.right j.left = true ∧
      q.parentJoin? j.right = none ∧ q' = q.modify j.left fun item => { item with joins := item.joins ++ [j] } := by
  unfold Query.addJoin at h
  split at h
  next => cases h
  next hlive =>
  split at h
  next => cases h
  next hback =>
  split at h
  next => cases h
  next hfirst =>
    simp only [Bool.or_eq_true, Bool.not_eq_true', not_or, Bool.not_eq_false] at hlive
    exact ⟨hlive.1, hlive.2, hback, Option.not_isSome_iff_eq_none.mp hfirst, (Except.ok.inj h).symm⟩

theorem Kept.addJoin (h : q.Kept) (hj : q.addJoin j = .ok q') : q'.Kept := by
  obtain ⟨hleft, hright, hback, hfirst, rfl⟩ := addJoin_eq_ok hj
  rw [h.rooted.forest.isAncestor_iff] at hback
  refine ⟨h.sound.modify _ _, h.rooted.of_push (ends_push j hleft) (fun id hid => ?_) ?_ (fun id e he heq => ?_) hback⟩
  · rwa [contains_modify]
  · rwa [contains_modify]
  · obtain ⟨k, hk, rfl⟩ := List.mem_map.mp he
    have hparent := h.rooted.forest.parentJoin?_eq_some.mpr ⟨mem_joins.mpr ⟨id, hk⟩, heq⟩
    cases hparent.symm.trans hfirst

theorem ends_loosen (p : Join → Bool) (js : List Join) :
    (loosen p js).map (fun j => (j.left, j.right)) = js.map fun j => (j.left, j.right) := by
  induction js with
  | nil => rfl
  | cons j js ih =>
    rw [loosen]
    split
    next => rfl
    next => rw [List.map_cons, ih, List.map_cons]

theorem Kept.joinProperty (h : q.Kept) (hknown : q.arena.Known table) (property : String) (kind : JoinKind) :
    (q.joinProperty table property kind).2.Kept ∧
      (q.joinProperty table property kind).2.contains (q.joinProperty table property kind).1 = true := by
  cases hfind : (q.get? table).bind fun item =>
      item.joins.find? fun j => j.leftProperty == property && j.rightProperty == "id" with
  | some j =>
    obtain ⟨item, hitem, hj⟩ := Option.bind_eq_some_iff.mp hfind
    have hright : q.contains j.right = true := by
      have hmem : j ∈ q.joinsOf table := mem_joinsOf.mpr ⟨item, hitem, List.mem_of_find?_eq_some hj⟩
      exact h.rooted.live table _ (mem_ends_of_mem_joinsOf hmem)
    simp only [Query.joinProperty, hfind]
    split
    next =>
      refine ⟨h.modify_ends fun id => ?_, by rwa [contains_modify]⟩
      by_cases hid : id = table
      · simp [ends, joinsOf, get?_modify, hid, hitem, ends_loosen]
      · exact ends_of_get? (by rw [get?_modify, if_neg hid])
    next => exact ⟨h, hright⟩
  | none =>
    simp only [Query.joinProperty, hfind]
    refine ⟨h.attach hknown rfl rfl rfl, ?_⟩
    rw [contains_modify]
    exact contains_addTable_self h.sound _

theorem Kept.follow (h : q.Kept) (hknown : q.arena.Known table) (kind : JoinKind) (path : List String) :
    (q.follow table kind path).2.Kept := by
  fun_induction Query.follow q table kind path with
  | case1 => exact h
  | case2 => exact h
  | case3 q table step path _ next q' hnext ih =>
    obtain ⟨hkept, hlive⟩ := h.joinProperty hknown step kind
    rw [hnext] at hkept hlive
    exact ih hkept (.inl hlive)

theorem Kept.removeTable (h : q.Kept) (id : TableId) : (q.removeTable id).2.Kept := by
  cases hget : q.get? id with
  | none =>
    rw [removeTable_of_stale hget]
    exact h
  | some item =>
    refine ⟨?_, h.rooted.of_sublist (fun other => ?_) fun other e he => ?_⟩
    · rw [arena_removeTable hget]
      exact List.foldlRecOn _ _ (h.sound.erase hget) fun a ha other _ => ha.modify other _
    · simp only [ends, joinsOf, get?_removeTable hget]
      split
      next => exact List.nil_sublist _
      next =>
        cases q.get? other with
        | none => exact .refl _
        | some item => exact (List.filter_sublist).map _
    · obtain ⟨k, hk, rfl⟩ := List.mem_map.mp he
      obtain ⟨new, hnew, hmem⟩ := mem_joinsOf.mp hk
      rw [get?_removeTable hget] at hnew
      split at hnew
      next => cases hnew
      next =>
        obtain ⟨old, hold, rfl⟩ := Option.map_eq_some_iff.mp hnew
        obtain ⟨hmem, hne⟩ := List.mem_filter.mp hmem
        have hlive := h.rooted.live other _ (mem_ends_of_mem_joinsOf (mem_joinsOf.mpr ⟨old, hold, hmem⟩))
        obtain ⟨right, hright⟩ := contains_iff.mp hlive
        rw [contains_iff, get?_removeTable hget, if_neg (by simpa using hne), hright]
        exact ⟨_, rfl⟩

/-! ### Runs -/

/-- The calls that change tables, joins or the root. -/
inductive Call where
  | addTable (item : QueryItem)
  | addJoin (j : Join)
  | joinProperty (table : TableId) (property : String) (kind : JoinKind)
  | propertyPath (table : TableId) (path : String) (kind : JoinKind)
  | addRelationship (source : TableId) (typeName : String)
  | setRoot (id : TableId)
  | removeTable (id : TableId)

/-- The query after a call; a call that fails leaves it as it was. -/
def after (q : Query) : Call → Query
  | .addTable item => (q.addTable item).2
  | .addJoin j => (q.addJoin j).toOption.getD q
  | .joinProperty table property kind => (q.joinProperty table property kind).2
  | .propertyPath table path kind => (q.propertyPath table path kind).2
  | .addRelationship source typeName => (q.addRelationship source typeName).2
  | .setRoot id => (q.setRoot id).toOption.getD q
  | .removeTable id => (q.removeTable id).2

/-- New tables have no joins yet, and the handles of tables to join others to are live or stale. -/
def Call.Admissible (q : Query) : Call → Prop
  | .addTable item => item.joins = []
  | .joinProperty table _ _ | .propertyPath table _ _ | .addRelationship table _ => q.arena.Known table
  | .addJoin _ | .setRoot _ | .removeTable _ => True

/-- The queries that calls lead to from one table without joins. -/
inductive Reached : Query → Prop
  | start {item : QueryItem} (hitem : item.joins = []) : Reached (ofItem item)
  | call {q : Query} {c : Call} (hq : Reached q) (hc : c.Admissible q) : Reached (q.after c)

theorem Kept.after (h : q.Kept) {c : Call} (hc : c.Admissible q) : (q.after c).Kept := by
  cases c with
  | addTable item => exact h.addTable hc
  | addJoin j =>
    rw [Query.after]
    cases hj : q.addJoin j with
    | error err => exact h
    | ok q' => exact h.addJoin hj
  | joinProperty table property kind => exact (h.joinProperty hc property kind).1
  | propertyPath table path kind => exact h.follow hc kind _
  | addRelationship source typeName => exact h.attach hc rfl rfl rfl
  | setRoot id =>
    rw [Query.after, Query.setRoot]
    split
    next => exact h.setRoot id
    next => exact h
  | removeTable id => exact h.removeTable id

theorem kept_ofItem (hitem : item.joins = []) : (ofItem item).Kept := by
  have hends : ∀ id, (ofItem item).ends id = [] := by
    intro id
    have hget : (ofItem item).get? id = if id = (ofItem item).root then some item else none :=
      Arena.sound_empty.get?_insert item id
    rw [ends, joinsOf, hget]
    split
    next => simp [hitem]
    next => rfl
  exact ⟨Arena.sound_empty.insert item, rooted_of_ends_eq_nil hends⟩

theorem Reached.kept (h : Reached q) : q.Kept := by
  induction h with
  | start hitem => exact kept_ofItem hitem
  | call _ hc ih => exact ih.after hc

/-! ### Handles over a run -/

/-- What insertions and changes keep, following a foreign key keeps. -/
theorem arena_joinProperty {P : Arena QueryItem → Prop} (hinsert : ∀ a item, P a → P (a.insert item).2)
    (hmodify : ∀ a id f, P a → P (a.modify id f)) (h : P q.arena) (table : TableId) (property : String)
    (kind : JoinKind) : P (q.joinProperty table property kind).2.arena := by
  cases hfind : (q.get? table).bind fun item =>
      item.joins.find? fun j => j.leftProperty == property && j.rightProperty == "id" with
  | some j =>
    simp only [Query.joinProperty, hfind]
    split
    next => exact hmodify _ _ _ h
    next => exact h
  | none =>
    simp only [Query.joinProperty, hfind]
    exact hmodify _ _ _ (hinsert _ _ h)

theorem arena_follow {P : Arena QueryItem → Prop} (hinsert : ∀ a item, P a → P (a.insert item).2)
    (hmodify : ∀ a id f, P a → P (a.modify id f)) (h : P q.arena) (table : TableId) (kind : JoinKind)
    (path : List String) : P (q.follow table kind path).2.arena := by
  fun_induction Query.follow q table kind path with
  | case1 => exact h
  | case2 => exact h
  | case3 q table step path _ next q' hnext ih =>
    have hstep := arena_joinProperty hinsert hmodify h table step kind
    rw [hnext] at hstep
    exact ih hstep

/-- What insertions, changes and one removal keep, a call keeps. -/
theorem arena_after {P : Arena QueryItem → Prop} (hinsert : ∀ a item, P a → P (a.insert item).2)
    (hmodify : ∀ a id f, P a → P (a.modify id f)) (h : P q.arena)
    (herase : ∀ id item, q.get? id = some item → P (q.arena.erase id).2) (c : Call) : P (q.after c).arena := by
  cases c with
  | addTable item => exact hinsert _ item h
  | addJoin j =>
    rw [after, addJoin]
    split
    next => exact h
    next =>
    split
    next => exact h
    next =>
    split
    next => exact h
    next => exact hmodify _ _ _ h
  | joinProperty table property kind => exact arena_joinProperty hinsert hmodify h table property kind
  | propertyPath table path kind => exact arena_follow hinsert hmodify h table kind _
  | addRelationship source typeName => exact hmodify _ _ _ (hinsert _ _ h)
  | setRoot id =>
    rw [after, setRoot]
    split
    next => exact h
    next => exact h
  | removeTable id =>
    rw [after]
    cases hget : q.get? id with
    | none =>
      rw [removeTable_of_stale hget]
      exact h
    | some item =>
      rw [arena_removeTable hget]
      exact List.foldlRecOn _ _ (motive := P) (herase id item hget) fun a ha other _ => hmodify _ _ _ ha

/-- The count that the slots keep is that of the tables. -/
theorem Reached.size_arena (h : Reached q) : q.arena.size = q.tableCount := by
  have hcounted : q.arena.Counted := by
    induction h with
    | start _ => exact Arena.counted_empty.insert _
    | call _ _ ih =>
      exact arena_after (fun _ item ha => ha.insert item) (fun _ id f ha => ha.modify id f) ih
        (fun _ _ hid => ih.erase hid) _
  exact hcounted.size

/-- A call frees at most one slot. -/
theorem freedAtMost_after {n : Nat} (hsound : q.arena.Sound) (h : q.arena.FreedAtMost id n) (c : Call) :
    (q.after c).arena.Sound ∧ (q.after c).arena.FreedAtMost id (n + 1) :=
  arena_after (P := fun a => a.Sound ∧ a.FreedAtMost id (n + 1))
    (fun _ item ha => ⟨ha.1.insert item, ha.2.insert ha.1 item⟩)
    (fun _ other f ha => ⟨ha.1.modify other f, ha.2.modify other f⟩) ⟨hsound, h.mono (Nat.le_succ n)⟩
    (fun _ _ hother => ⟨hsound.erase hother, h.erase hother⟩) c

/-- A handle that was given out stays live or stale until its slot was freed `2 ^ 32` times, hence as long as fewer
    calls follow. -/
theorem known_foldl_after (hsound : q.arena.Sound) (hid : q.contains id = true) (cs : List Call)
    (hcs : cs.length < 2 ^ 32) : (cs.foldl after q).arena.Known id := by
  have hrun : ∀ (cs : List Call) {q : Query} {n : Nat}, q.arena.Sound → q.arena.FreedAtMost id n →
      (cs.foldl after q).arena.FreedAtMost id (n + cs.length) := by
    intro cs
    induction cs with
    | nil => exact fun _ h => h
    | cons c cs ih =>
      intro q n hsound h
      obtain ⟨hsound', h'⟩ := freedAtMost_after hsound h c
      have hrest := ih hsound' h'
      rwa [Nat.add_assoc, Nat.add_comm 1] at hrest
  have hfreed := hrun cs hsound (Arena.freedAtMost_of_contains hid)
  rw [Nat.zero_add] at hfreed
  exact Arena.known_of_freedAtMost hfreed hcs

end ItemQuery.Query
