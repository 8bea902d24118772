import Mathlib.Data.List.Chain
import Mathlib.Logic.Relation
import ItemQuery.Proofs.Query.Handles

/-! Joins form a forest: each is stored on its left table, both its ends are live, no table is the right end of two,
    and no way along the joins leads back to its start. Only the ends of joins matter for that, and a call can do
    three things to them: leave them or drop some, add a join to a table that is no ancestor of the left one, or add
    a join to a new table. -/

namespace ItemQuery

open Relation

/-! ### Ways without return -/

section
variable {α : Type} {r r' : α → α → Prop} {a b x y : α}

/-- With one more edge, a way is one without it, or goes through it. -/
theorem transGen_of_edge (hedge : ∀ x y, r' x y → r x y ∨ (x = a ∧ y = b)) (h : TransGen r' x y) :
    TransGen r x y ∨ (ReflTransGen r x a ∧ ReflTransGen r b y) := by
  induction h with
  | single hxy =>
    rcases hedge _ _ hxy with hxy | ⟨rfl, rfl⟩
    · exact .inl (.single hxy)
    · exact .inr ⟨.refl, .refl⟩
  | tail hxy hyz ih =>
    rcases hedge _ _ hyz with hyz | ⟨rfl, rfl⟩
    · rcases ih with hold | ⟨hxa, hby⟩
      · exact .inl (hold.tail hyz)
      · exact .inr ⟨hxa, hby.tail hyz⟩
    · rcases ih with hold | ⟨hxa, -⟩
      · exact .inr ⟨hold.to_reflTransGen, .refl⟩
      · exact .inr ⟨hxa, .refl⟩

theorem acyclic_of_edge (hacyclic : ∀ x, ¬TransGen r x x) (hedge : ∀ x y, r' x y → r x y ∨ (x = a ∧ y = b))
    (hback : ¬ReflTransGen r b a) (x : α) : ¬TransGen r' x x := by
  intro hx
  rcases transGen_of_edge hedge hx with hx | ⟨hxa, hbx⟩
  · exact hacyclic x hx
  · exact hback (hbx.trans hxa)

end

/-! ### Lists -/

/-- Of lists one after the other, the one of a member. -/
theorem filter_flatMap_of_mem {α β : Type} {as : List α} {a : α} (hnodup : as.Nodup) (ha : a ∈ as) {f : α → List β}
    {p : β → Bool} (hp : ∀ x ∈ as, ∀ b ∈ f x, p b = true ↔ x = a) : (as.flatMap f).filter p = f a := by
  obtain ⟨before, after, rfl⟩ := List.append_of_mem ha
  have hapart := (List.nodup_middle.mp hnodup).notMem
  have hothers : ∀ xs : List α, xs ⊆ before ++ a :: after → a ∉ xs → (xs.flatMap f).filter p = [] := by
    intro xs hsub hxs
    rw [List.filter_eq_nil_iff]
    intro b hb hpb
    obtain ⟨x, hx, hb⟩ := List.mem_flatMap.mp hb
    exact hxs ((hp x (hsub hx) b hb).mp hpb ▸ hx)
  have hown : (f a).filter p = f a := List.filter_eq_self.mpr fun b hb => (hp a ha b hb).mpr rfl
  rw [List.mem_append, not_or] at hapart
  rw [List.flatMap_append, List.flatMap_cons, List.filter_append, List.filter_append, hown,
    hothers before (by simp) hapart.1, hothers after (by simp) hapart.2, List.nil_append, List.append_nil]

namespace Query

variable {q q' : Query} {id a b : TableId} {j : Join}

/-! ### Joins of a table -/

/-- The joins stored on a table. -/
def joinsOf (q : Query) (id : TableId) : List Join :=
  (q.get? id).elim [] (·.joins)

theorem mem_joinsOf : j ∈ q.joinsOf id ↔ ∃ item, q.get? id = some item ∧ j ∈ item.joins := by
  unfold joinsOf
  cases q.get? id <;> simp

theorem mem_joins : j ∈ q.joins ↔ ∃ id, j ∈ q.joinsOf id := by
  simp [joins, tables, Arena.mem_toList, mem_joinsOf, get?]

theorem contains_iff : q.contains id = true ↔ ∃ item, q.get? id = some item :=
  Option.isSome_iff_exists

theorem item_eq_ok {item : QueryItem} : q.item id = .ok item ↔ q.get? id = some item := by
  unfold Query.item
  cases q.get? id <;> simp

theorem contains_of_mem_joinsOf (h : j ∈ q.joinsOf id) : q.contains id = true := by
  obtain ⟨item, hitem, -⟩ := mem_joinsOf.mp h
  exact contains_iff.mpr ⟨item, hitem⟩

theorem joins_eq_flatMap : q.joins = q.arena.ids.flatMap q.joinsOf := by
  have hentry : ∀ entry ∈ q.tables, entry.2.joins = q.joinsOf entry.1 := by
    intro entry hmem
    have hget : q.get? entry.1 = some entry.2 := Arena.mem_toList.mp hmem
    simp [joinsOf, hget]
  rw [joins, Arena.ids, List.flatMap_map]
  exact List.flatMap_congr hentry

/-! ### Forests -/

/-- A join leads from `a` to `b`. -/
def Joined (q : Query) (a b : TableId) : Prop :=
  ∃ j ∈ q.joins, j.left = a ∧ j.right = b

structure Forest (q : Query) : Prop where
  owned : ∀ id item, q.get? id = some item → ∀ j ∈ item.joins, j.left = id
  live : ∀ j ∈ q.joins, q.contains j.left = true ∧ q.contains j.right = true
  single : (q.joins.map (·.right)).Nodup
  acyclic : ∀ id, ¬TransGen q.Joined id id

theorem Forest.joined_of_mem (h : q.Forest) {item : QueryItem} (hid : q.get? id = some item) (hj : j ∈ item.joins) :
    q.Joined id j.right :=
  ⟨j, mem_joins.mpr ⟨id, mem_joinsOf.mpr ⟨item, hid, hj⟩⟩, h.owned id item hid j hj, rfl⟩

/-- The ends of the joins stored on a table. -/
def ends (q : Query) (id : TableId) : List (TableId × TableId) :=
  (q.joinsOf id).map fun j => (j.left, j.right)

theorem mem_ends_of_mem_joinsOf (h : j ∈ q.joinsOf id) : (j.left, j.right) ∈ q.ends id :=
  List.mem_map_of_mem h

theorem joined_iff : q.Joined a b ↔ ∃ id, (a, b) ∈ q.ends id := by
  simp only [Joined, mem_joins, ends, List.mem_map, Prod.mk.injEq]
  constructor
  · rintro ⟨j, ⟨id, hj⟩, hleft, hright⟩
    exact ⟨id, j, hj, hleft, hright⟩
  · rintro ⟨id, j, hj, hleft, hright⟩
    exact ⟨j, ⟨id, hj⟩, hleft, hright⟩

/-- The same of the ends, table by table: what is stored at two tables leads to different tables. -/
structure Rooted (q : Query) : Prop where
  owned : ∀ id, ∀ e ∈ q.ends id, e.1 = id
  live : ∀ id, ∀ e ∈ q.ends id, q.contains e.2 = true
  nodup : ∀ id, ((q.ends id).map (·.2)).Nodup
  apart : ∀ a b, ∀ e ∈ q.ends a, ∀ e' ∈ q.ends b, e.2 = e'.2 → a = b
  acyclic : ∀ id, ¬TransGen q.Joined id id

theorem rights_eq : (q.joinsOf id).map (·.right) = (q.ends id).map (·.2) := by
  simp [ends]

theorem Rooted.left_eq (h : q.Rooted) (hj : j ∈ q.joinsOf id) : j.left = id :=
  h.owned id _ (mem_ends_of_mem_joinsOf hj)

theorem Rooted.nodup_rights (h : q.Rooted) {ids : List TableId} (hids : ids.Nodup) :
    ((ids.flatMap q.joinsOf).map (·.right)).Nodup := by
  rw [List.map_flatMap, List.nodup_flatMap]
  refine ⟨fun id _ => rights_eq ▸ h.nodup id, hids.imp fun {a b} hne => ?_⟩
  intro t hta htb
  obtain ⟨j, hj, rfl⟩ := List.mem_map.mp hta
  obtain ⟨k, hk, hkj⟩ := List.mem_map.mp htb
  exact hne (h.apart a b _ (mem_ends_of_mem_joinsOf hj) _ (mem_ends_of_mem_joinsOf hk) hkj.symm)

theorem Rooted.filter_left (h : q.Rooted) {ids : List TableId} (hids : ids.Nodup) (hid : id ∈ ids) :
    (ids.flatMap q.joinsOf).filter (·.left == id) = q.joinsOf id := by
  refine filter_flatMap_of_mem hids hid fun a _ j hj => ?_
  rw [beq_iff_eq, h.left_eq hj]

theorem Rooted.forest (h : q.Rooted) : q.Forest where
  owned id item hitem j hj := h.owned id _ (mem_ends_of_mem_joinsOf (mem_joinsOf.mpr ⟨item, hitem, hj⟩))
  live j hj := by
    obtain ⟨id, hid⟩ := mem_joins.mp hj
    have hleft : j.left = id := h.owned id _ (mem_ends_of_mem_joinsOf hid)
    exact ⟨hleft ▸ contains_of_mem_joinsOf hid, h.live id _ (mem_ends_of_mem_joinsOf hid)⟩
  single := by
    rw [joins_eq_flatMap]
    exact h.nodup_rights Arena.nodup_ids
  acyclic := h.acyclic

theorem Forest.rooted (h : q.Forest) : q.Rooted where
  owned id e he := by
    obtain ⟨j, hj, rfl⟩ := List.mem_map.mp he
    obtain ⟨item, hitem, hmem⟩ := mem_joinsOf.mp hj
    exact h.owned id item hitem j hmem
  live id e he := by
    obtain ⟨j, hj, rfl⟩ := List.mem_map.mp he
    exact (h.live j (mem_joins.mpr ⟨id, hj⟩)).2
  nodup id := by
    rw [← rights_eq]
    have hsingle := h.single
    rw [joins_eq_flatMap, List.map_flatMap, List.nodup_flatMap] at hsingle
    by_cases hid : id ∈ q.arena.ids
    · exact hsingle.1 id hid
    · have hnone : q.joinsOf id = [] := by
        rw [Arena.mem_ids, Option.not_isSome_iff_eq_none] at hid
        rw [joinsOf, get?, hid]
        rfl
      rw [hnone]
      exact .nil
  apart a b e he e' he' heq := by
    obtain ⟨j, hj, rfl⟩ := List.mem_map.mp he
    obtain ⟨k, hk, rfl⟩ := List.mem_map.mp he'
    have hsame := List.inj_on_of_nodup_map h.single (mem_joins.mpr ⟨a, hj⟩) (mem_joins.mpr ⟨b, hk⟩) heq
    obtain ⟨item, hitem, hmem⟩ := mem_joinsOf.mp hj
    obtain ⟨item', hitem', hmem'⟩ := mem_joinsOf.mp hk
    rw [← h.owned a item hitem j hmem, hsame, h.owned b item' hitem' k hmem']
  acyclic := h.acyclic

theorem rooted_of_ends_eq_nil (h : ∀ id, q.ends id = []) : q.Rooted where
  owned id e he := by simp [h] at he
  live id e he := by simp [h] at he
  nodup id := by simp [h]
  apart a b e he := by simp [h] at he
  acyclic id hid := by
    obtain ⟨b, hstep, -⟩ := TransGen.head'_iff.mp hid
    simp [joined_iff, h] at hstep

theorem Rooted.of_sublist (h : q.Rooted) (hends : ∀ id, (q'.ends id).Sublist (q.ends id))
    (hlive : ∀ id, ∀ e ∈ q'.ends id, q'.contains e.2 = true) : q'.Rooted where
  owned id e he := h.owned id e ((hends id).mem he)
  live := hlive
  nodup id := (h.nodup id).sublist ((hends id).map _)
  apart a b e he e' he' heq := h.apart a b e ((hends a).mem he) e' ((hends b).mem he') heq
  acyclic id hid := by
    refine h.acyclic id (TransGen.mono (fun a b hab => ?_) _ _ hid)
    obtain ⟨id, he⟩ := joined_iff.mp hab
    exact joined_iff.mpr ⟨id, (hends id).mem he⟩

theorem Rooted.of_push (h : q.Rooted)
    (hends : ∀ id, q'.ends id = if id = a then q.ends a ++ [(a, b)] else q.ends id)
    (hlive : ∀ id, q.contains id = true → q'.contains id = true) (hb : q'.contains b = true)
    (hfirst : ∀ id, ∀ e ∈ q.ends id, e.2 ≠ b) (hback : ¬ReflTransGen q.Joined b a) : q'.Rooted := by
  have hmem : ∀ id e, e ∈ q'.ends id → e ∈ q.ends id ∨ (id = a ∧ e = (a, b)) := by
    intro id e he
    rw [hends] at he
    split at he
    next heq => simpa [heq] using he
    next => exact .inl he
  refine ⟨fun id e he => ?_, fun id e he => ?_, fun id => ?_, fun x y e he e' he' heq => ?_, ?_⟩
  · rcases hmem id e he with he | ⟨rfl, rfl⟩
    · exact h.owned id e he
    · rfl
  · rcases hmem id e he with he | ⟨rfl, rfl⟩
    · exact hlive _ (h.live id e he)
    · exact hb
  · rw [hends]
    split
    next heq =>
      rw [List.map_append, List.nodup_append]
      refine ⟨h.nodup a, by simp, fun t ht t' ht' => ?_⟩
      obtain ⟨e, he, rfl⟩ := List.mem_map.mp ht
      obtain rfl : t' = b := by simpa using ht'
      exact hfirst a e he
    next => exact h.nodup id
  · rcases hmem x e he with hold | ⟨rfl, rfl⟩
    · rcases hmem y e' he' with hold' | ⟨rfl, rfl⟩
      · exact h.apart x y e hold e' hold' heq
      · exact absurd heq (hfirst x e hold)
    · rcases hmem y e' he' with hold' | ⟨rfl, rfl⟩
      · exact absurd heq.symm (hfirst y e' hold')
      · rfl
  · refine acyclic_of_edge h.acyclic (fun x y hxy => ?_) hback
    obtain ⟨id, he⟩ := joined_iff.mp hxy
    rcases hmem id _ he with he | ⟨-, heq⟩
    · exact .inl (joined_iff.mpr ⟨id, he⟩)
    · exact .inr ⟨congrArg Prod.fst heq, congrArg Prod.snd heq⟩

/-! ### Parents -/

theorem Forest.parentJoin?_eq_some (h : q.Forest) : q.parentJoin? id = some j ↔ j ∈ q.joins ∧ j.right = id := by
  constructor
  · intro hj
    exact ⟨List.mem_of_find?_eq_some hj, by simpa using List.find?_some hj⟩
  · rintro ⟨hj, hright⟩
    obtain ⟨k, hk⟩ : ∃ k, q.parentJoin? id = some k :=
      Option.isSome_iff_exists.mp (List.find?_isSome.mpr ⟨j, hj, by simpa using hright⟩)
    have hkright : k.right = id := by simpa using List.find?_some hk
    -- No two joins lead to the table.
    rw [hk, List.inj_on_of_nodup_map h.single (List.mem_of_find?_eq_some hk) hj (hkright.trans hright.symm)]

theorem Forest.joined_iff_parentJoin? (h : q.Forest) :
    q.Joined a b ↔ ∃ j, q.parentJoin? b = some j ∧ j.left = a := by
  simp only [Joined, h.parentJoin?_eq_some]
  constructor
  · rintro ⟨j, hj, hleft, hright⟩
    exact ⟨j, ⟨hj, hright⟩, hleft⟩
  · rintro ⟨j, ⟨hj, hright⟩, hleft⟩
    exact ⟨j, hj, hleft, hright⟩

theorem Forest.eq_of_joined (h : q.Forest) (ha : q.Joined a id) (hb : q.Joined b id) : a = b := by
  obtain ⟨j, hj, rfl⟩ := h.joined_iff_parentJoin?.mp ha
  obtain ⟨k, hk, rfl⟩ := h.joined_iff_parentJoin?.mp hb
  rw [Option.some.inj (hj.symm.trans hk)]

theorem Forest.contains_of_joined (h : q.Forest) (hab : q.Joined a b) :
    q.contains a = true ∧ q.contains b = true := by
  obtain ⟨j, hj, rfl, rfl⟩ := hab
  exact h.live j hj

/-- Steps that lead to live tables and never back take no more of them than there are. -/
theorem length_le_of_isChain {r : TableId → TableId → Prop} (hlive : ∀ a b, r a b → q.contains b = true)
    (hacyclic : ∀ a, ¬TransGen r a a) {way : List TableId} (hway : (id :: way).IsChain r) :
    way.length ≤ q.tableCount := by
  have hpairs : (id :: way).Pairwise (TransGen r) := List.isChain_iff_pairwise.mp (hway.imp fun _ _ => .single)
  obtain ⟨hid, hpairs⟩ := List.pairwise_cons.mp hpairs
  have hnodup : way.Nodup := by
    refine hpairs.imp fun {a b} hab => ?_
    rintro rfl
    exact hacyclic a hab
  refine Arena.length_le_toList hnodup fun b hb => ?_
  obtain ⟨a, -, hab⟩ := TransGen.tail'_iff.mp (hid b hb)
  exact hlive a b hab

theorem Forest.length_le_of_up (h : q.Forest) {way : List TableId}
    (hway : (id :: way).IsChain fun b a => q.Joined a b) : way.length ≤ q.tableCount := by
  refine length_le_of_isChain (fun _ _ hab => (h.contains_of_joined hab).1) (fun a ha => ?_) hway
  exact h.acyclic a (transGen_swap.mp ha)

theorem Forest.length_le_of_down (h : q.Forest) {way : List TableId} (hway : (id :: way).IsChain q.Joined) :
    way.length ≤ q.tableCount :=
  length_le_of_isChain (fun _ _ hab => (h.contains_of_joined hab).2) h.acyclic hway

theorem Forest.reflTransGen_of_ancestorWithin (h : q.Forest) {steps : Nat}
    (ha : q.ancestorWithin a steps id = true) : ReflTransGen q.Joined a id := by
  induction steps generalizing id with
  | zero => cases ha
  | succ steps ih =>
    rw [ancestorWithin, Bool.or_eq_true, beq_iff_eq, Option.any_eq_true] at ha
    rcases ha with rfl | ⟨j, hj, ha⟩
    · exact .refl
    · exact (ih ha).tail (h.joined_iff_parentJoin?.mpr ⟨j, hj, rfl⟩)

theorem Forest.ancestorWithin_of_isChain (h : q.Forest) {way : List TableId} {steps : Nat}
    (hway : (id :: way).IsChain fun b a => q.Joined a b) (hsteps : way.length < steps) :
    q.ancestorWithin ((id :: way).getLast (List.cons_ne_nil _ _)) steps id = true := by
  induction way generalizing id steps with
  | nil =>
    obtain ⟨n, rfl⟩ := Nat.exists_eq_add_one_of_ne_zero (Nat.ne_zero_of_lt hsteps)
    simp [ancestorWithin]
  | cons parent way ih =>
    obtain ⟨n, rfl⟩ := Nat.exists_eq_add_one_of_ne_zero (Nat.ne_zero_of_lt hsteps)
    obtain ⟨hstep, hway⟩ := List.isChain_cons_cons.mp hway
    obtain ⟨j, hj, rfl⟩ := h.joined_iff_parentJoin?.mp hstep
    have hrest := ih hway (Nat.lt_of_succ_lt_succ hsteps)
    rw [List.getLast_cons_cons, ancestorWithin, hj, Option.any_some, hrest, Bool.or_true]

/-- The cut-off of the search for an ancestor never cuts a way. -/
theorem Forest.isAncestor_iff (h : q.Forest) : q.isAncestor a id = true ↔ ReflTransGen q.Joined a id := by
  refine ⟨h.reflTransGen_of_ancestorWithin, fun ha => ?_⟩
  obtain ⟨way, hway, hlast⟩ := List.exists_isChain_cons_of_relationReflTransGen (reflTransGen_swap.mpr ha)
  have hlength := h.length_le_of_up hway
  rw [← hlast]
  exact h.ancestorWithin_of_isChain hway (by omega)

end Query
end ItemQuery
