import ItemQuery.Proofs.Query.Renaming

/-! The tables of a query in blocks: a table with those behind its foreign keys, and for each relationship of one of them
    a block of its own. Every table that is reached is in one block. -/

namespace ItemQuery.Query

open Relation

variable {q : Query} {a b t : TableId} {depth : Nat}

/-! ### One block -/

theorem Spreads.order_eq {queue order : List TableId} (h : q.Spreads queue order) :
    order = queue ++ order.flatMap q.keyed := by
  induction h with
  | done => rfl
  | @next id queue order _ ih => rw [List.flatMap_cons, List.cons_append, ← List.append_assoc, ← ih]

/-- Behind a table come those behind its foreign keys. -/
theorem Rooted.foreignKeyTree_eq (h : q.Rooted) (id : TableId) :
    q.foreignKeyTree id = id :: (q.foreignKeyTree id).flatMap q.keyed :=
  (h.spreads_foreignKeyTree id).order_eq

theorem Spreads.nodup (h : q.Rooted) {start : TableId} {taken queue order : List TableId} (hs : q.Spreads queue order)
    (hspreading : q.Spreading start taken queue) : (taken ++ order).Nodup := by
  induction hs generalizing taken with
  | done => exact hspreading.nodup
  | @next id queue order _ ih =>
    have hnext := ih (h.spreading_next hspreading)
    rwa [List.append_assoc, List.singleton_append] at hnext

theorem Rooted.nodup_foreignKeyTree (h : q.Rooted) (id : TableId) : (q.foreignKeyTree id).Nodup :=
  (h.spreads_foreignKeyTree id).nodup h (spreading_start q id)

theorem Forest.reached_of_behind (h : q.Forest) (hab : q.Behind a b) : ReflTransGen q.Joined a b :=
  ReflTransGen.mono (fun _ _ => h.joined_of_mem_keyed) _ _ hab

/-- The tables that relationships of a table lead to. -/
def related (q : Query) (id : TableId) : List TableId :=
  (q.get? id).elim [] fun item => item.relationships.map (·.right)

theorem mem_related : b ∈ q.related a ↔ ∃ item, q.get? a = some item ∧ ∃ j ∈ item.relationships, j.right = b := by
  unfold related
  cases q.get? a <;> simp

theorem Forest.joined_of_mem_related (h : q.Forest) (hb : b ∈ q.related a) : q.Joined a b := by
  obtain ⟨item, hitem, j, hj, rfl⟩ := mem_related.mp hb
  exact h.joined_of_mem hitem (List.mem_of_mem_filter hj)

theorem Forest.not_mem_keyed_of_related (h : q.Forest) (hb : b ∈ q.related a) (c : TableId) : b ∉ q.keyed c := by
  intro hc
  obtain rfl := h.eq_of_joined (h.joined_of_mem_related hb) (h.joined_of_mem_keyed hc)
  obtain ⟨item, hitem, j, hj, rfl⟩ := mem_related.mp hb
  rw [keyed, hitem] at hc
  obtain ⟨k, hk, hkj⟩ := List.mem_map.mp hc
  obtain ⟨hk, hkey⟩ := List.mem_filter.mp hk
  obtain ⟨hj, hrelated⟩ := List.mem_filter.mp hj
  have hmem : ∀ {i}, i ∈ item.joins → i ∈ q.joins := fun hi => mem_joins.mpr ⟨a, mem_joinsOf.mpr ⟨item, hitem, hi⟩⟩
  rw [List.inj_on_of_nodup_map h.single (hmem hk) (hmem hj) hkj] at hkey
  simp [hkey] at hrelated

theorem Rooted.nodup_related (h : q.Rooted) (id : TableId) : (q.related id).Nodup := by
  have hrights : ((q.joinsOf id).map (·.right)).Nodup := rights_eq ▸ h.nodup id
  unfold related
  unfold joinsOf at hrights
  cases hitem : q.get? id with
  | none => exact .nil
  | some item =>
    rw [hitem] at hrights
    exact hrights.sublist (List.filter_sublist.map _)

/-! ### All blocks below -/

/-- The relationships of the block of a table. -/
def exits (q : Query) (id : TableId) : List TableId :=
  (q.foreignKeyTree id).flatMap q.related

/-- The tables of the blocks below a table, at most so many deep. -/
def below (q : Query) : Nat → TableId → List TableId
  | 0, _ => []
  | depth + 1, id => (q.exits id).flatMap fun t => q.foreignKeyTree t ++ q.below depth t

theorem Rooted.mem_exits (h : q.Rooted) : b ∈ q.exits a ↔ ∃ c, q.Behind a c ∧ b ∈ q.related c := by
  simp [exits, h.mem_foreignKeyTree]

/-- No way leads from behind a relationship back into the block. -/
theorem Forest.not_reached_of_exit (h : q.Forest) {c : TableId} (hac : q.Behind a c) (hb : b ∈ q.related c)
    (hat : q.Behind a t) : ¬ReflTransGen q.Joined b t := by
  intro hbt
  induction hat with
  | refl => exact h.acyclic a (.trans_right (h.reached_of_behind hac) (.head' (h.joined_of_mem_related hb) hbt))
  | @tail x y hx hxy ih =>
    rcases hbt.cases_tail with rfl | ⟨z, hbz, hzy⟩
    · exact h.not_mem_keyed_of_related hb x hxy
    · exact ih (h.eq_of_joined hzy (h.joined_of_mem_keyed hxy) ▸ hbz)

theorem Rooted.nodup_exits (h : q.Rooted) (id : TableId) : (q.exits id).Nodup := by
  rw [exits, List.nodup_flatMap]
  refine ⟨fun t _ => h.nodup_related t, (h.nodup_foreignKeyTree id).imp fun {t u} hne => ?_⟩
  intro x ht hu
  exact hne (h.forest.eq_of_joined (h.forest.joined_of_mem_related ht) (h.forest.joined_of_mem_related hu))

/-- What is reached from two relationships of a block is not the same. -/
theorem Rooted.exit_eq (h : q.Rooted) {c : TableId} (hb : b ∈ q.exits a) (hc : c ∈ q.exits a)
    (hbt : ReflTransGen q.Joined b t) (hct : ReflTransGen q.Joined c t) : b = c := by
  have hside : ∀ {b c}, b ∈ q.exits a → c ∈ q.exits a → ReflTransGen q.Joined b c → b = c := by
    intro b c hb hc hbc
    obtain ⟨x, hx, hb⟩ := h.mem_exits.mp hb
    obtain ⟨y, hy, hc⟩ := h.mem_exits.mp hc
    rcases hbc.cases_tail with heq | ⟨z, hbz, hzc⟩
    · exact heq.symm
    · obtain rfl := h.forest.eq_of_joined hzc (h.forest.joined_of_mem_related hc)
      exact absurd hbz (h.forest.not_reached_of_exit hx hb hy)
  have hunique : Relator.RightUnique (Function.swap q.Joined) := fun _ _ _ hx hy => h.forest.eq_of_joined hx hy
  rcases ReflTransGen.total_of_right_unique hunique (reflTransGen_swap.mpr hbt) (reflTransGen_swap.mpr hct) with hcb | hbc
  · exact (hside hc hb (reflTransGen_swap.mp hcb)).symm
  · exact hside hb hc (reflTransGen_swap.mp hbc)

theorem Rooted.reached_of_mem_exits (h : q.Rooted) (hb : b ∈ q.exits a) : ReflTransGen q.Joined a b := by
  obtain ⟨c, hc, hb⟩ := h.mem_exits.mp hb
  exact (h.forest.reached_of_behind hc).tail (h.forest.joined_of_mem_related hb)

theorem Rooted.reached_of_mem_blocks (h : q.Rooted) (ht : t ∈ q.foreignKeyTree a ++ q.below depth a) :
    ReflTransGen q.Joined a t := by
  induction depth generalizing a with
  | zero => exact h.forest.reached_of_behind (h.mem_foreignKeyTree.mp (by simpa [below] using ht))
  | succ depth ih =>
    rcases List.mem_append.mp ht with ht | ht
    · exact h.forest.reached_of_behind (h.mem_foreignKeyTree.mp ht)
    · obtain ⟨b, hb, ht⟩ := List.mem_flatMap.mp ht
      exact (h.reached_of_mem_exits hb).trans (ih ht)

/-- The tables of a block and those below it are the tables that are reached. -/
theorem Rooted.mem_blocks (h : q.Rooted) (hdeep : q.Deep depth a) :
    t ∈ q.foreignKeyTree a ++ q.below depth a ↔ ReflTransGen q.Joined a t := by
  refine ⟨h.reached_of_mem_blocks, fun hat => ?_⟩
  induction depth generalizing a with
  | zero => exact absurd rfl hdeep.ne_zero
  | succ depth ih =>
    obtain ⟨b, hb, rfl | ⟨item, hitem, j, hj, hjt⟩⟩ := h.exists_behind hat
    · exact List.mem_append_left _ (h.mem_foreignKeyTree.mpr hb)
    · have hrelated : j.right ∈ q.related b := mem_related.mpr ⟨item, hitem, j, hj, rfl⟩
      have hdeep := hdeep.of_reached (h.forest.reached_of_behind hb) (h.forest.joined_of_mem_related hrelated)
      refine List.mem_append_right _ (List.mem_flatMap.mpr ⟨j.right, ?_, ih hdeep hjt⟩)
      exact h.mem_exits.mpr ⟨b, hb, hrelated⟩

theorem Rooted.nodup_blocks (h : q.Rooted) (depth : Nat) (id : TableId) :
    (q.foreignKeyTree id ++ q.below depth id).Nodup := by
  induction depth generalizing id with
  | zero => simpa [below] using h.nodup_foreignKeyTree id
  | succ depth ih =>
    rw [below, List.nodup_append]
    refine ⟨h.nodup_foreignKeyTree id, ?_, fun t ht u hu heq => ?_⟩
    · rw [List.nodup_flatMap]
      refine ⟨fun b _ => ih b, (h.nodup_exits id).imp_of_mem fun {b c} hb hc hne => ?_⟩
      exact fun t ht hu => hne (h.exit_eq hb hc (h.reached_of_mem_blocks ht) (h.reached_of_mem_blocks hu))
    · obtain ⟨b, hb, hu⟩ := List.mem_flatMap.mp hu
      obtain ⟨c, hc, hb⟩ := h.mem_exits.mp hb
      exact h.forest.not_reached_of_exit hc hb (h.mem_foreignKeyTree.mp ht) (heq ▸ h.reached_of_mem_blocks hu)

end ItemQuery.Query
