import ItemQuery.Settings
import ItemQuery.Proofs.Query.Copies
import ItemQuery.Proofs.Query.KeyTree

/-! What a query with other handles has in common with the query: its traversals list the same tables in the same order,
    and its tables have the same types. The bounds of the traversals differ, but neither of them is ever met. -/

namespace ItemQuery

open Relation

/-- All handles inside of the table, its joins apart, satisfy `P`. -/
structure QueryItem.Confined (P : TableId → Prop) (item : QueryItem) : Prop where
  filter : ∀ e, item.filter = some e → e.Confined P
  select : ∀ s ∈ item.select, s.expr.Confined P
  orderBy : ∀ k ∈ item.orderBy, k.expr.Confined P
  provider : ∀ p, item.provider = some p → P p.table

namespace Query

variable {q q' : Query} {f : TableId → TableId} {t : TableId}

/-- Handles inside of the tables that are reached from the root are handles of such tables. -/
def Enclosed (q : Query) : Prop :=
  ∀ t ∈ q.walk, ∀ item, q.get? t = some item → item.Confined (· ∈ q.walk)

/-! ### Joins -/

theorem Renames.joinsOf_eq (h : q.Renames q' f) (ht : t ∈ q.walk) :
    q'.joinsOf (f t) = (q.joinsOf t).map fun j => { j with left := f j.left, right := f j.right } := by
  rw [joinsOf, h.get? t ht, joinsOf]
  cases q.get? t <;> rfl

theorem Renames.children_eq (h : q.Renames q' f) (ht : t ∈ q.walk) : q'.children (f t) = (q.children t).map f := by
  rw [children, h.joinsOf_eq ht, children, List.map_map, List.map_map]
  rfl

theorem Renames.foreignKeys_mapTables (item : QueryItem) (f : TableId → TableId) :
    (item.mapTables f).foreignKeys = item.foreignKeys.map fun j => { j with left := f j.left, right := f j.right } := by
  rw [QueryItem.foreignKeys, QueryItem.mapTables, List.filter_map]
  rfl

theorem Renames.keyed_eq (h : q.Renames q' f) (ht : t ∈ q.walk) : q'.keyed (f t) = (q.keyed t).map f := by
  rw [keyed, h.get? t ht, keyed]
  cases q.get? t with
  | none => rfl
  | some item =>
    simp only [Option.map_some, Option.elim_some]
    rw [foreignKeys_mapTables, List.map_map, List.map_map]
    rfl

theorem Rooted.mem_walk_of_joined {a b : TableId} (h : q.Rooted) (ha : a ∈ q.walk) (hab : q.Joined a b) : b ∈ q.walk :=
  h.mem_walk.mpr ((h.mem_walk.mp ha).tail hab)

section
variable (h : q.Renames q' f) (hq : q.Rooted) (hq' : q'.Rooted)
include h hq hq'

theorem Renames.joined {a b : TableId} (ha : a ∈ q.walk) (hab : q.Joined a b) : q'.Joined (f a) (f b) := by
  rw [← hq'.forest.mem_children, h.children_eq ha]
  exact List.mem_map_of_mem (hq.forest.mem_children.mpr hab)

theorem Renames.isChain {id : TableId} {way : List TableId} (hid : id ∈ q.walk) (hway : (id :: way).IsChain q.Joined) :
    (f id :: way.map f).IsChain q'.Joined := by
  induction way generalizing id with
  | nil => exact .singleton _
  | cons next way ih =>
    obtain ⟨hstep, hway⟩ := List.isChain_cons_cons.mp hway
    exact .cons_cons (h.joined hq hq' hid hstep) (ih (hq.mem_walk_of_joined hid hstep) hway)

theorem Renames.deep {id : TableId} (hid : id ∈ q.walk) : q.Deep (q'.tableCount + 1) id := by
  intro way hway
  have hlength := hq'.forest.length_le_of_down (h.isChain hq hq' hid hway)
  rw [List.length_map] at hlength
  exact Nat.lt_succ_of_le hlength

end

/-! ### Traversals -/

/-- Walks from several tables, if walks from each correspond. -/
theorem map_foldl_walk {walk walk' : List TableId → TableId → List TableId} {ids seen : List TableId} {P : TableId → Prop}
    (hwalk : ∀ id ∈ ids, ∀ seen, (∀ t ∈ seen, P t) →
      walk' (seen.map f) (f id) = (walk seen id).map f ∧ ∀ t ∈ walk seen id, P t)
    (hseen : ∀ t ∈ seen, P t) :
    (ids.map f).foldl walk' (seen.map f) = (ids.foldl walk seen).map f ∧ ∀ t ∈ ids.foldl walk seen, P t := by
  induction ids generalizing seen with
  | nil => exact ⟨rfl, hseen⟩
  | cons id ids ih =>
    rw [List.forall_mem_cons] at hwalk
    obtain ⟨heq, hnext⟩ := hwalk.1 seen hseen
    rw [List.map_cons, List.foldl_cons, List.foldl_cons, heq]
    exact ih hwalk.2 hnext

theorem walkFrom_succ (q : Query) (depth : Nat) (seen : List TableId) (id : TableId) :
    q.walkFrom (depth + 1) seen id =
      if id ∈ seen then seen else (q.children id).foldl (q.walkFrom depth) (seen ++ [id]) := by
  rw [walkFrom, List.contains_eq_mem]
  by_cases hid : id ∈ seen
  · simp [hid]
  · simp only [hid, decide_false, Bool.false_eq_true, if_false]
    rw [children, joinsOf]
    cases q.get? id <;> rfl

/-- Below a relationship there are fewer steps left. -/
theorem Deep.of_reached {n : Nat} {a b c : TableId} (h : q.Deep (n + 1) a) (hab : ReflTransGen q.Joined a b)
    (hbc : q.Joined b c) : q.Deep n c := by
  induction hab using ReflTransGen.head_induction_on with
  | refl => exact h.of_joined hbc
  | head hstep _ ih => exact ih fun way hway => Nat.lt_succ_of_lt (h.of_joined hstep way hway)

theorem Renames.walkFrom_eq (h : q.Renames q' f) (hq : q.Rooted) {n m : Nat} {id : TableId} {seen : List TableId}
    (hid : id ∈ q.walk) (hseen : ∀ t ∈ seen, t ∈ q.walk) (hn : q.Deep n id) (hm : q.Deep m id) :
    q'.walkFrom m (seen.map f) (f id) = (q.walkFrom n seen id).map f ∧ ∀ t ∈ q.walkFrom n seen id, t ∈ q.walk := by
  induction n generalizing m id seen with
  | zero => exact absurd rfl hn.ne_zero
  | succ n ih =>
    obtain ⟨m, rfl⟩ := Nat.exists_eq_add_one_of_ne_zero hm.ne_zero
    have hmem : f id ∈ seen.map f ↔ id ∈ seen := by
      refine ⟨fun hf => ?_, List.mem_map_of_mem⟩
      obtain ⟨t, ht, heq⟩ := List.mem_map.mp hf
      exact h.injective t (hseen t ht) id hid heq ▸ ht
    rw [walkFrom_succ, walkFrom_succ]
    by_cases hknown : id ∈ seen
    · rw [if_pos (hmem.mpr hknown), if_pos hknown]
      exact ⟨rfl, hseen⟩
    · rw [if_neg fun hf => hknown (hmem.mp hf), if_neg hknown, h.children_eq hid]
      have hnext : ∀ t ∈ seen ++ [id], t ∈ q.walk := fun t ht =>
        (List.mem_append.mp ht).elim (hseen t) fun ht => List.mem_singleton.mp ht ▸ hid
      have hbelow : ∀ b ∈ q.children id, ∀ seen, (∀ t ∈ seen, t ∈ q.walk) →
          q'.walkFrom m (seen.map f) (f b) = (q.walkFrom n seen b).map f ∧ ∀ t ∈ q.walkFrom n seen b, t ∈ q.walk := by
        intro b hb seen hseen
        have hjoined := hq.forest.mem_children.mp hb
        exact ih (hq.mem_walk_of_joined hid hjoined) hseen (hn.of_joined hjoined) (hm.of_joined hjoined)
      have hfold := map_foldl_walk hbelow hnext
      rwa [List.map_append] at hfold

theorem Renames.walk_eq (h : q.Renames q' f) (hq : q.Rooted) (hq' : q'.Rooted) : q'.walk = q.walk.map f := by
  have hroot := hq.root_mem_walk
  have hnil : ∀ t ∈ ([] : List TableId), t ∈ q.walk := fun _ ht => absurd ht List.not_mem_nil
  rw [walk, h.root]
  exact (h.walkFrom_eq hq hroot hnil (hq.deep _) (h.deep hq hq' hroot)).1

theorem Spreads.unique {queue order order' : List TableId} (h : q.Spreads queue order) (h' : q.Spreads queue order') :
    order = order' := by
  induction h generalizing order' with
  | done =>
    cases h'
    rfl
  | next _ ih =>
    cases h' with
    | next hrest => rw [ih hrest]

theorem Spreads.exists_reached {queue order : List TableId} (h : q.Spreads queue order) (hq : q.Rooted) :
    ∀ t ∈ order, ∃ a ∈ queue, ReflTransGen q.Joined a t := by
  induction h with
  | done => exact nofun
  | @next id queue order _ ih =>
    refine List.forall_mem_cons.mpr ⟨⟨id, List.mem_cons_self, .refl⟩, fun t ht => ?_⟩
    obtain ⟨a, ha, hat⟩ := ih t ht
    rcases List.mem_append.mp ha with ha | ha
    · exact ⟨a, List.mem_cons_of_mem _ ha, hat⟩
    · exact ⟨id, List.mem_cons_self, .head (hq.forest.joined_of_mem_keyed ha) hat⟩

theorem Rooted.reached_of_mem_foreignKeyTree {b : TableId} (h : q.Rooted) (hb : b ∈ q.foreignKeyTree t) :
    ReflTransGen q.Joined t b := by
  obtain ⟨a, ha, hab⟩ := (h.spreads_foreignKeyTree t).exists_reached h b hb
  exact List.mem_singleton.mp ha ▸ hab

theorem Renames.spreads (h : q.Renames q' f) (hq : q.Rooted) {queue order : List TableId} (hs : q.Spreads queue order)
    (hqueue : ∀ t ∈ queue, t ∈ q.walk) : q'.Spreads (queue.map f) (order.map f) := by
  induction hs with
  | done => exact .done
  | @next id queue order _ ih =>
    rw [List.forall_mem_cons] at hqueue
    refine .next ?_
    rw [h.keyed_eq hqueue.1, ← List.map_append]
    refine ih (List.forall_mem_append.mpr ⟨hqueue.2, fun b hb => ?_⟩)
    exact hq.mem_walk_of_joined hqueue.1 (hq.forest.joined_of_mem_keyed hb)

theorem Renames.foreignKeyTree_eq (h : q.Renames q' f) (hq : q.Rooted) (hq' : q'.Rooted) (ht : t ∈ q.walk) :
    q'.foreignKeyTree (f t) = (q.foreignKeyTree t).map f := by
  have hqueue : ∀ b ∈ [t], b ∈ q.walk := fun b hb => List.mem_singleton.mp hb ▸ ht
  exact (hq'.spreads_foreignKeyTree (f t)).unique (h.spreads hq (hq.spreads_foreignKeyTree t) hqueue)

theorem Rooted.mem_walk_of_mem_foreignKeyTree {b : TableId} (h : q.Rooted) (ht : t ∈ q.walk)
    (hb : b ∈ q.foreignKeyTree t) : b ∈ q.walk :=
  h.mem_walk.mpr ((h.mem_walk.mp ht).trans (h.reached_of_mem_foreignKeyTree hb))

end Query

/-! ### Types -/

namespace Context

variable {ctx : Context} {q q' : Query} {f : TableId → TableId} {t : TableId} {n m : Nat} {name : String}

theorem typeNameWithin_mono (hnm : n ≤ m) (h : ctx.typeNameWithin q n t = some name) :
    ctx.typeNameWithin q m t = some name := by
  induction n generalizing m t name with
  | zero => cases h
  | succ n ih =>
    obtain ⟨m, rfl⟩ := Nat.exists_eq_add_one_of_ne_zero (Nat.ne_zero_of_lt hnm)
    rw [typeNameWithin] at h ⊢
    obtain ⟨item, hitem, h⟩ := Option.bind_eq_some_iff.mp h
    rw [hitem, Option.bind_some]
    cases htyped : item.typeName with
    | some own => rwa [htyped] at h
    | none =>
      rw [htyped] at h
      obtain ⟨p, hp, h⟩ := Option.bind_eq_some_iff.mp h
      obtain ⟨parent, hparent, h⟩ := Option.bind_eq_some_iff.mp h
      rw [hp, Option.orElse_none, Option.bind_some, ih (Nat.le_of_succ_le_succ hnm) hparent, Option.bind_some, h]

/-- A type that is found after no fewer than `n` steps is found over `n` tables, all different. -/
theorem exists_distinct_of_typeNameWithin {tables : List TableId}
    (hclosed : ∀ t ∈ tables, ∀ item, q.get? t = some item → ∀ p, item.provider = some p → p.table ∈ tables)
    (ht : t ∈ tables) (hfound : ctx.typeNameWithin q (n + 1) t = some name) (hfirst : ctx.typeNameWithin q n t = none) :
    ∃ ids : List TableId, ids.Nodup ∧ ids ⊆ tables ∧ ids.length = n + 1 ∧
      ∀ id ∈ ids, (ctx.typeNameWithin q (n + 1) id).isSome := by
  induction n generalizing t name with
  | zero => exact ⟨[t], List.nodup_singleton t, by simpa using ht, rfl, by simp [hfound]⟩
  | succ n ih =>
    have hdeep := hfound
    have hnot := hfirst
    rw [typeNameWithin] at hnot hdeep
    obtain ⟨item, hitem, hdeep⟩ := Option.bind_eq_some_iff.mp hdeep
    rw [hitem, Option.bind_some] at hnot
    cases htyped : item.typeName with
    | some own =>
      rw [htyped] at hnot
      cases hnot
    | none =>
      rw [htyped, Option.orElse_none] at hnot hdeep
      obtain ⟨p, hp, hdeep⟩ := Option.bind_eq_some_iff.mp hdeep
      obtain ⟨parent, hparent, hdeep⟩ := Option.bind_eq_some_iff.mp hdeep
      rw [hp, Option.bind_some] at hnot
      have hnone : ctx.typeNameWithin q n p.table = none := by
        cases hshort : ctx.typeNameWithin q n p.table with
        | none => rfl
        | some other =>
          cases (typeNameWithin_mono (Nat.le_succ n) hshort).symm.trans hparent
          rw [hshort, Option.bind_some, hdeep] at hnot
          cases hnot
      obtain ⟨ids, hnodup, hsub, hlength, hids⟩ := ih (hclosed t ht item hitem p hp) hparent hnone
      refine ⟨t :: ids, List.nodup_cons.mpr ⟨fun hmem => ?_, hnodup⟩, List.cons_subset.mpr ⟨ht, hsub⟩, by simp [hlength],
        List.forall_mem_cons.mpr ⟨by simp [hfound], fun id hid => ?_⟩⟩
      · simpa [hfirst] using hids t hmem
      · obtain ⟨other, hother⟩ := Option.isSome_iff_exists.mp (hids id hid)
        exact Option.isSome_iff_exists.mpr ⟨other, typeNameWithin_mono (Nat.le_succ _) hother⟩

/-- No more steps are needed than there are tables to pass. -/
theorem typeNameWithin_eq {tables : List TableId}
    (hclosed : ∀ t ∈ tables, ∀ item, q.get? t = some item → ∀ p, item.provider = some p → p.table ∈ tables)
    (ht : t ∈ tables) (hn : tables.length ≤ n) : ctx.typeNameWithin q n t = ctx.typeNameWithin q tables.length t := by
  induction n, hn using Nat.le_induction with
  | base => rfl
  | succ n hn ih =>
    rw [← ih]
    cases hfirst : ctx.typeNameWithin q n t with
    | some name => exact typeNameWithin_mono (Nat.le_succ n) hfirst
    | none =>
      cases hfound : ctx.typeNameWithin q (n + 1) t with
      | none => rfl
      | some name =>
        obtain ⟨ids, hnodup, hsub, hlength, -⟩ := exists_distinct_of_typeNameWithin hclosed ht hfound hfirst
        have := (hnodup.subperm hsub).length_le
        omega

theorem typeNameWithin_renamed (h : q.Renames q' f) (hq : q.Enclosed) (ht : t ∈ q.walk) :
    ctx.typeNameWithin q' n (f t) = ctx.typeNameWithin q n t := by
  induction n generalizing t with
  | zero => rfl
  | succ n ih =>
    rw [typeNameWithin, typeNameWithin, h.get? t ht]
    cases hitem : q.get? t with
    | none => rfl
    | some item =>
      rw [Option.map_some, Option.bind_some, Option.bind_some, QueryItem.mapTables]
      cases hp : item.provider with
      | none => rfl
      | some p =>
        dsimp only [Option.map_some, Option.bind_some]
        rw [ih ((hq t ht item hitem).provider p hp)]

theorem tableTypeName_eq (h : q.Renames q' f) (hsound : q.Rooted) (hlive : q.contains q.root = true) (hq : q.Enclosed)
    (ht : t ∈ q.walk) : ctx.tableTypeName q' (f t) = ctx.tableTypeName q t := by
  have hclosed : ∀ t ∈ q.walk, ∀ item, q.get? t = some item → ∀ p, item.provider = some p → p.table ∈ q.walk :=
    fun t ht item hitem => (hq t ht item hitem).provider
  have hcount : q.walk.length ≤ q.tableCount :=
    Arena.length_le_toList hsound.lists_walk.nodup fun id hid => hsound.contains_of_mem_walk hlive hid
  have hcount' : q.walk.length ≤ q'.tableCount := by
    rw [← List.length_map f]
    refine Arena.length_le_toList (hsound.lists_walk.nodup.map_on h.injective) fun id hid => ?_
    obtain ⟨a, ha, rfl⟩ := List.mem_map.mp hid
    exact (h.live _).mpr ⟨a, ha, rfl⟩
  rw [tableTypeName, typeNameWithin_renamed h hq ht, tableTypeName]
  exact (typeNameWithin_eq hclosed ht (Nat.le_succ_of_le hcount')).trans
    (typeNameWithin_eq hclosed ht (Nat.le_succ_of_le hcount)).symm

end Context
end ItemQuery
