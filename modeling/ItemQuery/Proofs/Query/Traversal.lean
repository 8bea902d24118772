import ItemQuery.Proofs.Query.Calls

/-! Traversals of a forest of joins. Each is a loop that nothing bounds; the bounds of the definitions are never met,
    since a way takes no more steps than there are tables and a queue lists no table twice. -/

namespace ItemQuery.Query

open Relation

variable {q : Query} {id a b t : TableId}

/-! ### Towards the root -/

/-- The loop that goes from table to parent until the parent is `ancestor`, with the join it ends with. -/
inductive Climbs (q : Query) (ancestor : TableId) : TableId → Option Join → Prop
  | top {id : TableId} (hnone : q.parentJoin? id = none) : Climbs q ancestor id none
  | found {id : TableId} {j : Join} (hj : q.parentJoin? id = some j) (hleft : j.left = ancestor) :
    Climbs q ancestor id (some j)
  | up {id : TableId} {j : Join} {result : Option Join} (hj : q.parentJoin? id = some j) (hleft : j.left ≠ ancestor)
    (hrest : Climbs q ancestor j.left result) : Climbs q ancestor id result

theorem Forest.climbs_childWithin (h : q.Forest) (a : TableId) {steps : Nat} {id : TableId}
    (hsteps : ∀ way : List TableId, (id :: way).IsChain (fun b a => q.Joined a b) → way.length < steps) :
    q.Climbs a id (q.childWithin a steps id) := by
  induction steps generalizing id with
  | zero => exact absurd (hsteps [] (.singleton id)) (Nat.lt_irrefl 0)
  | succ steps ih =>
    rw [childWithin]
    cases hj : q.parentJoin? id with
    | none => exact .top hj
    | some j =>
      rw [Option.bind_some]
      split
      next hleft => exact .found hj (beq_iff_eq.mp hleft)
      next hleft =>
        refine .up hj (by simpa using hleft) (ih fun way hway => ?_)
        have hstep : q.Joined j.left id := h.joined_iff_parentJoin?.mpr ⟨j, hj, rfl⟩
        exact Nat.lt_of_succ_lt_succ (hsteps (j.left :: way) (.cons_cons hstep hway))

theorem Forest.climbs_childTowards (h : q.Forest) (a id : TableId) : q.Climbs a id (q.childTowards a id) :=
  h.climbs_childWithin a fun _ hway => Nat.lt_succ_of_le (h.length_le_of_up hway)

/-! ### Along foreign keys -/

/-- The tables behind the foreign keys of a table. -/
def keyed (q : Query) (id : TableId) : List TableId :=
  (q.get? id).elim [] fun item => item.foreignKeys.map (·.right)

/-- The loop that takes tables from a queue and puts the tables behind their foreign keys at its end, until none are
    left, with the tables in the order in which they were taken. -/
inductive Spreads (q : Query) : List TableId → List TableId → Prop
  | done : Spreads q [] []
  | next {id : TableId} {queue order : List TableId} (hrest : Spreads q (queue ++ q.keyed id) order) :
    Spreads q (id :: queue) (id :: order)

/-- What the loop keeps: no table is listed twice, since all but the first are joined to one already taken. -/
structure Spreading (q : Query) (start : TableId) (taken queue : List TableId) : Prop where
  nodup : (taken ++ queue).Nodup
  below : ∀ id ∈ taken ++ queue, ReflTransGen q.Joined start id
  behind : ∀ id ∈ taken ++ queue, id = start ∨ ∃ a ∈ taken, q.Joined a id

theorem Forest.joined_of_mem_keyed (h : q.Forest) (hb : b ∈ q.keyed a) : q.Joined a b := by
  unfold keyed at hb
  cases hitem : q.get? a with
  | none => simp [hitem] at hb
  | some item =>
    simp only [hitem, Option.elim_some, List.mem_map] at hb
    obtain ⟨j, hj, rfl⟩ := hb
    have hmem : j ∈ item.joins := List.mem_of_mem_filter hj
    exact ⟨j, mem_joins.mpr ⟨a, mem_joinsOf.mpr ⟨item, hitem, hmem⟩⟩, h.owned a item hitem j hmem, rfl⟩

theorem Rooted.nodup_keyed (h : q.Rooted) (id : TableId) : (q.keyed id).Nodup := by
  have hrights : ((q.joinsOf id).map (·.right)).Nodup := rights_eq ▸ h.nodup id
  unfold keyed
  unfold joinsOf at hrights
  cases hitem : q.get? id with
  | none => exact .nil
  | some item =>
    rw [hitem] at hrights
    exact hrights.sublist (List.filter_sublist.map _)

theorem Rooted.spreading_append (h : q.Rooted) {start : TableId} {taken queue below : List TableId}
    (hs : q.Spreading start taken (id :: queue)) (hnodup : below.Nodup) (hbelow : ∀ b ∈ below, q.Joined id b) :
    q.Spreading start (taken ++ [id]) (queue ++ below) := by
  have hid : id ∈ taken ++ id :: queue := by simp
  have hlist : taken ++ [id] ++ (queue ++ below) = taken ++ id :: queue ++ below := by simp
  -- A table below `id` is new: its only parent is `id`, which is not taken yet.
  have hnew : ∀ b ∈ taken ++ id :: queue, b ∉ below := by
    intro b hb hmem
    have hjoined := hbelow b hmem
    rcases hs.behind b hb with rfl | ⟨a, ha, hab⟩
    · exact h.acyclic b (.tail' (hs.below id hid) hjoined)
    · obtain rfl := h.forest.eq_of_joined hab hjoined
      exact (List.nodup_append.mp hs.nodup).2.2 a ha a List.mem_cons_self rfl
  refine ⟨?_, fun b hb => ?_, fun b hb => ?_⟩
  · rw [hlist, List.nodup_append]
    exact ⟨hs.nodup, hnodup, fun b hb c hc hbc => hnew b hb (hbc ▸ hc)⟩
  · rw [hlist] at hb
    rcases List.mem_append.mp hb with hb | hb
    · exact hs.below b hb
    · exact (hs.below id hid).tail (hbelow b hb)
  · rw [hlist] at hb
    rcases List.mem_append.mp hb with hb | hb
    · rcases hs.behind b hb with heq | ⟨a, ha, hab⟩
      · exact .inl heq
      · exact .inr ⟨a, List.mem_append_left _ ha, hab⟩
    · exact .inr ⟨id, by simp, hbelow b hb⟩

theorem Rooted.spreading_next (h : q.Rooted) {start : TableId} {taken queue : List TableId}
    (hs : q.Spreading start taken (id :: queue)) : q.Spreading start (taken ++ [id]) (queue ++ q.keyed id) :=
  h.spreading_append hs (h.nodup_keyed id) fun _ hb => h.forest.joined_of_mem_keyed hb

theorem spreading_start (q : Query) (id : TableId) : q.Spreading id [] [id] :=
  ⟨by simp, fun b hb => by simp_all [ReflTransGen.refl], fun b hb => by simp_all⟩

theorem Rooted.length_le_of_spreading (h : q.Rooted) {start : TableId} {taken queue : List TableId}
    (hs : q.Spreading start taken queue) : (taken ++ queue).length ≤ q.tableCount + 1 := by
  have hothers : ((taken ++ queue).erase start).length ≤ q.tableCount := by
    refine Arena.length_le_toList (hs.nodup.erase start) fun id hid => ?_
    obtain ⟨hne, hid⟩ := hs.nodup.mem_erase_iff.mp hid
    rcases hs.behind id hid with heq | ⟨a, -, hab⟩
    · exact absurd heq hne
    · exact (h.forest.contains_of_joined hab).2
  have herase := List.le_length_erase (a := start) (l := taken ++ queue)
  omega

theorem Rooted.spreads_foreignKeyQueue (h : q.Rooted) {start : TableId} {fuel : Nat} {taken queue : List TableId}
    (hs : q.Spreading start taken queue) (hfuel : q.tableCount + 1 ≤ taken.length + fuel) :
    q.Spreads queue (q.foreignKeyQueue fuel queue) := by
  induction fuel generalizing taken queue with
  | zero =>
    have hlength := h.length_le_of_spreading hs
    rw [List.length_append] at hlength
    obtain rfl : queue = [] := List.length_eq_zero_iff.mp (by omega)
    exact .done
  | succ fuel ih =>
    cases queue with
    | nil => exact .done
    | cons id queue =>
      rw [foreignKeyQueue]
      refine .next (ih (h.spreading_next hs) ?_)
      rw [List.length_append, List.length_singleton]
      omega

theorem Rooted.spreads_foreignKeyTree (h : q.Rooted) (id : TableId) : q.Spreads [id] (q.foreignKeyTree id) := by
  exact h.spreads_foreignKeyQueue (spreading_start q id) (by simp)

/-! ### From the root -/

/-- The tables that the joins of a table lead to, in order. -/
def children (q : Query) (id : TableId) : List TableId :=
  (q.joinsOf id).map (·.right)

theorem Forest.mem_children (h : q.Forest) : b ∈ q.children a ↔ q.Joined a b := by
  constructor
  · intro hb
    obtain ⟨j, hj, rfl⟩ := List.mem_map.mp hb
    obtain ⟨item, hitem, hmem⟩ := mem_joinsOf.mp hj
    exact ⟨j, mem_joins.mpr ⟨a, hj⟩, h.owned a item hitem j hmem, rfl⟩
  · rintro ⟨j, hj, rfl, rfl⟩
    obtain ⟨id, hid⟩ := mem_joins.mp hj
    obtain ⟨item, hitem, hmem⟩ := mem_joinsOf.mp hid
    obtain rfl := h.owned id item hitem j hmem
    exact List.mem_map_of_mem hid

/-- A sibling is not reached: the way would lead through the common parent. -/
theorem Forest.eq_of_reached_sibling (h : q.Forest) (ha : q.Joined id a) (hb : q.Joined id b)
    (hab : ReflTransGen q.Joined a b) : a = b := by
  rcases hab.cases_tail with heq | ⟨parent, hparent, hlast⟩
  · exact heq.symm
  · obtain rfl := h.eq_of_joined hlast hb
    exact absurd (TransGen.head' ha hparent) (h.acyclic parent)

theorem Forest.eq_of_reached_both (h : q.Forest) (ha : q.Joined id a) (hb : q.Joined id b)
    (hat : ReflTransGen q.Joined a t) (hbt : ReflTransGen q.Joined b t) : a = b := by
  have hunique : Relator.RightUnique (Function.swap q.Joined) := fun _ _ _ hx hy => h.eq_of_joined hx hy
  rcases ReflTransGen.total_of_right_unique hunique (reflTransGen_swap.mpr hat) (reflTransGen_swap.mpr hbt) with hba | hab
  · exact (h.eq_of_reached_sibling hb ha (reflTransGen_swap.mp hba)).symm
  · exact h.eq_of_reached_sibling ha hb (reflTransGen_swap.mp hab)

/-- A list of all tables reached from some roots, once each, parents before children. -/
structure Lists (q : Query) (roots part : List TableId) : Prop where
  nodup : part.Nodup
  mem : ∀ t, t ∈ part ↔ ∃ a ∈ roots, ReflTransGen q.Joined a t
  order : ∀ a ∈ part, ∀ b, q.Joined a b → [a, b].Sublist part

theorem Lists.append {roots roots' part part' : List TableId} (h : q.Lists roots part) (h' : q.Lists roots' part')
    (hapart : ∀ t ∈ part, t ∉ part') : q.Lists (roots ++ roots') (part ++ part') where
  nodup := List.nodup_append.mpr ⟨h.nodup, h'.nodup, fun t ht t' ht' heq => hapart t ht (heq ▸ ht')⟩
  mem t := by
    simp only [List.mem_append, h.mem, h'.mem, or_and_right, exists_or]
  order a ha b hab := by
    rcases List.mem_append.mp ha with ha | ha
    · exact (h.order a ha b hab).trans (List.sublist_append_left _ _)
    · exact (h'.order a ha b hab).trans (List.sublist_append_right _ _)

theorem Forest.lists_cons (h : q.Forest) {part : List TableId} (hpart : q.Lists (q.children id) part) :
    q.Lists [id] (id :: part) where
  nodup := by
    refine List.nodup_cons.mpr ⟨fun hid => ?_, hpart.nodup⟩
    obtain ⟨a, ha, hback⟩ := (hpart.mem id).mp hid
    exact h.acyclic id (.head' (h.mem_children.mp ha) hback)
  mem t := by
    simp only [List.mem_cons, List.not_mem_nil, or_false, exists_eq_left, hpart.mem, h.mem_children]
    constructor
    · rintro (rfl | ⟨a, ha, hat⟩)
      · exact .refl
      · exact .head ha hat
    · intro ht
      rcases ht.cases_head with heq | ⟨a, ha, hat⟩
      · exact .inl heq.symm
      · exact .inr ⟨a, ha, hat⟩
  order a ha b hab := by
    rcases List.mem_cons.mp ha with rfl | ha
    · have hb : b ∈ part := (hpart.mem b).mpr ⟨b, h.mem_children.mpr hab, .refl⟩
      exact (List.singleton_sublist.mpr hb).cons_cons a
    · exact (hpart.order a ha b hab).cons _

/-- Walks from tables that have no descendant in common, and none that was seen. -/
theorem exists_lists_foldl {walk : List TableId → TableId → List TableId} {roots : List TableId}
    (hwalk : ∀ a ∈ roots, ∀ seen, (∀ t ∈ seen, ¬ReflTransGen q.Joined a t) →
      ∃ part, walk seen a = seen ++ part ∧ q.Lists [a] part)
    (hroots : roots.Pairwise fun a b => ∀ t, ReflTransGen q.Joined a t → ¬ReflTransGen q.Joined b t)
    {seen : List TableId} (hseen : ∀ a ∈ roots, ∀ t ∈ seen, ¬ReflTransGen q.Joined a t) :
    ∃ part, roots.foldl walk seen = seen ++ part ∧ q.Lists roots part := by
  induction roots generalizing seen with
  | nil => exact ⟨[], (List.append_nil seen).symm, .nil, by simp, by simp⟩
  | cons a roots ih =>
    obtain ⟨hapart, hroots⟩ := List.pairwise_cons.mp hroots
    obtain ⟨part, hpart, hlists⟩ := hwalk a List.mem_cons_self seen (hseen a List.mem_cons_self)
    have hfrom : ∀ t ∈ part, ReflTransGen q.Joined a t := by
      intro t ht
      simpa using (hlists.mem t).mp ht
    have hseen' : ∀ b ∈ roots, ∀ t ∈ seen ++ part, ¬ReflTransGen q.Joined b t := by
      intro b hb t ht
      rcases List.mem_append.mp ht with ht | ht
      · exact hseen b (List.mem_cons_of_mem a hb) t ht
      · exact hapart b hb t (hfrom t ht)
    obtain ⟨rest, hrest, hlists'⟩ := ih (fun b hb => hwalk b (List.mem_cons_of_mem a hb)) hroots hseen'
    refine ⟨part ++ rest, by rw [List.foldl_cons, hpart, hrest, List.append_assoc], hlists.append hlists' ?_⟩
    intro t ht ht'
    obtain ⟨b, hb, hbt⟩ := (hlists'.mem t).mp ht'
    exact hapart b hb t (hfrom t ht) hbt

theorem Rooted.nodup_children (h : q.Rooted) (id : TableId) : (q.children id).Nodup := by
  rw [children, rights_eq]
  exact h.nodup id

theorem Rooted.exists_lists_walkFrom (h : q.Rooted) {depth : Nat} {id : TableId} {seen : List TableId}
    (hdepth : ∀ way : List TableId, (id :: way).IsChain q.Joined → way.length < depth)
    (hseen : ∀ t ∈ seen, ¬ReflTransGen q.Joined id t) :
    ∃ part, q.walkFrom depth seen id = seen ++ part ∧ q.Lists [id] part := by
  induction depth generalizing id seen with
  | zero => exact absurd (hdepth [] (.singleton id)) (Nat.lt_irrefl 0)
  | succ depth ih =>
    have hunseen : id ∉ seen := fun hmem => hseen id hmem .refl
    have hwalk : q.walkFrom (depth + 1) seen id = (q.children id).foldl (q.walkFrom depth) (seen ++ [id]) := by
      rw [walkFrom, if_neg (by simpa using hunseen), children, joinsOf]
      cases q.get? id <;> rfl
    have hchild : ∀ a ∈ q.children id, q.Joined id a := fun a ha => h.forest.mem_children.mp ha
    have hroots : (q.children id).Pairwise fun a b =>
        ∀ t, ReflTransGen q.Joined a t → ¬ReflTransGen q.Joined b t := by
      refine (h.nodup_children id).imp_of_mem fun {a b} ha hb hne t hat hbt => ?_
      exact hne (h.forest.eq_of_reached_both (hchild a ha) (hchild b hb) hat hbt)
    have hfresh : ∀ a ∈ q.children id, ∀ t ∈ seen ++ [id], ¬ReflTransGen q.Joined a t := by
      intro a ha t ht hat
      rcases List.mem_append.mp ht with ht | ht
      · exact hseen t ht (.head (hchild a ha) hat)
      · obtain rfl := List.mem_singleton.mp ht
        exact h.acyclic t (.head' (hchild a ha) hat)
    have hbelow : ∀ a ∈ q.children id, ∀ way : List TableId, (a :: way).IsChain q.Joined → way.length < depth := by
      intro a ha way hway
      exact Nat.lt_of_succ_lt_succ (hdepth (a :: way) (.cons_cons (hchild a ha) hway))
    obtain ⟨part, hpart, hlists⟩ := exists_lists_foldl (fun a ha _ hseen => ih (hbelow a ha) hseen) hroots hfresh
    exact ⟨id :: part, by rw [hwalk, hpart, List.append_assoc, List.singleton_append], h.forest.lists_cons hlists⟩

theorem Rooted.lists_walk (h : q.Rooted) : q.Lists [q.root] q.walk := by
  obtain ⟨part, hpart, hlists⟩ : ∃ part, q.walk = [] ++ part ∧ q.Lists [q.root] part :=
    h.exists_lists_walkFrom (fun _ hway => Nat.lt_succ_of_le (h.forest.length_le_of_down hway)) (by simp)
  rwa [hpart, List.nil_append]

theorem Rooted.mem_walk (h : q.Rooted) : t ∈ q.walk ↔ ReflTransGen q.Joined q.root t := by
  rw [h.lists_walk.mem]
  exact ⟨fun ⟨_, ha, hat⟩ => List.mem_singleton.mp ha ▸ hat, fun ht => ⟨_, List.mem_singleton_self _, ht⟩⟩

theorem Rooted.root_mem_walk (h : q.Rooted) : q.root ∈ q.walk :=
  h.mem_walk.mpr .refl

theorem Rooted.right_mem_walk (h : q.Rooted) {j : Join} (ht : t ∈ q.walk) (hj : j ∈ q.joinsOf t) : j.right ∈ q.walk :=
  h.mem_walk.mpr ((h.mem_walk.mp ht).tail (h.forest.mem_children.mp (List.mem_map_of_mem hj)))

theorem Rooted.contains_of_mem_walk (h : q.Rooted) (hroot : q.contains q.root = true) (ht : t ∈ q.walk) :
    q.contains t = true := by
  rcases (h.mem_walk.mp ht).cases_tail with rfl | ⟨a, -, hat⟩
  · exact hroot
  · exact (h.forest.contains_of_joined hat).2

/-! ### Queries that calls lead to -/

/-- Whatever calls were made, the joins form a forest; so both loops end, ancestors are those on the parent chain, and
    a live root has every table below it listed once, parents before children. A handle once given out stays live or
    stale for any number of further calls that cannot bring its generation round. -/
theorem Reached.forest_and_traversals (h : Reached q) :
    q.Forest ∧
      (∀ a id, q.Climbs a id (q.childTowards a id)) ∧
      (∀ id, q.Spreads [id] (q.foreignKeyTree id)) ∧
      (∀ a t, q.isAncestor a t = true ↔ ReflTransGen q.Joined a t) ∧
      (q.contains q.root = true →
        q.walk.Nodup ∧
          (∀ t, t ∈ q.walk ↔ q.contains t = true ∧ ReflTransGen q.Joined q.root t) ∧
          ∀ a ∈ q.walk, ∀ b, q.Joined a b → [a, b].Sublist q.walk) ∧
      ∀ id, q.contains id = true → ∀ cs : List Call, cs.length < 2 ^ 32 → (cs.foldl after q).arena.Known id := by
  obtain ⟨hsound, hrooted⟩ := h.kept
  have hforest := hrooted.forest
  have hlists := hrooted.lists_walk
  refine ⟨hforest, hforest.climbs_childTowards, hrooted.spreads_foreignKeyTree, fun a t => hforest.isAncestor_iff,
    fun hroot => ⟨hlists.nodup, fun t => ?_, hlists.order⟩, fun id hid cs hcs => known_foldl_after hsound hid cs hcs⟩
  rw [hlists.mem]
  simp only [List.mem_singleton, exists_eq_left]
  refine ⟨fun ht => ⟨?_, ht⟩, And.right⟩
  rcases ht.cases_tail with heq | ⟨a, -, hat⟩
  · exact heq ▸ hroot
  · exact (hforest.contains_of_joined hat).2

/-- A table is removed, and a stale handle of it gets a relationship that takes its slot. -/
def reusedSlot : Query :=
  [.joinProperty ⟨0, 0⟩ "owned_by_id" .inner, .removeTable ⟨1, 0⟩, .addRelationship ⟨1, 0⟩ "Part BOM",
    .addJoin ⟨⟨0, 0⟩, ⟨1, 1⟩, .inner, .oneToMany, "id", "source_id"⟩,
    .addJoin ⟨⟨1, 1⟩, ⟨0, 0⟩, .inner, .oneToOne, "related_id", "id"⟩].foldl after (ofType "Part")

theorem reached_reusedSlot : Reached reusedSlot := by
  have hstart : Reached (ofType "Part") := .start rfl
  have hjoined := hstart.call (c := .joinProperty ⟨0, 0⟩ "owned_by_id" .inner) (Or.inl rfl)
  have hremoved := hjoined.call (c := .removeTable ⟨1, 0⟩) trivial
  have hreused := hremoved.call (c := .addRelationship ⟨1, 0⟩ "Part BOM") (Or.inr ⟨_, rfl, by decide +kernel⟩)
  have hbelow := hreused.call (c := .addJoin ⟨⟨0, 0⟩, ⟨1, 1⟩, .inner, .oneToMany, "id", "source_id"⟩) trivial
  exact hbelow.call (c := .addJoin ⟨⟨1, 1⟩, ⟨0, 0⟩, .inner, .oneToOne, "related_id", "id"⟩) trivial

theorem forest_and_traversals_reusedSlot :
    Reached reusedSlot ∧ reusedSlot.Forest ∧ reusedSlot.walk = [⟨0, 0⟩, ⟨1, 1⟩] ∧
      reusedSlot.isAncestor ⟨0, 0⟩ ⟨1, 1⟩ = true ∧ ReflTransGen reusedSlot.Joined ⟨0, 0⟩ ⟨1, 1⟩ :=
  have h := reached_reusedSlot.forest_and_traversals
  ⟨reached_reusedSlot, h.1, by decide +kernel, by decide +kernel, (h.2.2.2.1 _ _).mp (by decide +kernel)⟩

end ItemQuery.Query
