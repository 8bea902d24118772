import ItemQuery.Proofs.Arena
import ItemQuery.Proofs.Query.Tree

/-! Requests for properties share joins. A request finds the foreign key that an earlier one made, whatever came between,
    and asks at most for an outer join; so the tables and joins after many requests depend on which were made, not on
    their order. -/

namespace ItemQuery

open Relation

/-- The join follows the foreign key of this name. -/
def Join.named (p : String) (j : Join) : Bool :=
  j.leftProperty == p && j.rightProperty == "id"

/-- The join after a request of this kind. -/
def Join.asked (kind : JoinKind) (j : Join) : Join :=
  if kind = .leftOuter then { j with kind := .leftOuter } else j

namespace Join

variable {p : String} {kind : JoinKind} {j : Join}

theorem named_iff : j.named p = true ↔ j.leftProperty = p ∧ j.rightProperty = "id" := by
  simp [named]

@[simp] theorem right_asked : (j.asked kind).right = j.right := by
  unfold asked
  split <;> rfl

@[simp] theorem named_asked : (j.asked kind).named p = j.named p := by
  unfold asked
  split <;> rfl

theorem kind_asked : (j.asked kind).kind = .leftOuter ↔ j.kind = .leftOuter ∨ kind = .leftOuter := by
  unfold asked
  split
  next h => simp [h]
  next h => simp [h]

end Join

namespace Query

variable {q q' : Query} {a b c : TableId} {p : String} {kind : JoinKind} {j k : Join}

/-! ### Foreign keys of a table -/

/-- The foreign key of this name. -/
def key? (q : Query) (a : TableId) (p : String) : Option Join :=
  (q.joinsOf a).find? (Join.named p)

theorem key?_eq_bind : q.key? a p = (q.get? a).bind fun item => item.joins.find? (Join.named p) := by
  rw [key?, joinsOf]
  cases q.get? a <;> rfl

theorem Regular.pairwise (h : q.Regular) (a : TableId) (p : String) :
    (q.joinsOf a).Pairwise fun j k => j.named p = true → ¬k.named p = true := by
  have hdistinct := h.distinct a
  rw [List.Nodup, List.pairwise_map, List.pairwise_filter, links, List.pairwise_map] at hdistinct
  refine hdistinct.imp_of_mem fun {j k} hj hk hne hj' hk' => ?_
  rw [Join.named_iff] at hj' hk'
  have hkey : ∀ i ∈ q.joinsOf a, i.rightProperty = "id" → i.link.isForeignKey = true := fun i hi =>
    (h.shape a i.link (List.mem_map_of_mem hi)).mpr
  exact hne (hkey j hj hj'.2) (hkey k hk hk'.2) (hj'.1.trans hk'.1.symm)

theorem Regular.key?_eq_some (h : q.Regular) : q.key? a p = some j ↔ j ∈ q.joinsOf a ∧ j.named p = true := by
  refine ⟨fun hj => ⟨List.mem_of_find?_eq_some hj, List.find?_some hj⟩, fun hj => ?_⟩
  obtain ⟨k, hk⟩ := Option.isSome_iff_exists.mp (List.find?_isSome.mpr ⟨j, hj⟩)
  obtain rfl : k = j := by
    by_contra hne
    have hsymm : Std.Symm fun j k : Join => j.named p = true → ¬k.named p = true := ⟨fun _ _ h hk hj => h hj hk⟩
    exact (h.pairwise a p).forall (List.mem_of_find?_eq_some hk) hj.1 hne (List.find?_some hk) hj.2
  exact hk

/-- The shape of a foreign key. -/
theorem Regular.of_key? (h : q.Regular) (hj : q.key? a p = some j) :
    j.left = a ∧ j.cardinality = .oneToOne ∧ j.leftProperty = p ∧ j.rightProperty = "id" := by
  obtain ⟨hmem, hnamed⟩ := h.key?_eq_some.mp hj
  obtain ⟨hname, hproperty⟩ := Join.named_iff.mp hnamed
  have hforeign := (h.shape a j.link (List.mem_map_of_mem hmem)).mpr hproperty
  exact ⟨h.kept.rooted.left_eq hmem, beq_iff_eq.mp hforeign, hname, hproperty⟩

theorem loosen_eq_map {f : Join → Bool} {js : List Join} (h : js.Pairwise fun j k => f j = true → ¬f k = true) :
    loosen f js = js.map fun j => if f j then { j with kind := .leftOuter } else j := by
  induction js with
  | nil => rfl
  | cons j js ih =>
    rw [List.pairwise_cons] at h
    rw [loosen, List.map_cons]
    split
    next hj =>
      have hrest : ∀ k ∈ js, (if f k then { k with kind := .leftOuter } else k) = k := fun k hk =>
        if_neg (h.1 k hk hj)
      rw [List.map_congr_left hrest, List.map_id']
    next => rw [ih h.2]

/-! ### One request -/

/-- A request for a property of a table, and the table that it gives. -/
structure Step where
  table : TableId
  property : String
  kind : JoinKind
  reached : TableId
deriving DecidableEq, Repr

/-- Where the request is made. -/
def Step.place (s : Step) : TableId × String :=
  (s.table, s.property)

/-- The join of a table that is made for the request. -/
def Step.join (s : Step) : Join :=
  ⟨s.table, s.reached, s.kind, .oneToOne, s.property, "id"⟩

/-- A request uses the foreign key that is there, maybe as an outer join from now on, or adds one to a new table. -/
structure Asks (q : Query) (s : Step) (q' : Query) : Prop where
  start : q.contains s.table = true
  regular : q'.Regular
  live : ∀ id, q'.contains id = true ↔ q.contains id = true ∨ id = s.reached
  joins : ∀ id, q'.joinsOf id = if id = s.table then
    (q.joinsOf id).map (fun j => if j.named s.property then j.asked s.kind else j) ++
      (if q.key? s.table s.property = none then [s.join] else [])
    else q.joinsOf id
  old : ∀ j, q.key? s.table s.property = some j → j.right = s.reached
  new : q.key? s.table s.property = none → ¬q.contains s.reached = true

theorem joinsOf_modify {f : QueryItem → QueryItem} {g : List Join → List Join} (hf : ∀ item, (f item).joins = g item.joins)
    (hg : g [] = []) (a id : TableId) : (q.modify a f).joinsOf id = if id = a then g (q.joinsOf id) else q.joinsOf id := by
  rw [joinsOf, get?_modify]
  split
  next heq =>
    rw [heq, joinsOf]
    cases q.get? a with
    | none => exact hg.symm
    | some item => exact hf item
  next => rfl

theorem Kept.joinsOf_attach (h : q.Kept) {item : QueryItem} (hitem : item.joins = []) (ha : q.contains a = true)
    (id : TableId) : (q.attach a item j).joinsOf id = if id = a then q.joinsOf id ++ [j] else q.joinsOf id := by
  have hstale : q.get? (q.addTable item).1 = none := by
    cases hget : q.get? (q.addTable item).1 with
    | none => rfl
    | some old => exact absurd (contains_iff.mpr ⟨old, hget⟩) (h.not_contains_new item)
  rw [joinsOf, h.get?_attach item j ha]
  split
  next hnew =>
    have hne : id ≠ a := by
      rintro rfl
      exact h.not_contains_new item (hnew ▸ ha)
    rw [if_neg hne, hnew, joinsOf, hstale]
    exact hitem
  next hnew =>
    split
    next heq =>
      obtain ⟨old, hold⟩ := contains_iff.mp ha
      rw [heq, joinsOf, hold]
      rfl
    next => rfl

theorem Regular.modify (h : q.Regular) {f : QueryItem → QueryItem}
    (hf : ∀ item, (f item).joins.map Join.link = item.joins.map Join.link) (a : TableId) : (q.modify a f).Regular where
  kept := h.kept.modify_ends fun id => by rw [ends_eq_map_links, links_modify hf, ends_eq_map_links]
  distinct id := by
    rw [links_modify hf]
    exact h.distinct id
  shape id := by
    rw [links_modify hf]
    exact h.shape id

theorem joinProperty_of_some (h : q.key? a p = some j) : q.joinProperty a p kind =
    (j.right, if kind = .leftOuter then q.modify a fun item => { item with joins := loosen (Join.named p) item.joins }
      else q) := by
  have hfind : ((q.get? a).bind fun item => item.joins.find? fun j => j.leftProperty == p && j.rightProperty == "id") =
      some j := key?_eq_bind.symm.trans h
  simp only [Query.joinProperty, hfind]
  rfl

theorem joinProperty_of_none (h : q.key? a p = none) : q.joinProperty a p kind =
    ((q.addTable { provider := some ⟨a, p⟩ }).1, q.attach a { provider := some ⟨a, p⟩ }
      (Step.join ⟨a, p, kind, (q.addTable { provider := some ⟨a, p⟩ }).1⟩)) := by
  have hfind : ((q.get? a).bind fun item => item.joins.find? fun j => j.leftProperty == p && j.rightProperty == "id") =
      none := key?_eq_bind.symm.trans h
  simp only [Query.joinProperty, hfind]
  rfl

/-- Asking changes the joins of one table, and no join but that of the property. -/
theorem Regular.asks (h : q.Regular) (ha : q.contains a = true) (p : String) (kind : JoinKind) :
    q.Asks ⟨a, p, kind, (q.joinProperty a p kind).1⟩ (q.joinProperty a p kind).2 := by
  cases hkey : q.key? a p with
  | some j =>
    have hj := h.key?_eq_some.mp hkey
    have hlive : q.contains j.right = true := h.kept.rooted.live a _ (mem_ends_of_mem_joinsOf hj.1)
    let f := fun item : QueryItem => { item with joins := loosen (Join.named p) item.joins }
    have hlinks : ∀ item, (f item).joins.map Join.link = item.joins.map Join.link :=
      fun item => map_link_loosen _ item.joins
    rw [joinProperty_of_some hkey]
    by_cases hkind : kind = .leftOuter
    · rw [if_pos hkind]
      refine ⟨ha, h.modify hlinks a, fun id => ?_, fun id => ?_, fun k hk => ?_, fun hnone => ?_⟩
      · rw [contains_modify]
        exact ⟨.inl, fun hid => hid.elim (fun hid => hid) fun heq => heq ▸ hlive⟩
      · rw [joinsOf_modify (f := f) (g := loosen (Join.named p)) (fun _ => rfl) rfl, hkey, if_neg (Option.some_ne_none j),
          List.append_nil, hkind, loosen_eq_map (h.pairwise id p)]
        rfl
      · cases hkey.symm.trans hk
        rfl
      · cases hkey.symm.trans hnone
    · have hsame : ∀ j : Join, j.asked kind = j := fun j => if_neg hkind
      rw [if_neg hkind]
      refine ⟨ha, h, fun id => ?_, fun id => ?_, fun k hk => ?_, fun hnone => ?_⟩
      · exact ⟨.inl, fun hid => hid.elim (fun hid => hid) fun heq => heq ▸ hlive⟩
      · rw [hkey, if_neg (Option.some_ne_none j)]
        simp [hsame]
      · cases hkey.symm.trans hk
        rfl
      · cases hkey.symm.trans hnone
  | none =>
    rw [joinProperty_of_none hkey]
    generalize hitem : ({ provider := some ⟨a, p⟩ } : QueryItem) = item
    have hjoins : item.joins = [] := hitem ▸ rfl
    have hfirst : ∀ k ∈ q.links a, k.isForeignKey = true → k.leftProperty ≠ p := by
      intro k hk hforeign hname
      obtain ⟨j, hj, rfl⟩ := List.mem_map.mp hk
      refine List.find?_eq_none.mp hkey j hj (Join.named_iff.mpr ⟨hname, ?_⟩)
      exact (h.shape a _ hk).mp hforeign
    have hnamed : ∀ j ∈ q.joinsOf a, j.named p = false := fun j hj => by
      simpa using List.find?_eq_none.mp hkey j hj
    refine ⟨ha, ?_, fun id => ?_, fun id => ?_, fun k hk => ?_, fun _ => h.kept.not_contains_new item⟩
    · exact h.attach item hjoins ha rfl rfl (by simp [Step.join, Join.isForeignKey]) fun _ => hfirst
    · rw [h.kept.contains_attach item _ ha, or_comm]
    · rw [h.kept.joinsOf_attach hjoins ha, hkey, if_pos rfl]
      split
      next heq =>
        have hsame : (q.joinsOf id).map (fun j => if j.named p then j.asked kind else j) = q.joinsOf id := by
          refine (List.map_congr_left fun j hj => ?_).trans (List.map_id' _)
          rw [hnamed j (heq ▸ hj)]
          rfl
        rw [hsame]
      next => rfl
    · cases hkey.symm.trans hk

/-! ### What one request changes -/

/-- The table behind the foreign key of this name. -/
def target? (q : Query) (a : TableId) (p : String) : Option TableId :=
  (q.key? a p).map (·.right)

/-- The foreign key of this name keeps rows without a partner. -/
def Outer (q : Query) (a : TableId) (p : String) : Prop :=
  ∃ j, q.key? a p = some j ∧ j.kind = .leftOuter

/-- The joins of a table that no request for a property finds. -/
def others (q : Query) (a : TableId) : List Join :=
  (q.joinsOf a).filter (·.rightProperty != "id")

namespace Asks

variable {s : Step}

theorem exists_key? (h : q.Asks s q') : ∃ j, q'.key? s.table s.property = some j ∧ j.right = s.reached ∧
    (j.kind = .leftOuter ↔ q.Outer s.table s.property ∨ s.kind = .leftOuter) := by
  have hjoins := h.joins s.table
  rw [if_pos rfl] at hjoins
  cases hkey : q.key? s.table s.property with
  | some k =>
    have hmem : k ∈ q.joinsOf s.table := List.mem_of_find?_eq_some hkey
    have hnamed : k.named s.property = true := List.find?_some hkey
    refine ⟨k.asked s.kind, h.regular.key?_eq_some.mpr ⟨?_, Join.named_asked.trans hnamed⟩, ?_, ?_⟩
    · rw [hjoins]
      exact List.mem_append_left _ (List.mem_map.mpr ⟨k, hmem, if_pos hnamed⟩)
    · rw [Join.right_asked, h.old k hkey]
    · simp [Join.kind_asked, Outer, hkey]
  | none =>
    refine ⟨s.join, h.regular.key?_eq_some.mpr ⟨?_, Join.named_iff.mpr ⟨rfl, rfl⟩⟩, rfl, ?_⟩
    · rw [hjoins, if_pos hkey]
      exact List.mem_append_right _ List.mem_cons_self
    · simp [Step.join, Outer, hkey]

theorem key?_of_ne (h : q.Asks s q') (hne : s.place ≠ (a, p)) : q'.key? a p = q.key? a p := by
  rw [key?, h.joins a]
  split
  next heq =>
    have hp : s.property ≠ p := fun hp => hne (Prod.ext heq.symm hp)
    have hstep : ∀ j : Join, j.named p = true → (if j.named s.property then j.asked s.kind else j) = j := by
      intro j hj
      refine if_neg fun hs => hp ?_
      rw [← (Join.named_iff.mp hs).1, (Join.named_iff.mp hj).1]
    have hnamed : (Join.named p ∘ fun j => if j.named s.property then j.asked s.kind else j) = Join.named p := by
      funext j
      rw [Function.comp_apply]
      split
      next => exact Join.named_asked
      next => rfl
    have hnew : (if q.key? s.table s.property = none then [s.join] else []).find? (Join.named p) = none := by
      rw [List.find?_eq_none]
      intro j hj
      split at hj
      next =>
        rw [List.mem_singleton.mp hj]
        exact fun hj => hp (Join.named_iff.mp hj).1
      next => cases hj
    rw [List.find?_append, hnew, Option.or_none, List.find?_map, hnamed, key?]
    cases hfind : (q.joinsOf a).find? (Join.named p) with
    | none => rfl
    | some j => exact congrArg some (hstep j (List.find?_some hfind))
  next => rfl

theorem target?_self (h : q.Asks s q') : q'.target? s.table s.property = some s.reached := by
  obtain ⟨j, hj, hright, -⟩ := h.exists_key?
  rw [target?, hj, ← hright]
  rfl

theorem target?_mono (h : q.Asks s q') (hb : q.target? a p = some b) : q'.target? a p = some b := by
  by_cases heq : s.place = (a, p)
  · cases heq
    obtain ⟨j, hj, rfl⟩ := Option.map_eq_some_iff.mp hb
    rw [h.target?_self, h.old j hj]
  · rwa [target?, h.key?_of_ne heq]

theorem outer_iff (h : q.Asks s q') : q'.Outer a p ↔ q.Outer a p ∨ s.place = (a, p) ∧ s.kind = .leftOuter := by
  by_cases heq : s.place = (a, p)
  · cases heq
    obtain ⟨j, hj, -, hkind⟩ := h.exists_key?
    rw [Step.place, eq_self, true_and, ← hkind, Outer, hj]
    simp
  · simp [Outer, h.key?_of_ne heq, heq]

theorem others_eq (h : q.Asks s q') (a : TableId) : q'.others a = q.others a := by
  rw [others, h.joins a]
  split
  next =>
    have hnamed : ∀ j : Join, j.named s.property = true → (j.rightProperty != "id") = false := fun j hj => by
      rw [(Join.named_iff.mp hj).2, bne_self_eq_false]
    have hasked : ∀ js : List Join,
        (js.map fun j => if j.named s.property then j.asked s.kind else j).filter (·.rightProperty != "id") =
          js.filter (·.rightProperty != "id") := by
      intro js
      induction js with
      | nil => rfl
      | cons j js ih =>
        rw [List.map_cons, List.filter_cons, List.filter_cons, ih]
        split
        next hj =>
          have hj' : (j.asked s.kind).named s.property = true := Join.named_asked.trans hj
          rw [hnamed j hj, hnamed _ hj']
          rfl
        next => rfl
    have hnew : (if q.key? s.table s.property = none then [s.join] else []).filter (·.rightProperty != "id") = [] := by
      split <;> rfl
    rw [List.filter_append, hasked, hnew, List.append_nil, others]
  next => rfl

/-- The only new table is that of a foreign key that was not there. -/
theorem tableCount_eq (h : q.Asks s q') (hq : q.Regular) :
    q'.tableCount = q.tableCount + if q.key? s.table s.property = none then 1 else 0 := by
  have hlive : ∀ id, (q'.arena.get? id).isSome = true ↔ id ∈ q.arena.ids ∨ id = s.reached := by
    intro id
    rw [Arena.mem_ids]
    exact h.live id
  split
  next hkey =>
    have hnew : s.reached ∉ q.arena.ids := fun hmem => h.new hkey (Arena.mem_ids.mp hmem)
    have hnodup : (s.reached :: q.arena.ids).Nodup := List.nodup_cons.mpr ⟨hnew, Arena.nodup_ids⟩
    refine (Arena.length_toList_eq hnodup fun id => ?_).trans ?_
    · rw [hlive, List.mem_cons, or_comm]
    · rw [List.length_cons, Arena.length_ids]
      rfl
  next hkey =>
    obtain ⟨j, hj⟩ := Option.ne_none_iff_exists'.mp hkey
    have hreached : s.reached ∈ q.arena.ids := by
      rw [← h.old j hj, Arena.mem_ids]
      exact hq.kept.rooted.live s.table _ (mem_ends_of_mem_joinsOf (hq.key?_eq_some.mp hj).1)
    have hnodup : q.arena.ids.Nodup := Arena.nodup_ids
    refine (Arena.length_toList_eq hnodup fun id => ?_).trans ?_
    · rw [hlive]
      exact ⟨.inl, fun hid => hid.elim (fun hid => hid) fun heq => heq ▸ hreached⟩
    · rw [Arena.length_ids]
      rfl

end Asks

end Query
end ItemQuery
