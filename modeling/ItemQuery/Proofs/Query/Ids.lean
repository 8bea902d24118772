import ItemQuery.Coercion
import ItemQuery.Proofs.Query.KeyTree

/-! Tables without an id they ask for. The ways through a query and the types of its tables do not depend on ids, so
    that a query reads the same in both, the ids apart. -/

namespace ItemQuery

/-- The fields of a table that ask for ids. -/
inductive IdField where
  | id
  | idList
  | typeId

namespace QueryItem

def asks (item : QueryItem) : IdField → Bool
  | .id => item.id.isSome
  | .idList => !item.idList.isEmpty
  | .typeId => item.typeId.isSome

def without (item : QueryItem) : IdField → QueryItem
  | .id => { item with id := none }
  | .idList => { item with idList := [] }
  | .typeId => { item with typeId := none }

/-- A table that is the same but may ask for fewer ids. -/
def Narrows (item item' : QueryItem) : Prop :=
  ∃ id idList typeId, item' = { item with id := id, idList := idList, typeId := typeId } ∧
    (id = none ∨ id = item.id) ∧ (idList = [] ∨ idList = item.idList) ∧ (typeId = none ∨ typeId = item.typeId)

/-- The field of the table is another. -/
def Loses (field : IdField) (item item' : QueryItem) : Prop :=
  match field with
  | .id => item'.id ≠ item.id
  | .idList => item'.idList ≠ item.idList
  | .typeId => item'.typeId ≠ item.typeId

theorem narrows_self (item : QueryItem) : item.Narrows item :=
  ⟨_, _, _, rfl, .inr rfl, .inr rfl, .inr rfl⟩

theorem narrows_without (item : QueryItem) (field : IdField) : item.Narrows (item.without field) := by
  cases field
  · exact ⟨_, _, _, rfl, .inl rfl, .inr rfl, .inr rfl⟩
  · exact ⟨_, _, _, rfl, .inr rfl, .inl rfl, .inr rfl⟩
  · exact ⟨_, _, _, rfl, .inr rfl, .inr rfl, .inl rfl⟩

theorem loses_without {item : QueryItem} {field : IdField} (h : item.asks field = true) :
    item.Loses field (item.without field) := by
  cases field <;> (intro heq; simp [asks, ← heq, without] at h)

theorem Narrows.relationships_eq {item item' : QueryItem} (h : item.Narrows item') :
    item'.relationships = item.relationships := by
  obtain ⟨_, _, _, rfl, -⟩ := h
  rfl

theorem Narrows.foreignKeys_eq {item item' : QueryItem} (h : item.Narrows item') :
    item'.foreignKeys = item.foreignKeys := by
  obtain ⟨_, _, _, rfl, -⟩ := h
  rfl

end QueryItem

/-! ### Storage -/

namespace Arena

variable {α β : Type} {a : Arena α} {id : TableId}

theorem map_toList (view : α → β) (a : Arena α) : a.toList.map (fun entry => (entry.1, view entry.2)) =
    (a.slots.toList.map fun s => (s.generation, s.value.map view)).zipIdx.filterMap fun s =>
      s.1.2.map fun value => (⟨s.2, s.1.1⟩, value) := by
  simp only [toList, List.map_filterMap, List.zipIdx_map, List.filterMap_map]
  refine congrArg (List.filterMap · _) (funext fun s => ?_)
  cases hvalue : s.1.value <;> simp [hvalue]

/-- What a change leaves as it is, it leaves so in all values. -/
theorem map_toList_modify {f : α → α} (view : α → β) (hf : ∀ value, view (f value) = view value) (a : Arena α)
    (id : TableId) : (a.modify id f).toList.map (fun entry => (entry.1, view entry.2)) =
      a.toList.map fun entry => (entry.1, view entry.2) := by
  rw [map_toList, map_toList]
  unfold modify
  split
  next value hvalue =>
    obtain ⟨s, hs, hgeneration, hlive⟩ := get?_eq_some.mp hvalue
    have hslots : (a.slots.setIfInBounds id.slot ⟨id.generation, some (f value)⟩).toList.map
        (fun s => (s.generation, s.value.map view)) = a.slots.toList.map fun s => (s.generation, s.value.map view) := by
      rw [Array.toList_setIfInBounds, List.map_set]
      refine List.ext_getElem? fun i => ?_
      rw [List.getElem?_set]
      split
      next heq =>
        subst heq
        obtain ⟨hlt, hslot⟩ := Array.getElem?_eq_some_iff.mp hs
        simp [hlt, hslot, hlive, hgeneration, hf]
      next => rfl
    rw [hslots]
  next => rfl

end Arena

namespace Query

variable {q q' : Query} {t : TableId}

/-- The query with a field of a table cleared. -/
def without (q : Query) (t : TableId) (field : IdField) : Query :=
  q.modify t (·.without field)

/-- A query with the same tables, which may ask for fewer ids. -/
structure Alike (q q' : Query) : Prop where
  root : q'.root = q.root
  parameters : q'.parameters = q.parameters
  joins : q'.joins = q.joins
  tableCount : q'.tableCount = q.tableCount
  found : ∀ t, (q.get? t = none ∧ q'.get? t = none) ∨
    ∃ item item', q.get? t = some item ∧ q'.get? t = some item' ∧ item.Narrows item'

theorem alike_without (q : Query) (t : TableId) (field : IdField) : q.Alike (q.without t field) where
  root := rfl
  parameters := rfl
  joins := by
    have hview := Arena.map_toList_modify QueryItem.joins (f := (·.without field))
      (fun item => by cases field <;> rfl) q.arena t
    have hjoins : ∀ q : Query, q.joins = (q.arena.toList.map fun entry => (entry.1, entry.2.joins)).flatMap (·.2) :=
      fun q => by rw [List.flatMap_map]; rfl
    rw [hjoins, hjoins]
    exact congrArg _ hview
  tableCount := by
    have hview := congrArg List.length <| Arena.map_toList_modify (fun _ => ()) (f := (·.without field))
      (fun item => rfl) q.arena t
    rwa [List.length_map, List.length_map] at hview
  found other := by
    rw [without, get?_modify]
    split
    next heq =>
      subst heq
      cases q.get? other with
      | none => exact .inl ⟨rfl, rfl⟩
      | some item => exact .inr ⟨item, _, rfl, rfl, item.narrows_without field⟩
    next =>
      cases q.get? other with
      | none => exact .inl ⟨rfl, rfl⟩
      | some item => exact .inr ⟨item, item, rfl, rfl, item.narrows_self⟩

/-- The field of this table is another. -/
def Loses (q q' : Query) (field : IdField) (t : TableId) : Prop :=
  ∃ item item', q.get? t = some item ∧ q'.get? t = some item' ∧ item.Loses field item'

theorem loses_without {item : QueryItem} {field : IdField} (ht : q.get? t = some item)
    (hasks : item.asks field = true) : q.Loses (q.without t field) field t := by
  refine ⟨item, item.without field, ht, ?_, QueryItem.loses_without hasks⟩
  rw [without, get?_modify, if_pos rfl, ht]
  rfl

theorem Loses.of_get? {field : IdField} (h : q.Loses q' field t) {item item' : QueryItem} (ht : q.get? t = some item)
    (ht' : q'.get? t = some item') : item.Loses field item' := by
  obtain ⟨other, other', hother, hother', hloses⟩ := h
  cases ht.symm.trans hother
  cases ht'.symm.trans hother'
  exact hloses

namespace Alike

variable (h : q.Alike q')
include h

theorem item_cases (t : TableId) : (∃ err, q.item t = .error err ∧ q'.item t = .error err) ∨
    ∃ item item', q.item t = .ok item ∧ q'.item t = .ok item' ∧ q.get? t = some item ∧ q'.get? t = some item' ∧
      item.Narrows item' := by
  obtain ⟨hq, hq'⟩ | ⟨item, item', hq, hq', hnarrows⟩ := h.found t
  · exact .inl ⟨.stale t.slot, by rw [Query.item, hq], by rw [Query.item, hq']⟩
  · exact .inr ⟨item, item', by rw [Query.item, hq], by rw [Query.item, hq'], hq, hq', hnarrows⟩

theorem narrows {item item' : QueryItem} (ht : q.get? t = some item) (ht' : q'.get? t = some item') :
    item.Narrows item' := by
  obtain ⟨hnone, -⟩ | ⟨other, other', hother, hother', hnarrows⟩ := h.found t
  · cases ht.symm.trans hnone
  · cases ht.symm.trans hother
    cases ht'.symm.trans hother'
    exact hnarrows

theorem joined_eq : q'.Joined = q.Joined := by
  funext a b
  rw [Joined, h.joins, Joined]

theorem contains_eq (t : TableId) : q'.contains t = q.contains t := by
  rw [Bool.eq_iff_iff, contains_iff, contains_iff]
  obtain ⟨hq, hq'⟩ | ⟨item, item', hq, hq', -⟩ := h.found t
  · simp [hq, hq']
  · simp [hq, hq']

theorem forest (hforest : q.Forest) : q'.Forest where
  owned t item' ht' j hj := by
    obtain ⟨-, hnone⟩ | ⟨item, other, ht, hother, _, _, _, rfl, -⟩ := h.found t
    · cases ht'.symm.trans hnone
    · cases ht'.symm.trans hother
      exact hforest.owned t item ht j hj
  live := by
    rw [h.joins]
    simpa only [h.contains_eq] using hforest.live
  single := h.joins ▸ hforest.single
  acyclic := h.joined_eq ▸ hforest.acyclic

theorem filterOf_eq (t : TableId) : q'.filterOf t = q.filterOf t := by
  unfold filterOf
  obtain ⟨hq, hq'⟩ | ⟨item, item', hq, hq', _, _, _, rfl, -⟩ := h.found t
  · rw [hq, hq']
  · rw [hq, hq']
    rfl

theorem parentJoin?_eq : q'.parentJoin? = q.parentJoin? :=
  funext fun id => by rw [parentJoin?, h.joins, parentJoin?]

theorem childTowards_eq : q'.childTowards = q.childTowards := by
  funext a id
  have hwithin : ∀ steps id, q'.childWithin a steps id = q.childWithin a steps id := by
    intro steps
    induction steps with
    | zero => exact fun _ => rfl
    | succ steps ih => exact fun id => by simp only [childWithin, h.parentJoin?_eq, ih]
  rw [childTowards, h.tableCount, hwithin, childTowards]

theorem walk_eq : q'.walk = q.walk := by
  have hwithin : ∀ depth seen id, q'.walkFrom depth seen id = q.walkFrom depth seen id := by
    intro depth
    induction depth with
    | zero => exact fun _ _ => rfl
    | succ depth ih =>
      intro seen id
      have hstep : q'.walkFrom depth = q.walkFrom depth := funext fun seen => funext (ih seen)
      simp only [walkFrom, hstep]
      obtain ⟨hq, hq'⟩ | ⟨item, item', hq, hq', _, _, _, rfl, -⟩ := h.found id <;> rw [hq, hq']
  rw [walk, h.tableCount, h.root, hwithin, walk]

theorem foreignKeyTree_eq : q'.foreignKeyTree = q.foreignKeyTree := by
  funext id
  have hqueue : ∀ fuel queue, q'.foreignKeyQueue fuel queue = q.foreignKeyQueue fuel queue := by
    intro fuel
    induction fuel with
    | zero => exact fun _ => rfl
    | succ fuel ih =>
      intro queue
      cases queue with
      | nil => rfl
      | cons id queue =>
        simp only [foreignKeyQueue, ih]
        obtain ⟨hq, hq'⟩ | ⟨item, item', hq, hq', _, _, _, rfl, -⟩ := h.found id
        · rw [hq, hq']
        · rw [hq, hq']
          rfl
  rw [foreignKeyTree, h.tableCount, hqueue, foreignKeyTree]

theorem tableTypeName_eq (ctx : Context) : ctx.tableTypeName q' = ctx.tableTypeName q := by
  funext id
  have hwithin : ∀ steps id, ctx.typeNameWithin q' steps id = ctx.typeNameWithin q steps id := by
    intro steps
    induction steps with
    | zero => exact fun _ => rfl
    | succ steps ih =>
      intro id
      simp only [Context.typeNameWithin, ih]
      obtain ⟨hq, hq'⟩ | ⟨item, item', hq, hq', _, _, _, rfl, -⟩ := h.found id
      · rw [hq, hq']
      · rw [hq, hq']
        rfl
  rw [Context.tableTypeName, h.tableCount, hwithin, Context.tableTypeName]

theorem coerce_eq (ctx : Context) : ctx.coerce q' = ctx.coerce q := by
  have htype : ctx.dataType? q' = ctx.dataType? q := by
    funext p
    rw [Context.dataType?, Context.descriptor?, h.tableTypeName_eq, Context.dataType?, Context.descriptor?]
  funext o
  rw [Context.coerce, htype, Context.coerce]

end Alike

end Query
end ItemQuery
