import ItemQuery.Proofs.Query.Ids

/-! Changes of filters. What a query with other filters has in common with the query is all but its filters. -/

namespace ItemQuery.Query

variable {q q' q'' : Query} {id t : TableId} {f : QueryItem → QueryItem}

/-- The query with other filters. -/
structure Refilters (q q' : Query) : Prop where
  items : ∀ t, (q'.get? t).map ({ · with filter := none }) = (q.get? t).map ({ · with filter := none })
  tableCount : q'.tableCount = q.tableCount
  root : q'.root = q.root
  parameters : q'.parameters = q.parameters

theorem Refilters.refl (q : Query) : q.Refilters q :=
  ⟨fun _ => rfl, rfl, rfl, rfl⟩

theorem Refilters.trans (h : q.Refilters q') (h' : q'.Refilters q'') : q.Refilters q'' :=
  ⟨fun t => (h'.items t).trans (h.items t), h'.tableCount.trans h.tableCount, h'.root.trans h.root,
    h'.parameters.trans h.parameters⟩

/-- What is read from a table without its filter. -/
theorem Refilters.bind_get? {α : Type} {view : QueryItem → Option α} (h : q.Refilters q')
    (hview : ∀ item, view { item with filter := none } = view item) (t : TableId) :
    (q'.get? t).bind view = (q.get? t).bind view := by
  have hitems := congrArg (Option.bind · view) (h.items t)
  simpa only [Option.bind_map, Function.comp_def, hview] using hitems

/-- The types of tables and properties do not depend on filters. -/
theorem Refilters.tableTypeName_eq (h : q.Refilters q') (ctx : Context) :
    ctx.tableTypeName q' = ctx.tableTypeName q := by
  funext id
  have hwithin : ∀ steps id, ctx.typeNameWithin q' steps id = ctx.typeNameWithin q steps id := by
    intro steps
    induction steps with
    | zero => exact fun _ => rfl
    | succ steps ih =>
      intro id
      simp only [Context.typeNameWithin, ih]
      exact h.bind_get? (fun _ => rfl) id
  rw [Context.tableTypeName, h.tableCount, hwithin, Context.tableTypeName]

theorem Refilters.dataType?_eq (h : q.Refilters q') (ctx : Context) : ctx.dataType? q' = ctx.dataType? q := by
  funext p
  rw [Context.dataType?, Context.descriptor?, h.tableTypeName_eq, Context.dataType?, Context.descriptor?]

/-- Another filter for one table. -/
theorem refilters_modify (id : TableId) (filter : Option Expr) :
    q.Refilters (q.modify id ({ · with filter := filter })) where
  items t := by
    rw [get?_modify]
    split
    next heq =>
      rw [heq, Option.map_map]
      rfl
    next => rfl
  tableCount := by
    have hcount := congrArg List.length <| Arena.map_toList_modify (fun _ => ()) (f := fun item : QueryItem =>
      { item with filter := filter }) (fun _ => rfl) q.arena id
    rwa [List.length_map, List.length_map] at hcount
  root := rfl
  parameters := rfl

/-- A table that is already as a change would make it. -/
theorem modify_eq_self (h : ∀ item, q.get? id = some item → f item = item) : q.modify id f = q := by
  cases hitem : q.arena.get? id with
  | none => rw [modify, Arena.modify, hitem]
  | some item =>
    obtain ⟨slot, hslot, hgeneration, hvalue⟩ := Arena.get?_eq_some.mp hitem
    obtain ⟨hlt, hget⟩ := Array.getElem?_eq_some_iff.mp hslot
    have hself : (⟨id.generation, some (f item)⟩ : Slot QueryItem) = q.arena.slots[id.slot] := by
      rw [h item hitem, hget, ← hgeneration, ← hvalue]
    simp only [modify, Arena.modify, hitem, hself, Array.setIfInBounds, hlt, dite_true, Array.set_getElem_self]

/-- Two changes of a table one after another. -/
theorem modify_modify (f g : QueryItem → QueryItem) :
    (q.modify id f).modify id g = q.modify id fun item => g (f item) := by
  have hget : (q.arena.modify id f).get? id = (q.arena.get? id).map f := Arena.get?_modify_self f
  cases hitem : q.arena.get? id with
  | none =>
    rw [hitem] at hget
    simp only [modify, Arena.modify, hitem] at hget ⊢
  | some item =>
    rw [hitem, Arena.modify, hitem] at hget
    simp only [modify, Arena.modify, hitem, hget, Option.map_some, Array.setIfInBounds_setIfInBounds]

theorem filterOf_modify (f : QueryItem → QueryItem) (id t : TableId) :
    (q.modify id f).filterOf t = if t = id then (q.get? id).bind fun item => (f item).filter else q.filterOf t := by
  rw [filterOf, get?_modify]
  split
  next => rw [Option.bind_map]; rfl
  next => rfl

theorem contains_of_filterOf {e : Expr} (h : q.filterOf t = some e) : q.contains t = true := by
  obtain ⟨item, hitem, -⟩ := Option.bind_eq_some_iff.mp h
  exact contains_iff.mpr ⟨item, hitem⟩

end ItemQuery.Query
