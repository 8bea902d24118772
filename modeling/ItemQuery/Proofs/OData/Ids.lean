import ItemQuery.OData
import ItemQuery.Proofs.Query.Ids
import ItemQuery.Proofs.Text.Shrinking

/-! The filter option of a query with fewer ids. Paths and filters are written as before, so the option gets shorter with
    each id that is lost, also inside of `any`. Type ids are not written at all. -/

namespace ItemQuery.OData

open Query Relation

namespace Writer

variable {w : Writer} {q' : Query}

/-! ### Expressions -/

section
variable (h : w.query.Alike q')
include h

theorem path_alike : ({ w with query := q' } : Writer).path = w.path := by
  funext id
  have hwithin : ∀ steps id, ({ w with query := q' } : Writer).pathWithin steps id = w.pathWithin steps id := by
    intro steps
    induction steps with
    | zero => exact fun _ => rfl
    | succ steps ih => exact fun id => by simp only [pathWithin, h.parentJoin?_eq, ih]
  rw [path, h.tableCount, hwithin, path]

theorem property_alike : ({ w with query := q' } : Writer).property = w.property := by
  funext p
  rw [property, path_alike h, property]

theorem navigation_alike : ({ w with query := q' } : Writer).navigation = w.navigation := by
  funext j
  simp only [navigation, path_alike h, h.tableTypeName_eq]

end

mutual

theorem value_alike (h : w.query.Alike q') : ∀ e : Expr, ({ w with query := q' } : Writer).value e = w.value e
  | .literal _ => rfl
  | .object o => by
    rw [value, value, h.coerce_eq]
    rfl
  | .parameter name default raw => by
    rw [value, value, optionValue_alike h name default]
    rfl
  | .property p => by rw [value, value, property_alike h]
  | .allProperties _ _ => rfl
  | .pattern _ => rfl
  | .list items => by rw [value, value, values_alike h items]
  | .comparison _ l r => by rw [value, value, value_alike h l, value_alike h r]
  | .like l _ _ => by rw [value, value, value_alike h l]
  | .between l low high _ _ => by rw [value, value, value_alike h l, value_alike h low, value_alike h high]
  | .inList l items _ _ => by rw [value, value, value_alike h l, values_alike h items]
  | .is l _ => by rw [value, value, value_alike h l]
  | .arithmetic _ l r => by rw [value, value, value_alike h l, value_alike h r]
  | .negate e => by rw [value, value, value_alike h e]
  | .not e => by rw [value, value, value_alike h e]
  | .logical _ l r => by rw [value, value, value_alike h l, value_alike h r]
  | .call f args => by rw [value, value, values_alike h args]

theorem optionValue_alike (h : w.query.Alike q') (name : ParamName) :
    ∀ e : Option Expr, ({ w with query := q' } : Writer).optionValue name e = w.optionValue name e
  | none => rfl
  | some e => by rw [optionValue, optionValue, value_alike h e]

theorem values_alike (h : w.query.Alike q') :
    ∀ es : List Expr, ({ w with query := q' } : Writer).values es = w.values es
  | [] => rfl
  | e :: es => by rw [values, values, value_alike h e, values_alike h es]

end

/-! ### Criteria -/

/-- The criteria of a table's id fields, given the path to the id. -/
def idTexts (column : String) (item : QueryItem) : List String :=
  let equal (value : String) := column ++ " eq " ++ Text.quoted value
  (item.id.map equal).toList
    ++ (if item.idList.isEmpty then none else some (group (item.idList.map equal) " or ")).toList

theorem eq_idTexts_of_idTerms {id : TableId} {item : QueryItem} {ts : List String} (h : w.idTerms id item = .ok ts) :
    ts = idTexts ((w.property ⟨id, "id"⟩).toOption.getD "") item := by
  unfold idTerms at h
  unfold idTexts
  cases hproperty : w.property ⟨id, "id"⟩ with
  | error err =>
    rw [hproperty] at h
    cases hid : item.id with
    | some value => rw [hid] at h; cases h
    | none =>
      rw [hid] at h
      cases hlist : item.idList with
      | nil => rw [hlist] at h; cases h; rfl
      | cons => rw [hlist] at h; cases h
  | ok column =>
    rw [hproperty] at h
    cases hid : item.id <;> cases hlist : item.idList <;> (rw [hid, hlist] at h; cases h; rfl)

theorem idTerms_leaves (h : w.query.Alike q') {field : IdField} (hfield : field ≠ .typeId) {id : TableId}
    {item item' : QueryItem} (hnarrows : item.Narrows item') {ts ts' : List String} (hts : w.idTerms id item = .ok ts)
    (hts' : ({ w with query := q' } : Writer).idTerms id item' = .ok ts') :
    Leaves String.length (fun _ => ()) (item.Loses field item') ts' ts := by
  rw [eq_idTexts_of_idTerms hts, eq_idTexts_of_idTerms hts', property_alike h]
  obtain ⟨own, idList, typeId, rfl, hid, hlist, -⟩ := hnarrows
  refine ((Leaves.of_option _ hid).append (.of_list (fun ids => group (ids.map _) " or ") hlist)).mono fun hloses => ?_
  cases field
  · exact .inl hloses
  · exact .inr hloses
  · exact absurd rfl hfield

theorem filterTerm_leaves (h : w.query.Alike q') {item item' : QueryItem} (hnarrows : item.Narrows item')
    {ts ts' : List String} (hts : w.filterTerm item = .ok ts)
    (hts' : ({ w with query := q' } : Writer).filterTerm item' = .ok ts') :
    Leaves String.length (fun _ => ()) False ts' ts := by
  obtain ⟨_, _, _, rfl, -⟩ := hnarrows
  unfold filterTerm at hts hts'
  simp only [value_alike h] at hts'
  rw [hts] at hts'
  cases hts'
  exact .refl ts

theorem and_pos : 0 < " and ".length :=
  Nat.zero_lt_succ 4

/-- The term of a relationship with the criteria behind it. -/
def anyTerm (source var : String) (inner : List String) : String :=
  if inner.isEmpty then source ++ "/any()"
  else source ++ "/any(" ++ var ++ ":" ++ " and ".intercalate inner ++ ")"

theorem anyTerm_shortened {p : Prop} {source var : String} {inner inner' : List String}
    (h : Leaves String.length (fun _ => ()) p inner' inner) :
    Shortened String.length (fun _ => ()) (anyTerm source var inner') (anyTerm source var inner) ∧
      (p → (anyTerm source var inner').length < (anyTerm source var inner).length) := by
  have hany : "/any()".length = "/any(".length + ")".length := rfl
  cases inner with
  | nil =>
    cases h.entries
    exact ⟨⟨le_rfl, rfl⟩, fun hp => absurd (h.less hp) (Nat.lt_irrefl _)⟩
  | cons first rest =>
    have hless : (source ++ "/any()").length < (anyTerm source var (first :: rest)).length := by
      have hcolon : ":".length = 1 := rfl
      simp only [anyTerm, List.isEmpty_cons, Bool.false_eq_true, if_false, String.length_append]
      omega
    cases inner' with
    | nil => exact ⟨⟨hless.le, rfl⟩, fun _ => hless⟩
    | cons first' rest' =>
      obtain ⟨hle, hlt⟩ := length_intercalate_of_leaves and_pos h
      have hsize : ∀ s ss, (anyTerm source var (s :: ss)).length =
          (source ++ "/any(" ++ var ++ ":").length + (" and ".intercalate (s :: ss)).length + ")".length := fun s ss => by
        simp only [anyTerm, List.isEmpty_cons, Bool.false_eq_true, if_false, String.length_append]
      refine ⟨⟨?_, rfl⟩, fun hp => ?_⟩
      · rw [hsize, hsize]
        exact Nat.add_le_add_right (Nat.add_le_add_left hle _) _
      · rw [hsize, hsize]
        exact Nat.add_lt_add_right (Nat.add_lt_add_left (hlt hp) _) _

def relationTerm (w : Writer) (depth : Nat) (j : Join) : Result String := do
  let source ← w.navigation j
  let inner ← terms depth (w.inScope j.right w.nextVariable) j.right
  return anyTerm source w.nextVariable inner

theorem relationTerm_eq_ok {depth : Nat} {j : Join} {term : String} : w.relationTerm depth j = .ok term ↔
    ∃ source inner, w.navigation j = .ok source ∧ terms depth (w.inScope j.right w.nextVariable) j.right = .ok inner ∧
      anyTerm source w.nextVariable inner = term := by
  simp only [relationTerm, Result.bind_eq_ok, Result.pure_eq_ok, exists_and_left]

theorem terms_eq_ok {depth : Nat} {id : TableId} {ts : List String} : terms (depth + 1) w id = .ok ts ↔
    ∃ item ids own related behind, w.query.get? id = some item ∧ w.idTerms id item = .ok ids ∧
      w.filterTerm item = .ok own ∧ item.relationships.reverse.mapM (w.relationTerm depth) = .ok related ∧
      item.foreignKeys.mapM (fun j => terms depth w j.right) = .ok behind ∧
      ids ++ own ++ related ++ behind.flatten = ts := by
  have hterms : terms (depth + 1) w id = (do
      let item ← w.query.item id
      let ids ← w.idTerms id item
      let own ← w.filterTerm item
      let related ← item.relationships.reverse.mapM (w.relationTerm depth)
      let behind ← item.foreignKeys.mapM fun j => terms depth w j.right
      return ids ++ own ++ related ++ behind.flatten) := by
    rw [terms]
    refine congrArg (w.query.item id >>= ·) (funext fun item => ?_)
    refine congrArg (w.idTerms id item >>= ·) (funext fun ids => ?_)
    refine congrArg (w.filterTerm item >>= ·) (funext fun own => congrArg (· >>= _) ?_)
    refine congrArg (List.mapM · _) (funext fun j => ?_)
    refine congrArg (w.navigation j >>= ·) (funext fun source => congrArg (_ >>= ·) (funext fun inner => ?_))
    unfold anyTerm
    split <;> rfl
  rw [hterms]
  simp only [Query.item_eq_ok, Result.bind_eq_ok, Result.pure_eq_ok, exists_and_left]

/-- By induction on how deep joins lie: what is left of the criteria. They lose something if a table that is reached
    loses an id. -/
theorem terms_leaves (hforest : w.query.Forest) (h : w.query.Alike q') {field : IdField} (hfield : field ≠ .typeId)
    {t : TableId} (hloses : w.query.Loses q' field t) {depth : Nat} {id : TableId} (hdeep : w.query.Deep depth id)
    {ts ts' : List String} (hts : terms depth w id = .ok ts)
    (hts' : terms depth ({ w with query := q' } : Writer) id = .ok ts') :
    Leaves String.length (fun _ => ()) (ReflTransGen w.query.Joined id t) ts' ts := by
  induction depth generalizing id w ts ts' with
  | zero => exact absurd rfl hdeep.ne_zero
  | succ depth ih =>
    obtain ⟨item, ids, own, related, behind, hitem, hids, hown, hrelated, hbehind, rfl⟩ := terms_eq_ok.mp hts
    obtain ⟨item', ids', own', related', behind', hitem', hids', hown', hrelated', hbehind', rfl⟩ := terms_eq_ok.mp hts'
    have hnarrows := h.narrows hitem hitem'
    rw [hnarrows.relationships_eq] at hrelated'
    rw [hnarrows.foreignKeys_eq] at hbehind'
    have hany : Leaves String.length (fun _ => ())
        (∃ j ∈ item.relationships.reverse, ReflTransGen w.query.Joined j.right t)
        related' related := by
      refine .of_mapM hrelated hrelated' fun j hj term term' hterm hterm' => ?_
      obtain ⟨source, inner, hsource, hinner, rfl⟩ := relationTerm_eq_ok.mp hterm
      obtain ⟨source', inner', hsource', hinner', rfl⟩ := relationTerm_eq_ok.mp hterm'
      rw [navigation_alike h, hsource] at hsource'
      cases hsource'
      have hjoined := hforest.joined_of_mem hitem (List.mem_of_mem_filter (List.mem_reverse.mp hj))
      exact anyTerm_shortened (ih (w := w.inScope j.right w.nextVariable) hforest h hloses (hdeep.of_joined hjoined)
        hinner hinner')
    have hkeys : Leaves String.length (fun _ => ()) (∃ j ∈ item.foreignKeys, ReflTransGen w.query.Joined j.right t)
        behind'.flatten behind.flatten := by
      refine .flatten_mapM hbehind hbehind' fun j hj us us' hus hus' => ?_
      exact ih hforest h hloses (hdeep.of_joined (hforest.joined_of_mem hitem (List.mem_of_mem_filter hj))) hus hus'
    refine ((((idTerms_leaves h hfield hnarrows hids hids').append (filterTerm_leaves h hnarrows hown hown')).append
      hany).append hkeys).mono fun hreach => ?_
    rcases hreach.cases_head with rfl | ⟨b, hb, hbt⟩
    · exact .inl (.inl (.inl (hloses.of_get? hitem hitem')))
    · obtain ⟨j, hj, rfl⟩ := List.mem_map.mp (hforest.mem_children.mpr hb)
      obtain ⟨other, hother, hmem⟩ := mem_joinsOf.mp hj
      cases hitem.symm.trans hother
      cases hkey : j.isForeignKey with
      | true => exact .inr ⟨j, List.mem_filter.mpr ⟨hmem, hkey⟩, hbt⟩
      | false => exact .inl (.inr ⟨j, List.mem_reverse.mpr (List.mem_filter.mpr ⟨hmem, by simp [hkey]⟩), hbt⟩)

end Writer

/-- The filter option shows each id and each list of ids that a table asks for. -/
theorem toODataFilter_ne {q q' : Query} (hrooted : q.Rooted) (h : q.Alike q') {field : IdField}
    (hfield : field ≠ .typeId) {t : TableId} (hloses : q.Loses q' field t) (ht : t ∈ q.walk) {ctx : Context}
    {out : Option String} (hout : q.toODataFilter ctx = .ok out) : q'.toODataFilter ctx ≠ .ok out := by
  intro hout'
  obtain ⟨terms, hterms, hfilter⟩ := Result.bind_eq_ok.mp hout
  obtain ⟨terms', hterms', hfilter'⟩ := Result.bind_eq_ok.mp hout'
  rw [Result.pure_eq_ok] at hfilter hfilter'
  subst hfilter
  have hstart : writer ctx q' = { writer ctx q with query := q' } := by
    unfold writer
    rw [h.root]
  change Writer.terms (q'.tableCount + 1) (writer ctx q') q'.root = _ at hterms'
  rw [h.tableCount, h.root, hstart] at hterms'
  have hreach := hrooted.mem_walk.mp ht
  have hleaves := Writer.terms_leaves (w := writer ctx q) hrooted.forest h hfield hloses (hrooted.deep _) hterms hterms'
  cases terms with
  | nil => exact absurd (hleaves.less hreach) (Nat.not_lt_zero _)
  | cons first rest =>
    cases terms' with
    | nil => cases hfilter'
    | cons first' rest' =>
      have hlength := (length_intercalate_of_leaves Writer.and_pos hleaves).2 hreach
      have hsame : " and ".intercalate (first' :: rest') = " and ".intercalate (first :: rest) := Option.some.inj hfilter'
      rw [hsame] at hlength
      exact Nat.lt_irrefl _ hlength

end ItemQuery.OData
