import ItemQuery.Proofs.Query.Ids
import ItemQuery.Proofs.Result
import ItemQuery.Proofs.Xml.Shrinking
import ItemQuery.StoredQuery.Writer

/-! The stored form of a query with fewer ids. The condition of each table starts with its ids, and all else is written as
    before, so the document gets shorter with each id that is lost. Type ids are not written at all. -/

namespace ItemQuery.StoredQuery

open Query Relation
open Xml (Event Chunk Scale Formed Thinned formed_nil formed_leaf)
open Xml.Chunk (size Left)

/-! ### Well formed conditions -/

section
variable {scope : Scope} {es : List Event}

theorem formed_operandEvents {e : Expr} (h : operandEvents scope e = .ok es) : Formed es := by
  cases e with
  | property p =>
    rw [operandEvents] at h
    split at h
    · cases h
      exact formed_nil.element "property" [("name", p.name)]
    · split at h
      · cases h
        exact formed_nil.element "property" [("name", p.name), ("query_items_xpath", parentPath)]
      · cases h
  | parameter name =>
    cases h
    exact formed_nil.element "parameter" [("name", name.text)]
  | pattern p =>
    obtain ⟨shown, -, rfl⟩ := Result.map_eq_ok.mp h
    exact formed_leaf "constant" shown
  | object o =>
    cases h
    exact formed_leaf "constant" o.value
  | literal l => cases l <;> (cases h; exact formed_leaf "constant" _)
  | _ => cases h

theorem formed_operatorEvents {name : String} {operands : List Expr} (h : operatorEvents scope name operands = .ok es) :
    Formed es := by
  obtain ⟨inner, hinner, hes⟩ := Result.bind_eq_ok.mp h
  cases hes
  refine (Xml.formed_flatten fun part hpart => ?_).element name []
  obtain ⟨e, -, he⟩ := Result.exists_of_mem hinner hpart
  exact formed_operandEvents he

theorem Formed.negated (h : Formed es) (negated : Bool) : Formed (negatedEvents negated es) := by
  cases negated with
  | false => exact h
  | true => exact h.element "not" []

theorem formed_nullEvents {e : Expr} {wantsNull : Bool} (h : nullEvents scope e wantsNull = .ok es) : Formed es := by
  obtain ⟨inner, hinner, hes⟩ := Result.bind_eq_ok.mp h
  cases hes
  exact ((formed_operandEvents hinner).append (formed_nil.element "null" [])).element _ []

theorem formed_criterionEvents {chain : Option LogicalOp} {e : Expr} (h : criterionEvents scope chain e = .ok es) :
    Formed es := by
  fun_induction criterionEvents scope chain e generalizing es with
  | case1 chain op l r ihl ihr =>
    obtain ⟨left, hleft, h⟩ := Result.bind_eq_ok.mp h
    obtain ⟨right, hright, h⟩ := Result.bind_eq_ok.mp h
    have hboth := (ihl hleft).append (ihr hright)
    rw [Result.pure_eq_ok] at h
    subst h
    split
    · exact hboth
    · exact hboth.element op.keyword []
  | case2 chain e ih =>
    obtain ⟨inner, hinner, h⟩ := Result.bind_eq_ok.mp h
    cases h
    exact (ih hinner).element "not" []
  | case3 => exact formed_operatorEvents h
  | case4 | case5 | case6 =>
    obtain ⟨inner, hinner, rfl⟩ := Result.map_eq_ok.mp h
    exact Formed.negated (formed_operatorEvents hinner) _
  | case7 => exact formed_nullEvents h
  | case8 =>
    cases h
    exact formed_nil
  | case9 => exact formed_nullEvents h
  | case10 => exact formed_operatorEvents h
  | case11 => cases h

theorem exists_groups {terms : List Expr} {found : List (List Event)}
    (h : terms.mapM (criterionEvents scope none) = .ok found) :
    ∃ groups : List (List Chunk), found = groups.map Chunk.listEvents := by
  have hall : ∀ es ∈ found, Formed es := fun es hes => by
    obtain ⟨e, -, he⟩ := Result.exists_of_mem h hes
    exact formed_criterionEvents he
  clear h
  induction found with
  | nil => exact ⟨[], rfl⟩
  | cons es found ih =>
    rw [List.forall_mem_cons] at hall
    obtain ⟨ps, rfl⟩ := hall.1
    obtain ⟨groups, rfl⟩ := ih hall.2
    exact ⟨ps :: groups, rfl⟩

/-! ### Conditions -/

/-- What stands in a condition, given what is written for each criterion. -/
def conditionBody : List (List Chunk) → List Chunk
  | [single] => single
  | groups => [.element "and" [] groups.flatten]

theorem conditionText_of_chunks {terms : List Expr} {groups : List (List Chunk)}
    (h : terms.mapM (criterionEvents scope none) = .ok (groups.map Chunk.listEvents)) :
    conditionText scope terms = .ok (Chunk.element "condition" [] (conditionBody groups)).text := by
  have hevents : conditionEvents scope terms = .ok (Chunk.element "condition" [] (conditionBody groups)).events := by
    rw [conditionEvents, h, Result.ok_bind, Chunk.events_element]
    match groups with
    | [single] => rfl
    | [] => rfl
    | first :: second :: rest =>
      have hand : (Chunk.element "and" [] (first :: second :: rest).flatten).events =
          Event.element "and" ((first :: second :: rest).map Chunk.listEvents).flatten := by
        rw [Chunk.events_element, Chunk.listEvents_flatten]
        rfl
      rw [conditionBody, Chunk.listEvents_singleton, hand]
      · rfl
      · simp
  rw [conditionText, hevents]
  exact (Chunk.element "condition" [] (conditionBody groups)).writes.write_eq

/-- The criteria take up less with fewer elements, unless they have none any more. -/
theorem load_conditionBody {m : Scale} {p : Prop} {groups groups' : List (List Chunk)} (hne : groups' ≠ [])
    (hlength : groups'.length ≤ groups.length) (h : Left m p groups'.flatten groups.flatten) :
    load (size m) (conditionBody groups') ≤ load (size m) (conditionBody groups) ∧
      (p → load (size m) (conditionBody groups') < load (size m) (conditionBody groups)) := by
  match groups', groups with
  | [], _ => exact absurd rfl hne
  | [single'], [single] =>
    simp only [List.flatten_singleton] at h
    exact ⟨load_le h.entries, h.less⟩
  | [single'], first :: second :: rest =>
    rw [List.flatten_singleton] at h
    have hlt := Nat.lt_of_le_of_lt (load_le h.entries) (Chunk.load_lt_element m "and" [] _)
    exact ⟨hlt.le, fun _ => hlt⟩
  | first' :: second' :: rest', first :: second :: rest =>
    have hand := h.within "and" []
    exact ⟨load_le hand.entries, hand.less⟩
  | _ :: _ :: _, [] | _ :: _ :: _, [_] | [_], [] => simp at hlength

end

/-! ### Ids -/

/-- The id of a table as a property. -/
def idProperty : Chunk :=
  .element "property" [("name", "id")] []

def idChunk (value : String) : Chunk :=
  .element "eq" [] [idProperty, .leaf "constant" value]

def idListChunk (values : List String) : Chunk :=
  .element "in" [] (idProperty :: values.map (.leaf "constant"))

/-- What is written for the ids of a table. -/
def idChunks (item : QueryItem) : List Chunk :=
  (item.id.map idChunk).toList ++ (if item.idList.isEmpty then none else some (idListChunk item.idList)).toList

section
variable {item item' : QueryItem} {t : TableId} {own : List Expr} {groups : List (List Chunk)} {es es' : List Event}

theorem operatorEvents_eq {scope : Scope} {name : String} {operands : List Expr} {parts : List Chunk}
    (h : operands.mapM (operandEvents scope) = .ok (parts.map Chunk.events)) :
    operatorEvents scope name operands = .ok (Chunk.element name [] parts).events := by
  rw [operatorEvents, h, Result.ok_bind, Chunk.events_element, Chunk.listEvents, List.flatMap_def]
  rfl

theorem operandEvents_id (t : TableId) : operandEvents { table := t } (.prop t "id") = .ok idProperty.events := by
  rw [Expr.prop, operandEvents]
  exact if_pos rfl

theorem operandEvents_text (scope : Scope) (value : String) :
    operandEvents scope (.text value) = .ok (Chunk.leaf "constant" value).events := by
  rw [Chunk.events_leaf]
  rfl

theorem mapM_idTerms (t : TableId) (item : QueryItem) :
    (Writer.idTerms t item).mapM (criterionEvents { table := t } none) =
    .ok (((idChunks item).map ([·])).map Chunk.listEvents) := by
  have hown : ∀ value, criterionEvents { table := t } none (.comparison .eq (.prop t "id") (.text value)) =
      .ok (Chunk.listEvents [idChunk value]) := fun value => by
    rw [Chunk.listEvents_singleton]
    refine operatorEvents_eq ?_
    rw [List.mapM_cons, List.mapM_cons, operandEvents_id, operandEvents_text]
    rfl
  have hlisted : ∀ values : List String,
      criterionEvents { table := t } none (.inList (.prop t "id") (values.map .text) false none) =
        .ok (Chunk.listEvents [idListChunk values]) := fun values => by
    have hvalues : (values.map Expr.text).mapM (operandEvents { table := t }) =
        .ok ((values.map (Chunk.leaf "constant")).map Chunk.events) := by
      rw [List.mapM_map, List.map_map]
      exact Result.mapM_eq_ok fun value _ => operandEvents_text _ value
    have hoperator : operatorEvents { table := t } "in" (.prop t "id" :: values.map .text) =
        .ok (idListChunk values).events := by
      refine operatorEvents_eq ?_
      rw [List.mapM_cons, operandEvents_id, hvalues]
      rfl
    rw [Chunk.listEvents_singleton, criterionEvents, hoperator]
    rfl
  unfold Writer.idTerms idChunks
  cases item.id <;> cases item.idList.isEmpty <;>
    simp [List.mapM_cons, hown, hlisted, Result.ok_bind, Result.pure_eq_ok]

/-- The condition of a table, given what is written for each of its criteria. -/
def filterChunks (groups : List (List Chunk)) : List Chunk :=
  if groups.isEmpty then []
  else [.filled "filter_xml" [] (Chunk.element "condition" [] (conditionBody groups)).text]

theorem filterEvents_of_chunks {terms : List Expr}
    (h : terms.mapM (criterionEvents { table := t } none) = .ok (groups.map Chunk.listEvents)) :
    Writer.filterEvents t terms = .ok (Chunk.listEvents (filterChunks groups)) := by
  have hlength := (Result.mapM_eq_ok_iff.mp h).length_eq
  rw [List.length_map] at hlength
  unfold Writer.filterEvents Writer.storedCondition filterChunks
  cases terms with
  | nil =>
    obtain rfl := List.length_eq_zero_iff.mp hlength.symm
    rfl
  | cons e terms =>
    cases groups with
    | nil => cases hlength
    | cons group groups =>
      rw [conditionText_of_chunks h]
      have htext : (Chunk.element "condition" [] (conditionBody (group :: groups))).text.isEmpty = false := by
        simpa using (Chunk.element "condition" [] (conditionBody (group :: groups))).text_ne
      simp only [List.isEmpty_cons, Bool.false_eq_true, if_false, Except.map, Option.elim_some, Event.leaf, htext,
        Chunk.listEvents_singleton]
      rfl

theorem exists_own {terms : List Expr} (h : Writer.filterEvents t (terms ++ own) = .ok es) :
    ∃ groups : List (List Chunk),
      own.mapM (criterionEvents { table := t } none) = .ok (groups.map Chunk.listEvents) := by
  obtain ⟨text, htext, -⟩ := Result.map_eq_ok.mp h
  unfold Writer.storedCondition at htext
  split at htext
  next hempty =>
    obtain ⟨-, rfl⟩ := List.append_eq_nil_iff.mp (List.isEmpty_iff.mp hempty)
    exact ⟨[], rfl⟩
  next =>
    obtain ⟨shown, hshown, -⟩ := Result.map_eq_ok.mp htext
    obtain ⟨events, hevents, -⟩ := Result.bind_eq_ok.mp hshown
    obtain ⟨found, hfound, -⟩ := Result.bind_eq_ok.mp hevents
    rw [List.mapM_append] at hfound
    obtain ⟨ids, -, hfound⟩ := Result.bind_eq_ok.mp hfound
    obtain ⟨rest, hrest, -⟩ := Result.bind_eq_ok.mp hfound
    obtain ⟨groups, rfl⟩ := exists_groups hrest
    exact ⟨groups, hrest⟩

theorem left_filterChunks {p : Prop} {ids ids' : List Chunk} (h : ∀ m, Left m p ids' ids) (groups : List (List Chunk)) :
    Left .plain p (filterChunks (ids'.map ([·]) ++ groups)) (filterChunks (ids.map ([·]) ++ groups)) := by
  have hlength : (ids'.map ([·]) ++ groups).length ≤ (ids.map ([·]) ++ groups).length := by
    obtain ⟨kept, hkept, hsub⟩ := List.sublistForall₂_iff.mp (h .plain).entries
    simpa [hkept.length_eq] using hsub.length_le
  have hflat : Left .escaping p (ids'.map ([·]) ++ groups).flatten (ids.map ([·]) ++ groups).flatten := by
    have hsingles : ∀ ids : List Chunk, (ids.map ([·]) ++ groups).flatten = ids ++ groups.flatten := fun ids => by
      rw [List.flatten_append, ← List.flatMap_def, List.flatMap_singleton']
    rw [hsingles, hsingles]
    exact ((h .escaping).append (.refl groups.flatten)).mono .inl
  generalize ids'.map ([·]) ++ groups = gs' at hlength hflat ⊢
  generalize ids.map ([·]) ++ groups = gs at hlength hflat ⊢
  unfold filterChunks
  cases gs' with
  | nil =>
    cases gs with
    | nil => exact ⟨.nil, fun hp => absurd (hflat.less hp) (Nat.lt_irrefl _)⟩
    | cons group gs => exact ⟨.nil, fun _ => Nat.succ_pos _⟩
  | cons group' gs' =>
    cases gs with
    | nil => exact absurd hlength (Nat.not_succ_le_zero _)
    | cons group gs =>
      obtain ⟨hle, hless⟩ := load_conditionBody (List.cons_ne_nil _ _) hlength hflat
      obtain ⟨hshort, hshorter⟩ := Chunk.element_shortened (le_refl (Scale.escaping.total (Xml.attributesText []))) hle
        hless "condition"
      refine Chunk.left_filled ?_ (fun hp => ?_) "filter_xml" []
      · rw [← Chunk.size_succ, ← Chunk.size_succ]
        exact Nat.succ_le_succ hshort.1
      · rw [← Chunk.size_succ, ← Chunk.size_succ]
        exact Nat.succ_lt_succ (hshorter (.inl hp))

/-- The condition is shorter if an id or a list of ids is lost. -/
theorem thinned_filterEvents {field : IdField} (hnarrows : item.Narrows item') (hfield : field ≠ .typeId)
    (h : Writer.filterEvents t (Writer.idTerms t item ++ own) = .ok es)
    (h' : Writer.filterEvents t (Writer.idTerms t item' ++ own) = .ok es') :
    Thinned (item.Loses field item') es' es := by
  obtain ⟨groups, hgroups⟩ := exists_own h
  have hall : ∀ item, (Writer.idTerms t item ++ own).mapM (criterionEvents { table := t } none) =
      .ok (((idChunks item).map ([·]) ++ groups).map Chunk.listEvents) := fun item => by
    rw [List.mapM_append, mapM_idTerms, hgroups, List.map_append]
    rfl
  rw [filterEvents_of_chunks (hall _)] at h h'
  cases h
  cases h'
  refine ⟨_, _, rfl, rfl, left_filterChunks (fun m => ?_) groups⟩
  obtain ⟨own, idList, typeId, rfl, hid, hlist, -⟩ := hnarrows
  refine ((Leaves.of_option idChunk hid).append (.of_list idListChunk hlist)).mono fun hloses => ?_
  cases field
  · exact .inl hloses
  · exact .inr hloses
  · exact absurd rfl hfield

end

/-! ### Documents -/

theorem Thinned.added {p : Prop} {es es' : List Event} (h : Thinned p es' es) (typeName : String) :
    Thinned p (addedItem typeName es') (addedItem typeName es) :=
  h.within "Item" [("type", typeName), ("action", "add")]

theorem Formed.added {es : List Event} (h : Formed es) (typeName : String) : Formed (addedItem typeName es) :=
  h.element "Item" [("type", typeName), ("action", "add")]

theorem formed_optional (name : String) (text : Option String) : Formed (text.elim [] (Event.leaf name)) := by
  cases text with
  | none => exact formed_nil
  | some text => exact formed_leaf name text

namespace Writer

variable {w : Writer} {item : QueryItem} {t : TableId} {es : List Event}

theorem formed_pagingEvents (h : pagingEvents item = .ok es) : Formed es := by
  unfold pagingEvents at h
  split at h
  · cases h
    exact formed_nil
  · obtain ⟨shown, -, h⟩ := Result.bind_eq_ok.mp h
    cases h
    exact formed_leaf "offset_fetch_xml" shown

theorem formed_selectEvents {s : Selection} (h : selectEvents t s = .ok es) : Formed es := by
  have hentry : ∀ name, Formed (addedItem "qry_QueryItemSelectProperty" (Event.leaf "property_name" name)) := fun name =>
    Formed.added (formed_leaf "property_name" name) _
  unfold selectEvents at h
  split at h
  · cases h
    exact hentry _
  · split at h
    · cases h
      exact hentry _
    · cases h
  · cases h

theorem formed_sortEvents {place : Nat} {key : SortKey} (h : sortEvents place key = .ok es) : Formed es := by
  unfold sortEvents at h
  split at h
  · cases h
    exact Formed.added (((formed_leaf _ _).append (formed_leaf _ _)).append (formed_leaf _ _)) _
  · cases h

theorem formed_propertyEvents (h : propertyEvents t item = .ok es) : Formed es := by
  unfold propertyEvents at h
  split at h
  · cases h
    exact formed_nil
  · obtain ⟨select, hselect, h⟩ := Result.bind_eq_ok.mp h
    obtain ⟨order, horder, h⟩ := Result.bind_eq_ok.mp h
    cases h
    refine ((Xml.formed_flatten fun part hpart => ?_).append (Xml.formed_flatten fun part hpart => ?_)).element _ []
    · obtain ⟨s, -, hs⟩ := Result.exists_of_mem hselect hpart
      exact formed_selectEvents hs
    · obtain ⟨entry, -, hentry⟩ := Result.exists_of_mem horder hpart
      exact formed_sortEvents hentry

theorem formed_referenceEvents {j : Join} (h : w.referenceEvents j = .ok es) : Formed es := by
  obtain ⟨key, -, h⟩ := Result.bind_eq_ok.mp h
  cases h
  exact Formed.added (((formed_leaf _ _).append (formed_leaf _ _)).append (formed_leaf _ _)) _

theorem formed_parameterEvents (p : ParameterDef) : Formed (parameterEvents p) :=
  Formed.added ((formed_leaf "name" p.name).append (formed_optional "value" p.default)) _

theorem itemEvents_eq_ok {terms : List (TableId × Expr)} : w.itemEvents terms t = .ok es ↔
    ∃ item typeName filter paging properties, w.query.get? t = some item ∧ w.ctx.tableTypeName w.query t = some typeName ∧
      filterEvents t (idTerms t item ++ ((terms.filter (·.1 == t)).map (·.2)).filter (!isTrue ·)) = .ok filter ∧
      pagingEvents item = .ok paging ∧ propertyEvents t item = .ok properties ∧
      addedItem "qry_QueryItem" (Event.leaf "ref_id" (w.refId t) ++ item.aliasName.elim [] (Event.leaf "alias")
        ++ Event.element "item_type" (Event.attr "keyed_name" typeName ++ [.text typeName])
        ++ filter ++ paging ++ properties) = es := by
  rw [itemEvents, Result.bind_eq_ok]
  simp only [Query.item_eq_ok]
  cases w.ctx.tableTypeName w.query t with
  | none => simp
  | some typeName => simp only [Result.bind_eq_ok, Result.pure_eq_ok, Option.some.injEq, exists_and_left, exists_eq_left']

section
variable {q' : Query} {field : IdField} {es' : List Event} (h : w.query.Alike q')
include h

theorem thinned_itemEvents (hfield : field ≠ .typeId) (hloses : w.query.Loses q' field t) {terms : List (TableId × Expr)}
    {u : TableId} (hes : w.itemEvents terms u = .ok es)
    (hes' : ({ w with query := q' } : Writer).itemEvents terms u = .ok es') : Thinned (u = t) es' es := by
  obtain ⟨item, typeName, filter, paging, properties, hitem, htype, hfilter, hpaging, hproperties, rfl⟩ :=
    itemEvents_eq_ok.mp hes
  obtain ⟨item', typeName', filter', paging', properties', hitem', htype', hfilter', hpaging', hproperties', rfl⟩ :=
    itemEvents_eq_ok.mp hes'
  have hnarrows := h.narrows hitem hitem'
  have hthinned := (thinned_filterEvents hnarrows hfield hfilter hfilter').mono fun heq : u = t =>
    (heq ▸ hloses).of_get? hitem hitem'
  dsimp only at htype'
  rw [h.tableTypeName_eq, htype] at htype'
  cases htype'
  obtain ⟨_, _, _, rfl, -⟩ := hnarrows
  cases hpaging.symm.trans hpaging'
  cases hproperties.symm.trans hproperties'
  have hbefore := ((formed_leaf "ref_id" (w.refId u)).append (formed_optional "alias" item.aliasName)).append
    (Xml.formed_filled "item_type" [("keyed_name", typeName)] typeName)
  refine Thinned.added ?_ "qry_QueryItem"
  refine ((((hbefore.thinned.append hthinned).append (formed_pagingEvents hpaging).thinned).append
    (formed_propertyEvents hproperties).thinned)).mono fun heq => ?_
  exact .inl (.inl (.inr heq))

theorem targets_alike : ({ w with query := q' } : Writer).targets = w.targets := by
  unfold targets
  rw [h.walk_eq]
  refine congrArg (· >>= _) (congrArg (List.mapM · _) (funext fun u => ?_))
  obtain ⟨err, hitem, hitem'⟩ | ⟨item, item', hitem, hitem', -, -, _, _, _, rfl, -⟩ := h.item_cases u
  · rw [hitem, hitem']
  · rw [hitem, hitem']
    rfl

theorem references_alike :
    (fun u => q'.item u >>= fun item => item.joins.mapM ({ w with query := q' } : Writer).referenceEvents) =
    fun u => w.query.item u >>= fun item => item.joins.mapM w.referenceEvents := by
  funext u
  obtain ⟨err, hitem, hitem'⟩ | ⟨item, item', hitem, hitem', -, -, _, _, _, rfl, -⟩ := h.item_cases u
  · rw [hitem, hitem']
    rfl
  · rw [hitem, hitem']
    rfl

/-- The item of the table is shorter, and all others are as they were. -/
theorem thinned_document (hfield : field ≠ .typeId) (hloses : w.query.Loses q' field t) (ht : t ∈ w.query.walk)
    (hes : w.document = .ok es) (hes' : ({ w with query := q' } : Writer).document = .ok es') : Thinned True es' es := by
  obtain ⟨terms, hterms, hes⟩ := Result.bind_eq_ok.mp hes
  obtain ⟨terms', hterms', hes'⟩ := Result.bind_eq_ok.mp hes'
  rw [targets_alike h, hterms] at hterms'
  cases hterms'
  obtain ⟨items, hitems, hes⟩ := Result.bind_eq_ok.mp hes
  obtain ⟨items', hitems', hes'⟩ := Result.bind_eq_ok.mp hes'
  obtain ⟨references, hreferences, hes⟩ := Result.bind_eq_ok.mp hes
  obtain ⟨references', hreferences', hes'⟩ := Result.bind_eq_ok.mp hes'
  rw [h.walk_eq, references_alike h, hreferences] at hreferences'
  cases hreferences'
  cases hes
  cases hes'
  rw [h.walk_eq] at hitems'
  have hthinned : Thinned (∃ u ∈ w.query.walk, u = t) items'.flatten items.flatten :=
    .flatten hitems hitems' fun u _ _ _ hu hu' => thinned_itemEvents h hfield hloses hu hu'
  have hformed : Formed references.flatten.flatten := by
    refine Xml.formed_flatten fun part hpart => ?_
    obtain ⟨parts, hparts, hpart⟩ := List.mem_flatten.mp hpart
    obtain ⟨u, -, hu⟩ := Result.exists_of_mem hreferences hparts
    obtain ⟨item, -, hjoins⟩ := Result.bind_eq_ok.mp hu
    obtain ⟨j, -, hj⟩ := Result.exists_of_mem hjoins hpart
    exact formed_referenceEvents hj
  have hparameters : Formed (w.query.parameters.map parameterEvents).flatten :=
    Xml.formed_flatten (List.forall_mem_map.mpr fun p _ => formed_parameterEvents p)
  dsimp only
  rw [h.parameters]
  refine Thinned.added ?_ "qry_QueryDefinition"
  refine (((hthinned.append hformed.thinned).append hparameters.thinned).within "Relationships" []).mono fun _ => ?_
  exact .inl (.inl ⟨t, ht, rfl⟩)

end

end Writer

/-- The stored form shows each id and each list of ids that a table asks for. -/
theorem toStoredQuery_ne {q q' : Query} (h : q.Alike q') {field : IdField} (hfield : field ≠ .typeId) {t : TableId}
    (hloses : q.Loses q' field t) (ht : t ∈ q.walk) {ctx : Context} {refIds : List String} {out : String}
    (hout : q.toStoredQuery ctx refIds = .ok out) : q'.toStoredQuery ctx refIds ≠ .ok out := by
  intro hout'
  obtain ⟨es, hes, hwrite⟩ := Result.bind_eq_ok.mp hout
  obtain ⟨es', hes', hwrite'⟩ := Result.bind_eq_ok.mp hout'
  unfold events at hes hes'
  rw [h.walk_eq] at hes'
  have hthinned :=
    Writer.thinned_document (w := { ctx, query := q, refIds := q.walk.zip refIds }) h hfield hloses ht hes hes'
  exact hthinned.write_ne trivial (hwrite'.trans hwrite.symm)

end ItemQuery.StoredQuery
