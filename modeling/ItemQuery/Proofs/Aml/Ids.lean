import ItemQuery.Proofs.Aml.Arrivals
import ItemQuery.Proofs.Query.Ids
import ItemQuery.Proofs.Xml.Shrinking

/-! The items of a query with fewer ids. Criteria are written as before, but a table behind a foreign key that has no
    criteria any more is left out, with all that stands behind it. So the filters of fewer tables may be said to be
    written: of those that are missing, none has a filter. -/

namespace ItemQuery.Aml

open Query Relation
open Xml (Event Formed Thinned formed_nil)

variable {w : Writer} {q' : Query} {table : TableId} {es : List Event}

/-! ### Attributes -/

/-- The length of an attribute, one less for the mark. -/
def pairSize (pair : String × String) : Nat :=
  pair.1.length + (Xml.escaped pair.2).length + 3

theorem load_pairSize (pairs : List (String × String)) : load pairSize pairs = (Xml.attributesText pairs).length := by
  induction pairs with
  | nil => rfl
  | cons pair pairs ih =>
    have hblank : " ".length = 1 := rfl
    have hopen : "=\"".length = 2 := rfl
    have hclose : "\"".length = 1 := rfl
    rw [load_cons, ih, Xml.attributesText, Xml.attributeText, pairSize]
    simp only [String.length_append]
    omega

theorem leaves_idPairs {item item' : QueryItem} (hnarrows : item.Narrows item') (field : IdField) :
    Leaves pairSize (fun _ => ()) (item.Loses field item') (idPairs item') (idPairs item) := by
  obtain ⟨own, idList, typeId, rfl, hid, hlist, htype⟩ := hnarrows
  refine (((Leaves.of_option _ hid).append (.of_list (fun ids => ("idlist", ",".intercalate ids)) hlist)).append
    (.of_option _ htype)).mono fun hloses => ?_
  cases field
  · exact .inl (.inl hloses)
  · exact .inl (.inr hloses)
  · exact .inr hloses

/-! ### Writers that differ in ids only -/

namespace Writer

theorem bound?_alike (w : Writer) (q' : Query) : ({ w with query := q' } : Writer).bound? = w.bound? :=
  rfl

mutual

theorem valueText_alike (w : Writer) (q' : Query) :
    ∀ e : Expr, ({ w with query := q' } : Writer).valueText e = w.valueText e
  | .parameter name default raw => by
    rw [valueText, valueText, bound?_alike, optionValueText_alike w q' name default]
  | .call f args => by
    cases f <;> cases args <;> rfl
  | .object _ | .property _ | .allProperties _ _ | .pattern _ | .list _ | .comparison _ _ _ | .like _ _ _
  | .between _ _ _ _ _ | .inList _ _ _ _ | .is _ _ | .arithmetic _ _ _ | .negate _ | .not _ | .logical _ _ _ => rfl
  | .literal l => by cases l <;> rfl

theorem optionValueText_alike (w : Writer) (q' : Query) (name : ParamName) :
    ∀ e : Option Expr, ({ w with query := q' } : Writer).optionValueText name e = w.optionValueText name e
  | none => rfl
  | some e => by rw [optionValueText, optionValueText, valueText_alike w q' e]

end

mutual

theorem listText_alike (w : Writer) (q' : Query) :
    ∀ e : Expr, ({ w with query := q' } : Writer).listText e = w.listText e
  | .parameter name default raw => by
    rw [listText, listText, bound?_alike, optionListText_alike w q' name default]
  | .object _ | .literal _ | .property _ | .allProperties _ _ | .pattern _ | .list _ | .comparison _ _ _ | .like _ _ _
  | .between _ _ _ _ _ | .inList _ _ _ _ | .is _ _ | .arithmetic _ _ _ | .negate _ | .not _ | .logical _ _ _
  | .call _ _ => rfl

theorem optionListText_alike (w : Writer) (q' : Query) (name : ParamName) :
    ∀ e : Option Expr, ({ w with query := q' } : Writer).optionListText name e = w.optionListText name e
  | none => rfl
  | some e => by rw [optionListText, optionListText, listText_alike w q' e]

end

theorem leaf_alike (w : Writer) (q' : Query) (table : TableId) (e : Expr) :
    ({ w with query := q' } : Writer).leaf table e = w.leaf table e := by
  unfold leaf
  simp only [valueText_alike, listText_alike, funext (listText_alike w q')]

section
variable (h : w.query.Alike q')
include h

theorem hop?_alike : ({ w with query := q' } : Writer).hop? = w.hop? := by
  funext table e
  simp only [hop?, h.childTowards_eq]

theorem select?_alike : ({ w with query := q' } : Writer).select? = w.select? := by
  funext depth id
  induction depth generalizing id with
  | zero => rfl
  | succ depth ih =>
    simp only [select?, ih]
    obtain ⟨hq, hq'⟩ | ⟨item, item', hq, hq', _, _, _, rfl, -⟩ := h.found id
    · rw [hq, hq']
    · rw [hq, hq']
      rfl

theorem listingAttributes_alike {item item' : QueryItem} (hnarrows : item.Narrows item') :
    ({ w with query := q' } : Writer).listingAttributes table item' = w.listingAttributes table item := by
  obtain ⟨_, _, _, rfl, -⟩ := hnarrows
  simp only [listingAttributes, select?_alike h, h.tableCount]
  rfl

/-- Criteria are not gained. -/
theorem hasCriteria_of_alike {depth : Nat} {id : TableId}
    (hcriteria : ({ w with query := q' } : Writer).hasCriteria depth id = true) : w.hasCriteria depth id = true := by
  induction depth generalizing id with
  | zero => cases hcriteria
  | succ depth ih =>
    rw [hasCriteria] at hcriteria ⊢
    obtain ⟨hq, hq'⟩ | ⟨item, item', hq, hq', hnarrows⟩ := h.found id
    · rw [hq'] at hcriteria
      cases hcriteria
    · rw [hq'] at hcriteria
      rw [hq]
      obtain ⟨own, idList, typeId, rfl, hid, hlist, -⟩ := hnarrows
      simp only [Option.any_some, Bool.or_eq_true, List.any_eq_true] at hcriteria ⊢
      rcases hcriteria with ((hfilter | hown) | hlisted) | ⟨j, hj, hcriteria⟩
      · exact .inl (.inl (.inl hfilter))
      · rcases hid with rfl | rfl
        · cases hown
        · exact .inl (.inl (.inr hown))
      · rcases hlist with rfl | rfl
        · cases hlisted
        · exact .inl (.inr hlisted)
      · exact .inr ⟨j, hj, hcriteria.imp_right ih⟩

end

end Writer

/-! ### Items with fewer ids -/

/-- Tables that have come up, and those that have come up without the ids: the ones that have not have no criteria. -/
structure Lags (w : Writer) (seen seen' : List TableId) : Prop where
  sub : ∀ b ∈ seen', b ∈ seen
  idle : ∀ b ∈ seen, b ∉ seen' → w.hasCriteria (w.query.tableCount + 1) b = false

/-- Less is written with the second part, and it is shorter if the table comes up in the first. -/
def Trails (w : Writer) (t : TableId) (part part' : Part) : Prop :=
  ∀ seen seen' es es' out out', Lags w seen seen' → part seen = .ok (es, out) → part' seen' = .ok (es', out') →
    Lags w out out' ∧ Thinned (t ∈ out ∧ t ∉ seen) es' es

section
variable {t c : TableId} {seen seen' : List TableId}

theorem Trails.within {part part' : Part} (h : Trails w t part part') (name : String) :
    Trails w t (Part.within name part) (Part.within name part') := by
  intro seen seen' es es' out out' hlags hes hes'
  obtain ⟨inner, hinner, rfl⟩ := Part.within_eq_ok.mp hes
  obtain ⟨inner', hinner', rfl⟩ := Part.within_eq_ok.mp hes'
  obtain ⟨hout, hthinned⟩ := h seen seen' inner inner' out out' hlags hinner hinner'
  exact ⟨hout, hthinned.within name []⟩

theorem combines_trails (w : Writer) (q' : Query) (t : TableId) :
    Combines w { w with query := q' } (Trails { w with query := q' } t) where
  leaf table e seen seen' es es' out out' hlags hes hes' := by
    rw [Writer.leaf_alike] at hes'
    obtain ⟨found, hfound, heq⟩ := Result.map_eq_ok.mp hes
    obtain ⟨found', hfound', heq'⟩ := Result.map_eq_ok.mp hes'
    cases heq
    cases heq'
    cases hfound.symm.trans hfound'
    exact ⟨hlags, (formed_leaf hfound).thinned.mono fun h => h.2 h.1⟩
  nil seen seen' es es' out out' hlags hes hes' := by
    cases hes
    cases hes'
    exact ⟨hlags, formed_nil.thinned.mono fun h => h.2 h.1⟩
  cons hpart hparts seen seen' es es' out out' hlags hes hes' := by
    obtain ⟨first, mid, rest, hfirst, hrest, rfl⟩ := Part.all_cons_eq_ok.mp hes
    obtain ⟨first', mid', rest', hfirst', hrest', rfl⟩ := Part.all_cons_eq_ok.mp hes'
    obtain ⟨hmid, hthinned⟩ := hpart seen seen' first first' mid mid' hlags hfirst hfirst'
    obtain ⟨hout, hthinned'⟩ := hparts mid mid' rest rest' out out' hmid hrest hrest'
    refine ⟨hout, (hthinned.append hthinned').mono fun ⟨hcame, hnew⟩ => ?_⟩
    by_cases hmem : t ∈ mid
    · exact .inl ⟨hmem, hnew⟩
    · exact .inr ⟨hcame, hmem⟩
  within name hpart := hpart.within name

theorem Lags.newcomer (h : Lags w seen seen') (table : TableId) :
    Lags w (newcomer table seen ++ seen) (newcomer table seen' ++ seen') := by
  have hmem : ∀ {b} {seen : List TableId}, b ∈ Aml.newcomer table seen ++ seen ↔ b = table ∨ b ∈ seen := by
    intro b seen
    rw [List.mem_append, mem_newcomer]
    constructor
    · exact Or.imp_left And.left
    · rintro (rfl | hb)
      · exact (Classical.em (b ∈ seen)).symm.imp_left fun hb => ⟨rfl, hb⟩
      · exact .inr hb
  refine ⟨fun b hb => hmem.mpr ((hmem.mp hb).imp_right (h.sub b)), fun b hb hnot => ?_⟩
  obtain ⟨hne, hnew⟩ := not_or.mp (hmem.not.mp hnot)
  exact h.idle b ((hmem.mp hb).resolve_left hne) hnew

/-- The same filter is added, since a table that has come up only with the ids has none. -/
theorem Lags.ownFilter_eq (halike : w.query.Alike q') (h : Lags { w with query := q' } seen seen') :
    ownFilter q' table seen' = ownFilter w.query table seen := by
  unfold ownFilter
  rw [halike.filterOf_eq]
  by_cases hseen' : table ∈ seen'
  · rw [if_pos (by simpa using hseen'), if_pos (by simpa using h.sub table hseen')]
  · rw [if_neg (by simpa using hseen')]
    by_cases hseen : table ∈ seen
    · have hnone := filterOf_eq_none (h.idle table hseen hseen')
      rw [if_pos (by simpa using hseen), ← halike.filterOf_eq, hnone]
      rfl
    · rw [if_neg (by simpa using hseen)]

/-- Items of at most this depth. -/
def TrailsItem (w : Writer) (q' : Query) (t : TableId) (depth : Nat) : Prop :=
  ∀ table terms listed, w.query.Deep depth table →
    Trails { w with query := q' } t (w.item depth table terms listed)
      (({ w with query := q' } : Writer).item depth table terms listed)

section
variable {depth : Nat} (hforest : w.query.Forest) (halike : w.query.Alike q')
include hforest halike

omit hforest in
theorem TrailsItem.nested (h : TrailsItem w q' t depth) (hdeep : w.query.Deep (depth + 1) table)
    (hc : w.query.Joined table c) (terms : List Expr) : Trails { w with query := q' } t (nestedItem w depth c terms)
      (nestedItem { w with query := q' } depth c terms) := by
  unfold nestedItem
  dsimp only
  rw [halike.parentJoin?_eq]
  cases w.query.parentJoin? c with
  | none =>
    intro _ _ _ _ _ _ _ hes
    cases hes
  | some j => exact (h c terms false (hdeep.of_joined hc)).within j.leftProperty

theorem TrailsItem.keyPart (h : TrailsItem w q' t depth) (hdeep : w.query.Deep (depth + 1) table) {j : Join}
    (hj : w.query.Joined table j.right) :
    Trails { w with query := q' } t (keyPart w depth j) (keyPart { w with query := q' } depth j) := by
  intro seen seen' es es' out out' hlags hes hes'
  unfold Aml.keyPart at hes hes'
  have hidle := hlags.idle j.right
  dsimp only at hes' hidle
  rw [halike.tableCount] at hes' hidle
  split at hes
  next hleft =>
    cases hes
    split at hes'
    next =>
      cases hes'
      exact ⟨hlags, formed_nil.thinned.mono fun h => h.2 h.1⟩
    next hwritten =>
      -- What is left out with the ids has come up, or has no criteria.
      simp only [Bool.or_eq_true, Bool.not_eq_true', List.contains_iff_mem, not_or, Bool.not_eq_false] at hleft hwritten
      rcases hleft with hseen | hnone
      · rw [hidle hseen hwritten.1] at hwritten
        cases hwritten.2
      · rw [Writer.hasCriteria_of_alike halike hwritten.2] at hnone
        cases hnone
  next hwritten =>
    split at hes'
    next hleft =>
      cases hes'
      obtain ⟨inner, hinner, rfl⟩ := Part.within_eq_ok.mp hes
      obtain ⟨hformed, hcomes⟩ := comesItem hforest depth j.right [] false seen inner out hinner (hdeep.of_joined hj)
      refine ⟨⟨fun b hb => hcomes.kept b (hlags.sub b hb), fun b hb hnew => ?_⟩,
        (hformed.thinned_nil _ []).mono fun _ => trivial⟩
      rcases hcomes.reached b hb with hseen | hreach
      · exact hlags.idle b hseen hnew
      · simp only [Bool.or_eq_true, Bool.not_eq_true', List.contains_iff_mem, not_or, Bool.not_eq_false] at hleft hwritten
        rcases hleft with hseen | hnone
        · exact absurd (hlags.sub _ hseen) hwritten.1
        · rw [← halike.tableCount] at hnone
          rw [← Bool.not_eq_true] at hnone ⊢
          rw [← halike.joined_eq] at hreach
          refine fun hcriteria => hnone ?_
          exact hasCriteria_of_reached (w := { w with query := q' }) (halike.forest hforest) hreach hcriteria
    next =>
      exact (h j.right [] false (hdeep.of_joined hj)).within j.leftProperty seen seen' es es' out out' hlags hes hes'

omit halike in
theorem TrailsItem.relationshipParts (h : TrailsItem w q' t depth) (hdeep : w.query.Deep (depth + 1) table)
    {item item' : QueryItem} (hitem : w.query.get? table = some item) (hnarrows : item.Narrows item') :
    List.Forall₂ (Trails { w with query := q' } t) (relationshipParts w depth item)
      (relationshipParts { w with query := q' } depth item') := by
  unfold Aml.relationshipParts
  rw [hnarrows.relationships_eq]
  split
  next => exact .nil
  next =>
    refine .cons (((combines_trails w q' t).all ?_).within _) .nil
    rw [List.forall₂_map_left_iff, List.forall₂_map_right_iff, List.forall₂_same]
    exact fun j hj => h j.right [] true (hdeep.of_joined (hforest.joined_of_mem hitem (List.mem_of_mem_filter hj)))

/-- By induction on how deep items lie. -/
theorem trailsItem {field : IdField} (hloses : w.query.Loses q' field t) (depth : Nat) : TrailsItem w q' t depth := by
  induction depth with
  | zero => exact fun _ _ _ hdeep => absurd rfl hdeep.ne_zero
  | succ depth ih =>
    intro table terms listed hdeep seen seen' es es' out out' hlags hes hes'
    obtain ⟨item, listing, body, hitem, hlisting, hbody, rfl⟩ := item_succ_eq_ok.mp hes
    obtain ⟨item', listing', body', hitem', hlisting', hbody', rfl⟩ := item_succ_eq_ok.mp hes'
    have hnarrows := halike.narrows hitem hitem'
    rw [Writer.listingAttributes_alike halike hnarrows, hlisting] at hlisting'
    cases hlisting'
    have hparts : List.Forall₂ (Trails { w with query := q' } t)
        (itemParts w depth table item terms seen ++ relationshipParts w depth item)
        (itemParts { w with query := q' } depth table item' terms seen'
          ++ relationshipParts { w with query := q' } depth item') := by
      have hnested : ∀ e c, w.hop? table e = some c → ∀ terms,
          Trails { w with query := q' } t (nestedItem w depth c terms)
            (nestedItem { w with query := q' } depth c terms) := fun e c hc =>
        ih.nested halike hdeep (joined_of_hop? hforest hc)
      have hhop := Writer.hop?_alike halike
      refine List.rel_append (.cons ?_ ?_) (ih.relationshipParts hforest hdeep hitem hnarrows)
      · dsimp only
        rw [hlags.ownFilter_eq halike]
        exact (combines_trails w q' t).conjunction hhop hnested
          ((combines_trails w q' t).flatMap_operands hhop hnested .and _)
      · rw [hnarrows.foreignKeys_eq, List.forall₂_map_left_iff, List.forall₂_map_right_iff, List.forall₂_same]
        exact fun j hj => ih.keyPart hforest halike hdeep (hforest.joined_of_mem hitem (List.mem_of_mem_filter hj))
    obtain ⟨hout, hthinned⟩ := (combines_trails w q' t).all hparts _ _ _ _ _ _ (hlags.newcomer table) hbody hbody'
    refine ⟨hout, ?_⟩
    obtain ⟨pairs, rfl⟩ := exists_listing hlisting
    have hids := leaves_idPairs hnarrows field
    have hle := load_le hids.entries
    have hless := hids.less
    rw [load_pairSize, load_pairSize] at hle hless
    rw [identityAttributes_eq, identityAttributes_eq, ← Xml.attributeEvents_append, ← Xml.attributeEvents_append]
    dsimp only
    rw [halike.tableTypeName_eq]
    refine (hthinned.element ?_ "Item").mono fun ⟨hcame, hnew⟩ => ?_
    · simp only [Xml.length_attributesText_append]
      omega
    · by_cases heq : t = table
      · subst heq
        right
        simp only [Xml.length_attributesText_append]
        have := hless (hloses.of_get? hitem hitem')
        omega
      · refine .inl ⟨hcame, fun hmem => ?_⟩
        rcases List.mem_append.mp hmem with hmem | hmem
        · exact heq (mem_newcomer.mp hmem).1
        · exact hnew hmem

end

end

/-! ### Whole queries -/

/-- The item of the table is written. -/
def ComesUp (ctx : Context) (q : Query) (t : TableId) : Prop :=
  ∃ es seen, Writer.item { ctx, query := q } (q.tableCount + 1) q.root [] true [] = .ok (es, seen) ∧ t ∈ seen

/-- The items of tables that ask for ids are written, by a writer that gives anything at all. -/
theorem comesUp_of_asks {q : Query} (hforest : q.Forest) {t : TableId} (ht : t ∈ q.walk) {item : QueryItem}
    (hitem : q.get? t = some item) {field : IdField} (hasks : item.asks field = true) (hfield : field ≠ .typeId)
    {ctx : Context} {out : String} (hout : q.toAml ctx = .ok out) : ComesUp ctx q t := by
  obtain ⟨es, hes, -⟩ := Result.bind_eq_ok.mp hout
  obtain ⟨⟨found, seen⟩, hfound, rfl⟩ := Result.map_eq_ok.mp hes
  refine ⟨found, seen, hfound, ?_⟩
  have hcriteria : Writer.hasCriteria { ctx, query := q } (q.tableCount + 1) t = true := by
    rw [Writer.hasCriteria, hitem]
    cases field with
    | id => simp [show item.id.isSome = true from hasks]
    | idList => simp [show (!item.idList.isEmpty) = true from hasks]
    | typeId => exact absurd rfl hfield
  have hcomes := comesItem (w := { ctx, query := q }) hforest _ _ _ _ _ _ _ hfound (hforest.rooted.deep _)
  exact hcomes.2.mem_of_followed hforest (followed_of_criteria hforest (hforest.rooted.mem_walk.mp ht) hcriteria)

/-- AML shows each id that a table asks for whose item is written. -/
theorem toAml_ne {q : Query} (hforest : q.Forest) (h : q.Alike q') {field : IdField} {t : TableId}
    (hloses : q.Loses q' field t) {ctx : Context} (hcomes : ComesUp ctx q t) {out : String}
    (hout : q.toAml ctx = .ok out) : q'.toAml ctx ≠ .ok out := by
  intro hout'
  obtain ⟨es, hes, hwrite⟩ := Result.bind_eq_ok.mp hout
  obtain ⟨es', hes', hwrite'⟩ := Result.bind_eq_ok.mp hout'
  obtain ⟨⟨found, seen⟩, hfound, rfl⟩ := Result.map_eq_ok.mp hes
  obtain ⟨⟨found', seen'⟩, hfound', rfl⟩ := Result.map_eq_ok.mp hes'
  rw [h.tableCount, h.root] at hfound'
  obtain ⟨other, seen, hother, hmem⟩ := hcomes
  cases hfound.symm.trans hother
  have hdeep := hforest.rooted.deep q.root
  have htrails := trailsItem (w := { ctx, query := q }) hforest h hloses (q.tableCount + 1) q.root [] true hdeep
  obtain ⟨-, hthinned⟩ := htrails [] [] _ _ _ _ ⟨nofun, nofun⟩ hfound hfound'
  exact hthinned.write_ne ⟨hmem, nofun⟩ (hwrite'.trans hwrite.symm)

end ItemQuery.Aml
