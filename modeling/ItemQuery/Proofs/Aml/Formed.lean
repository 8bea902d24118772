import ItemQuery.Proofs.Aml.Attributes
import ItemQuery.Proofs.Xml.Shrinking

/-! The events of criteria and attributes are well formed: they are written as XML whatever they hold. -/

namespace ItemQuery.Aml

open Xml (Event Formed formed_nil)

variable {w : Writer} {table : TableId} {es : List Event}

/-! ### Well formed criteria -/

theorem formed_conditionElement (name : String) (condition : Option String) (value : String) :
    Formed (conditionElement name condition value) := by
  have hpairs : condition.elim [] (Event.attr "condition") =
      Xml.attributeEvents (condition.elim [] fun c => [("condition", c)]) := by
    cases condition <;> rfl
  unfold conditionElement
  rw [hpairs]
  split
  · exact formed_nil.element name _
  · exact Xml.formed_filled name _ value

theorem formed_stringTest {f : Function} {args : List Expr} (h : stringTest table f args = .ok es) : Formed es := by
  unfold stringTest at h
  split at h
  next subject sought =>
    have hpart : ∀ part, (ownProperty table subject >>= fun name =>
        Pattern.toWildcard .aml (Pattern.ofShape (testShape f) part) >>= fun shown =>
          pure (conditionElement name (some "like") shown)) = .ok es → Formed es := fun part h => by
      obtain ⟨name, -, h⟩ := Result.bind_eq_ok.mp h
      obtain ⟨shown, -, h⟩ := Result.bind_eq_ok.mp h
      cases h
      exact formed_conditionElement _ _ _
    dsimp only at h
    split at h
    · exact hpart _ h
    · exact hpart _ h
    · cases h
  next => cases h

theorem formed_leaf {e : Expr} (h : w.leaf table e = .ok es) : Formed es := by
  unfold Writer.leaf at h
  split at h
  · cases h
    exact formed_nil
  · cases h
    exact formed_conditionElement _ _ _
  · obtain ⟨name, -, h⟩ := Result.bind_eq_ok.mp h
    obtain ⟨value, -, h⟩ := Result.bind_eq_ok.mp h
    cases h
    exact formed_conditionElement _ _ _
  · split at h
    · obtain ⟨name, -, h⟩ := Result.bind_eq_ok.mp h
      obtain ⟨shown, -, h⟩ := Result.bind_eq_ok.mp h
      cases h
      exact formed_conditionElement _ _ _
    · cases h
  · obtain ⟨name, -, h⟩ := Result.bind_eq_ok.mp h
    obtain ⟨first, -, h⟩ := Result.bind_eq_ok.mp h
    obtain ⟨last, -, h⟩ := Result.bind_eq_ok.mp h
    cases h
    exact formed_conditionElement _ _ _
  · obtain ⟨values, -, h⟩ := Result.bind_eq_ok.mp h
    obtain ⟨name, -, h⟩ := Result.bind_eq_ok.mp h
    cases h
    exact formed_conditionElement _ _ _
  · obtain ⟨name, -, h⟩ := Result.bind_eq_ok.mp h
    cases h
    exact formed_conditionElement _ _ _
  · split at h
    · exact formed_stringTest h
    · cases h
  · split at h
    · cases h
      exact formed_conditionElement _ _ _
    · cases h
  · cases h

/-! ### Attributes -/

/-- The attributes for the ids of a table. -/
def idPairs (item : QueryItem) : List (String × String) :=
  (item.id.map (("id", ·))).toList
    ++ (if item.idList.isEmpty then none else some ("idlist", ",".intercalate item.idList)).toList
    ++ (item.typeId.map (("typeId", ·))).toList

theorem identityAttributes_eq (w : Writer) (table : TableId) (item : QueryItem) :
    w.identityAttributes table item = Xml.attributeEvents
      ((w.ctx.tableTypeName w.query table).elim [] (fun name => [("type", name)]) ++ [("action", "get")]
        ++ idPairs item) := by
  unfold Writer.identityAttributes idPairs
  cases w.ctx.tableTypeName w.query table <;> cases item.id <;> cases item.idList.isEmpty <;> cases item.typeId <;> rfl

theorem exists_listingPairs {item : QueryItem} (h : w.listingAttributes table item = .ok es) :
    ∃ pairs, es = Xml.attributeEvents pairs := by
  have hcarries : Carries "" none _ es := carries_listingAttributes h
  obtain ⟨pairs, -, hpairs, -⟩ := hcarries ({ typeName := some "" }, {}) ⟨rfl, rfl, rfl, rfl⟩
  exact ⟨pairs, hpairs⟩

theorem exists_listing {item : QueryItem} {listed : Bool}
    (h : (if listed then w.listingAttributes table item else pure []) = .ok es) :
    ∃ pairs, es = Xml.attributeEvents pairs := by
  cases listed with
  | true => exact exists_listingPairs h
  | false =>
    cases h
    exact ⟨[], rfl⟩

end ItemQuery.Aml
