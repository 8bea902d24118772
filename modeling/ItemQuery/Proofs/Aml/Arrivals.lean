import ItemQuery.Proofs.Aml.Formed
import ItemQuery.Proofs.Aml.Nesting

/-! Which tables come up when a query is written. The item of a table brings the items of its relationships and, of the
    tables behind its foreign keys, those with criteria: each comes up with its parent or has come up before. -/

namespace ItemQuery.Aml

open Query Relation
open Xml (Formed formed_nil)

variable {w : Writer} {a b c t : TableId} {seen mid out : List TableId} {es : List Xml.Event}

/-! ### The parts of an item -/

/-- The items of the relationships of a table. -/
def relationshipParts (w : Writer) (depth : Nat) (item : QueryItem) : List Part :=
  if item.relationships.isEmpty then []
  else [Part.within "Relationships" (Part.all (item.relationships.map fun j => w.item depth j.right [] true))]

theorem joined_of_hop? (hforest : w.query.Forest) {e : Expr} (h : w.hop? a e = some c) : w.query.Joined a c := by
  have hclimbs : ∀ {id : TableId} {j : Join}, w.query.Climbs a id (some j) → w.query.Joined a j.right := by
    intro id j hclimbs
    generalize hresult : some j = result at hclimbs
    induction hclimbs with
    | top => cases hresult
    | found hj hleft =>
      cases hresult
      exact ⟨j, (hforest.parentJoin?_eq_some.mp hj).1, hleft, rfl⟩
    | up _ _ _ ih => exact ih hresult
  unfold Writer.hop? at h
  cases htables : e.tables with
  | nil => simp [htables] at h
  | cons t rest =>
    rw [htables, List.map_cons] at h
    dsimp only at h
    split at h
    next child steps hsteps =>
      obtain ⟨hfirst, -⟩ := List.cons.inj hsteps
      split at h
      next =>
        cases h
        split at hfirst
        next => cases hfirst
        next =>
          obtain ⟨j, hj, rfl⟩ := Option.map_eq_some_iff.mp hfirst
          exact hclimbs ((Option.filter_eq_some_iff.mp hj).1 ▸ hforest.climbs_childTowards a t)
      next => cases h
    next => cases h

theorem item_succ_eq_ok {depth : Nat} {table : TableId} {terms : List Expr} {listed : Bool} :
    w.item (depth + 1) table terms listed seen = .ok (es, out) ↔
      ∃ item listing body, w.query.get? table = some item ∧
        (if listed then w.listingAttributes table item else pure []) = .ok listing ∧
        Part.all (itemParts w depth table item terms seen ++ relationshipParts w depth item) (newcomer table seen ++ seen)
          = .ok (body, out) ∧
        Xml.Event.element "Item" (w.identityAttributes table item ++ listing ++ body) = es := by
  have hunfold : w.item (depth + 1) table terms listed seen = w.query.item table >>= fun item =>
      (if listed then w.listingAttributes table item else pure []) >>= fun listing =>
        Part.all (itemParts w depth table item terms seen ++ relationshipParts w depth item) (newcomer table seen ++ seen)
          >>= fun found =>
            pure (Xml.Event.element "Item" (w.identityAttributes table item ++ listing ++ found.1), found.2) := by
    cases hitem : w.query.get? table with
    | none => rw [Writer.item, Query.item, hitem]; rfl
    | some item =>
      have hfilter : ownFilter w.query table seen = if seen.contains table then [] else item.filter.toList := by
        rw [ownFilter, filterOf, hitem]
        rfl
      have hentered : newcomer table seen ++ seen = if seen.contains table then seen else table :: seen := by
        unfold newcomer
        split <;> rfl
      rw [Writer.item]
      simp only [Query.item, hitem, bind, Except.bind, itemParts, relationshipParts, hfilter, hentered, List.isEmpty_map]
      cases listed <;> rfl
  rw [hunfold, Result.bind_eq_ok]
  simp only [Query.item_eq_ok, Result.bind_eq_ok, Result.pure_eq_ok, Prod.exists, Prod.mk.injEq]
  constructor
  · rintro ⟨item, hitem, listing, hlisting, body, _, hbody, hes, rfl⟩
    exact ⟨item, listing, body, hitem, hlisting, hbody, hes⟩
  · rintro ⟨item, listing, body, hitem, hlisting, hbody, hes⟩
    exact ⟨item, hitem, listing, hlisting, body, out, hbody, hes, rfl⟩

/-! ### Criteria -/

/-- How far criteria are looked for does not matter. -/
theorem hasCriteria_of_deep (hforest : w.query.Forest) {n m : Nat} (hdeep : w.query.Deep n a)
    (h : w.hasCriteria m a = true) : w.hasCriteria n a = true := by
  induction n generalizing m a with
  | zero => exact absurd rfl hdeep.ne_zero
  | succ n ih =>
    cases m with
    | zero => cases h
    | succ m =>
      rw [Writer.hasCriteria] at h ⊢
      cases hitem : w.query.get? a with
      | none =>
        rw [hitem] at h
        cases h
      | some item =>
        rw [hitem] at h
        simp only [Option.any_some, Bool.or_eq_true, List.any_eq_true] at h ⊢
        refine h.imp_right ?_
        rintro ⟨j, hj, hcriteria⟩
        exact ⟨j, hj, hcriteria.imp_right (ih (hdeep.of_joined (hforest.joined_of_mem hitem hj)))⟩

/-- A table has criteria if one behind it has. -/
theorem hasCriteria_of_reached (hforest : w.query.Forest) (hab : ReflTransGen w.query.Joined a b)
    (h : w.hasCriteria (w.query.tableCount + 1) b = true) : w.hasCriteria (w.query.tableCount + 1) a = true := by
  induction hab using ReflTransGen.head_induction_on with
  | refl => exact h
  | @head a c hac _ ih =>
    obtain ⟨j, hj, rfl⟩ := List.mem_map.mp (hforest.mem_children.mpr hac)
    obtain ⟨item, hitem, hmem⟩ := mem_joinsOf.mp hj
    have hbelow := hasCriteria_of_deep hforest ((hforest.rooted.deep a).of_joined hac) ih
    rw [Writer.hasCriteria, hitem]
    simp only [Option.any_some, Bool.or_eq_true, List.any_eq_true]
    exact .inr ⟨j, hmem, .inr hbelow⟩

theorem filterOf_eq_none (h : w.hasCriteria (w.query.tableCount + 1) a = false) : w.query.filterOf a = none := by
  rw [Writer.hasCriteria] at h
  rw [filterOf]
  cases hitem : w.query.get? a with
  | none => rfl
  | some item =>
    rw [hitem] at h
    cases hfilter : item.filter with
    | none => simp [hfilter]
    | some e => simp [hfilter] at h

/-! ### Relations between parts -/

/-- A relation between what two writers write that the combinations of parts keep. -/
structure Combines (w w' : Writer) (R : Part → Part → Prop) : Prop where
  leaf : ∀ table e, R (Part.ofEvents (w.leaf table e)) (Part.ofEvents (w'.leaf table e))
  nil : R (Part.all []) (Part.all [])
  cons : ∀ {part part' parts parts'}, R part part' → R (Part.all parts) (Part.all parts') →
    R (Part.all (part :: parts)) (Part.all (part' :: parts'))
  within : ∀ {part part'} name, R part part' → R (Part.within name part) (Part.within name part')

section
variable {w' : Writer} {R : Part → Part → Prop} {table : TableId} {nested nested' : Writer.Nested}
  {os os' whole whole' : List Writer.Operand}

/-- The same criterion, with related parts. -/
def Alike (R : Part → Part → Prop) (o o' : Writer.Operand) : Prop :=
  o'.1 = o.1 ∧ R o.2 o'.2

theorem map_fst_of_alike (h : List.Forall₂ (Alike R) os os') : os'.map (·.1) = os.map (·.1) := by
  induction h with
  | nil => rfl
  | cons hfirst _ ih => rw [List.map_cons, List.map_cons, hfirst.1, ih]

theorem Combines.all (h : Combines w w' R) {parts parts' : List Part} (hparts : List.Forall₂ R parts parts') :
    R (Part.all parts) (Part.all parts') := by
  induction hparts with
  | nil => exact h.nil
  | cons hfirst _ ih => exact h.cons hfirst ih

variable (hhop : w'.hop? = w.hop?)
  (hnested : ∀ e c, w.hop? table e = some c → ∀ terms, R (nested c terms) (nested' c terms))
include hhop hnested

theorem related_conjunctionParts (hwhole : whole'.map (·.1) = whole.map (·.1)) (h : List.Forall₂ (Alike R) os os')
    (done : List TableId) : List.Forall₂ R (w.conjunctionParts table nested whole done os)
      (w'.conjunctionParts table nested' whole' done os') := by
  induction h generalizing done with
  | nil => exact .nil
  | @cons o o' rest rest' hfirst hrest ih =>
    rw [Writer.conjunctionParts, Writer.conjunctionParts, hhop, hwhole, hfirst.1]
    cases hchild : w.hop? table o.1 with
    | none => exact .cons hfirst.2 (ih done)
    | some c =>
      dsimp only
      split
      · exact ih done
      · exact .cons (hnested o.1 c hchild _) (ih _)

theorem Combines.conjunction (hR : Combines w w' R) (h : List.Forall₂ (Alike R) os os') :
    R (w.conjunction table nested os) (w'.conjunction table nested' os') :=
  hR.all (related_conjunctionParts hhop hnested (map_fst_of_alike h) h [])

theorem Combines.disjunction (hR : Combines w w' R) (h : List.Forall₂ (Alike R) os os') :
    R (w.disjunction table nested os) (w'.disjunction table nested' os') := by
  refine hR.all ?_
  induction h with
  | nil => exact .nil
  | @cons o o' rest rest' hfirst _ ih =>
    refine .cons ?_ ih
    dsimp only
    rw [hfirst.1, hhop]
    cases hchild : w.hop? table o.1 with
    | none => exact hfirst.2
    | some c => exact hnested o.1 c hchild _

/-- By the structure of a criterion. -/
theorem Combines.operands (hR : Combines w w' R) (chain : LogicalOp) (e : Expr) :
    List.Forall₂ (Alike R) (w.operands table nested chain e) (w'.operands table nested' chain e) := by
  have hsingle : ∀ {e part part'}, R part part' → List.Forall₂ (Alike R) [(e, part)] [(e, part')] := fun h =>
    .cons ⟨rfl, h⟩ .nil
  fun_induction Writer.operands w table nested chain e with
  | case1 op l r inner ihl ihr =>
    have hinner := List.rel_append ihl ihr
    cases op with
    | and =>
      rw [Writer.operands, if_pos rfl]
      exact hinner
    | or =>
      rw [Writer.operands, if_pos rfl]
      exact hinner
  | case2 chain op l r inner hne part ihl ihr =>
    have hinner := List.rel_append ihl ihr
    cases op with
    | and =>
      rw [Writer.operands, if_neg hne]
      exact hsingle (hR.within "and" (hR.conjunction hhop hnested hinner))
    | or =>
      rw [Writer.operands, if_neg hne]
      exact hsingle (hR.within "or" (hR.disjunction hhop hnested hinner))
  | case3 chain e ih =>
    rw [Writer.operands]
    exact hsingle (hR.within "not" (hR.conjunction hhop hnested ih))
  | case4 chain e hlogical hnot =>
    rw [Writer.operands]
    · exact hsingle (hR.leaf table e)
    · exact hlogical
    · exact hnot

theorem Combines.flatMap_operands (hR : Combines w w' R) (chain : LogicalOp) (es : List Expr) :
    List.Forall₂ (Alike R) (es.flatMap (w.operands table nested chain))
      (es.flatMap (w'.operands table nested' chain)) := by
  induction es with
  | nil => exact .nil
  | cons e es ih => exact List.rel_append (hR.operands hhop hnested chain e) ih

end

/-! ### Tables that come up -/

/-- The item of `a` is followed by an item of `b`. -/
def Followed (w : Writer) (a b : TableId) : Prop :=
  ∃ item, w.query.get? a = some item ∧ ∃ j ∈ item.joins, j.right = b ∧
    (j.isForeignKey = true → w.hasCriteria (w.query.tableCount + 1) b = true)

/-- Of the tables below `a` that have come up, all tables that follow have come up too. -/
def Tended (w : Writer) (a : TableId) (seen : List TableId) : Prop :=
  ∀ c ∈ seen, TransGen w.query.Joined a c → ∀ d, Followed w c d → d ∈ seen

/-- What comes up in a part of the item of `a`. -/
structure Arrives (w : Writer) (a : TableId) (seen out : List TableId) : Prop where
  kept : ∀ b ∈ seen, b ∈ out
  below : ∀ b ∈ out, b ∈ seen ∨ TransGen w.query.Joined a b
  tended : Tended w a seen → Tended w a out

/-- What comes up with an item of `a`. -/
structure Comes (w : Writer) (a : TableId) (seen out : List TableId) : Prop where
  came : a ∈ out
  kept : ∀ b ∈ seen, b ∈ out
  reached : ∀ b ∈ out, b ∈ seen ∨ ReflTransGen w.query.Joined a b
  tended : Tended w a seen → Tended w a out ∧ ∀ d, Followed w a d → d ∈ out

/-- A part of the item of `a`: it can be written as XML. -/
def Covers (w : Writer) (a : TableId) (part : Part) : Prop :=
  ∀ seen es out, part seen = .ok (es, out) → Formed es ∧ Arrives w a seen out

/-- A part after which the table has come up. -/
def Brings (b : TableId) (part : Part) : Prop :=
  ∀ seen es out, part seen = .ok (es, out) → b ∈ out

theorem arrives_self (w : Writer) (a : TableId) (seen : List TableId) : Arrives w a seen seen :=
  ⟨fun _ => id, fun _ => .inl, id⟩

theorem Arrives.trans (h : Arrives w a seen mid) (h' : Arrives w a mid out) : Arrives w a seen out where
  kept b hb := h'.kept b (h.kept b hb)
  below b hb := (h'.below b hb).elim (h.below b) .inr
  tended := h'.tended ∘ h.tended

theorem Comes.arrives (h : Comes w c seen out) (hac : w.query.Joined a c) : Arrives w a seen out where
  kept := h.kept
  below b hb := (h.reached b hb).imp_right fun hcb => .head' hac hcb
  tended htended := by
    obtain ⟨hbelow, hfollowed⟩ := h.tended fun b hb hcb => htended b hb (.head hac hcb)
    intro b hb hab d hd
    rcases h.reached b hb with hseen | hcb
    · exact h.kept d (htended b hseen hab d hd)
    · rcases reflTransGen_iff_eq_or_transGen.mp hcb with rfl | hcb
      · exact hfollowed d hd
      · exact hbelow b hb hcb d hd

theorem Covers.within {part : Part} (h : Covers w a part) (name : String) : Covers w a (Part.within name part) := by
  intro seen es out hwritten
  obtain ⟨inner, hinner, rfl⟩ := Part.within_eq_ok.mp hwritten
  obtain ⟨hformed, harrives⟩ := h seen inner out hinner
  exact ⟨hformed.element name [], harrives⟩

/-- The same as a relation. -/
def CoversPair (w : Writer) (a : TableId) (part _ : Part) : Prop :=
  Covers w a part

theorem combines_covers (w : Writer) (a : TableId) : Combines w w (CoversPair w a) where
  leaf table e seen es out h := by
    obtain ⟨_, hleaf, hfound⟩ := Result.map_eq_ok.mp h
    cases hfound
    exact ⟨formed_leaf hleaf, arrives_self w a seen⟩
  nil seen es out h := by
    cases h
    exact ⟨formed_nil, arrives_self w a seen⟩
  cons hpart hparts seen es out h := by
    obtain ⟨first, mid, rest, hfirst, hrest, rfl⟩ := Part.all_cons_eq_ok.mp h
    obtain ⟨hformed, harrives⟩ := hpart seen first mid hfirst
    obtain ⟨hformed', harrives'⟩ := hparts mid rest out hrest
    exact ⟨hformed.append hformed', harrives.trans harrives'⟩
  within name hpart := hpart.within name

theorem covers_all {parts : List Part} (h : ∀ part ∈ parts, Covers w a part) : Covers w a (Part.all parts) :=
  have hsame : List.Forall₂ (CoversPair w a) parts parts := List.forall₂_same.mpr h
  (combines_covers w a).all hsame

theorem brings_all {parts : List Part} (h : ∀ part ∈ parts, Covers w a part) {part : Part} (hpart : part ∈ parts)
    (hb : Brings b part) : Brings b (Part.all parts) := by
  intro seen es out hwritten
  induction parts generalizing seen es with
  | nil => cases hpart
  | cons first rest ih =>
    rw [List.forall_mem_cons] at h
    obtain ⟨before, mid, after, hfirst, hrest, -⟩ := Part.all_cons_eq_ok.mp hwritten
    rcases List.mem_cons.mp hpart with rfl | hpart
    · exact (covers_all h.2 mid after out hrest).2.kept b (hb seen before mid hfirst)
    · exact ih h.2 hpart mid after hrest

theorem Brings.within {part : Part} (h : Brings b part) (name : String) : Brings b (Part.within name part) := by
  intro seen es out hwritten
  obtain ⟨inner, hinner, -⟩ := Part.within_eq_ok.mp hwritten
  exact h seen inner out hinner

/-- What comes up with items of at most this depth. -/
def ComesItem (w : Writer) (depth : Nat) : Prop :=
  ∀ table terms listed seen es out, w.item depth table terms listed seen = .ok (es, out) →
    w.query.Deep depth table → Formed es ∧ Comes w table seen out

section
variable {depth : Nat} {table : TableId} {item : QueryItem}

theorem ComesItem.covers_nested (h : ComesItem w depth) (hdeep : w.query.Deep (depth + 1) table)
    (hc : w.query.Joined table c) (terms : List Expr) : Covers w table (nestedItem w depth c terms) := by
  intro seen es out hwritten
  cases hj : w.query.parentJoin? c with
  | none =>
    rw [nestedItem, hj] at hwritten
    cases hwritten
  | some j =>
    rw [nestedItem, hj] at hwritten
    obtain ⟨inner, hinner, rfl⟩ := Part.within_eq_ok.mp hwritten
    obtain ⟨hformed, hcomes⟩ := h c terms false seen inner out hinner (hdeep.of_joined hc)
    exact ⟨hformed.element _ [], hcomes.arrives hc⟩

theorem ComesItem.keyPart (h : ComesItem w depth) (hdeep : w.query.Deep (depth + 1) table) {j : Join}
    (hj : w.query.Joined table j.right) : Covers w table (keyPart w depth j) ∧
      (w.hasCriteria (w.query.tableCount + 1) j.right = true → Brings j.right (keyPart w depth j)) := by
  have hrun : ∀ {seen es out}, Part.within j.leftProperty (w.item depth j.right [] false) seen = .ok (es, out) →
      Formed es ∧ Comes w j.right seen out := fun hwritten => by
    obtain ⟨inner, hinner, rfl⟩ := Part.within_eq_ok.mp hwritten
    obtain ⟨hformed, hcomes⟩ := h j.right [] false _ inner _ hinner (hdeep.of_joined hj)
    exact ⟨hformed.element _ [], hcomes⟩
  constructor
  · intro seen es out hwritten
    unfold Aml.keyPart at hwritten
    split at hwritten
    · cases hwritten
      exact ⟨formed_nil, arrives_self w table seen⟩
    · exact (hrun hwritten).imp_right (·.arrives hj)
  · intro hcriteria seen es out hwritten
    unfold Aml.keyPart at hwritten
    split at hwritten
    next hleft =>
      cases hwritten
      simpa [hcriteria] using hleft
    next => exact (hrun hwritten).2.came

theorem ComesItem.relationshipParts (h : ComesItem w depth) (hforest : w.query.Forest)
    (hdeep : w.query.Deep (depth + 1) table) (hitem : w.query.get? table = some item) :
    (∀ part ∈ relationshipParts w depth item, Covers w table part) ∧
      ∀ j ∈ item.relationships, ∃ part ∈ relationshipParts w depth item, Brings j.right part := by
  have hrun : ∀ j ∈ item.relationships, ∀ seen es out, w.item depth j.right [] true seen = .ok (es, out) →
      (Formed es ∧ Comes w j.right seen out) ∧ w.query.Joined table j.right := fun j hj seen es out hwritten => by
    have hjoined := hforest.joined_of_mem hitem (List.mem_of_mem_filter hj)
    exact ⟨h j.right [] true seen es out hwritten (hdeep.of_joined hjoined), hjoined⟩
  have hall : ∀ part ∈ item.relationships.map fun j => w.item depth j.right [] true, Covers w table part := by
    refine List.forall_mem_map.mpr fun j hj seen es out hwritten => ?_
    obtain ⟨hcomes, hjoined⟩ := hrun j hj seen es out hwritten
    exact hcomes.imp_right (·.arrives hjoined)
  unfold Aml.relationshipParts
  split
  next hempty => simp [List.isEmpty_iff.mp hempty]
  next =>
    refine ⟨List.forall_mem_singleton.mpr ((covers_all hall).within _), fun j hj => ?_⟩
    refine ⟨_, List.mem_singleton.mpr rfl, (brings_all hall (List.mem_map_of_mem hj) ?_).within _⟩
    exact fun seen es out hwritten => (hrun j hj seen es out hwritten).1.2.came

/-- By induction on how deep items lie. -/
theorem comesItem (hforest : w.query.Forest) (depth : Nat) : ComesItem w depth := by
  induction depth with
  | zero => exact fun _ _ _ _ _ _ _ hdeep => absurd rfl hdeep.ne_zero
  | succ depth ih =>
    intro table terms listed seen es out hwritten hdeep
    obtain ⟨item, listing, body, hitem, hlisting, hbody, rfl⟩ := item_succ_eq_ok.mp hwritten
    obtain ⟨hrelated, hbrings⟩ := ih.relationshipParts hforest hdeep hitem
    have hkey : ∀ j ∈ item.foreignKeys, w.query.Joined table j.right := fun j hj =>
      hforest.joined_of_mem hitem (List.mem_of_mem_filter hj)
    have hcriteria : Covers w table (w.conjunction table (nestedItem w depth)
        ((terms ++ ownFilter w.query table seen).flatMap (w.operands table (nestedItem w depth) .and))) := by
      have hnested : ∀ e c, w.hop? table e = some c → ∀ terms,
          CoversPair w table (nestedItem w depth c terms) (nestedItem w depth c terms) := fun e c hc =>
        ih.covers_nested hdeep (joined_of_hop? hforest hc)
      exact (combines_covers w table).conjunction rfl hnested
        ((combines_covers w table).flatMap_operands rfl hnested .and _)
    have hall : ∀ part ∈ itemParts w depth table item terms seen ++ relationshipParts w depth item,
        Covers w table part := by
      refine List.forall_mem_append.mpr ⟨List.forall_mem_cons.mpr ⟨hcriteria, ?_⟩, hrelated⟩
      exact List.forall_mem_map.mpr fun j hj => (ih.keyPart hdeep (hkey j hj)).1
    obtain ⟨hformed, harrives⟩ := covers_all hall _ _ _ hbody
    have hfollowed : ∀ d, Followed w table d → d ∈ out := by
      rintro d ⟨other, hother, j, hj, rfl, hkeyed⟩
      cases hitem.symm.trans hother
      cases hforeign : j.isForeignKey with
      | true =>
        have hj : j ∈ item.foreignKeys := List.mem_filter.mpr ⟨hj, hforeign⟩
        refine brings_all hall ?_ ((ih.keyPart hdeep (hkey j hj)).2 (hkeyed hforeign)) _ _ _ hbody
        exact List.mem_append_left _ (List.mem_cons_of_mem _ (List.mem_map_of_mem hj))
      | false =>
        obtain ⟨part, hpart, hbring⟩ := hbrings j (List.mem_filter.mpr ⟨hj, by simp [hforeign]⟩)
        exact brings_all hall (List.mem_append_right _ hpart) hbring _ _ _ hbody
    have hentered : table ∈ newcomer table seen ++ seen := by
      by_cases hmem : table ∈ seen
      · exact List.mem_append_right _ hmem
      · exact List.mem_append_left _ (mem_newcomer.mpr ⟨rfl, hmem⟩)
    have helement : Formed (Xml.Event.element "Item" (w.identityAttributes table item ++ listing ++ body)) := by
      obtain ⟨pairs, rfl⟩ := exists_listing hlisting
      rw [identityAttributes_eq, ← Xml.attributeEvents_append]
      exact hformed.element "Item" _
    refine ⟨helement, harrives.kept table hentered, fun b hb => harrives.kept b (List.mem_append_right _ hb),
      fun b hb => ?_, fun htended => ⟨harrives.tended fun b hb hbelow => ?_, hfollowed⟩⟩
    · rcases harrives.below b hb with hb | hb
      · rcases List.mem_append.mp hb with hb | hb
        · exact .inr ((mem_newcomer.mp hb).1 ▸ .refl)
        · exact .inl hb
      · exact .inr hb.to_reflTransGen
    · rcases List.mem_append.mp hb with hb | hb
      · rw [(mem_newcomer.mp hb).1] at hbelow
        exact absurd hbelow (hforest.acyclic table)
      · exact fun d hd => List.mem_append_right _ (htended b hb hbelow d hd)

end

/-- Every table on the way to one with criteria is followed. -/
theorem followed_of_criteria (hforest : w.query.Forest) (hab : ReflTransGen w.query.Joined a b)
    (hcriteria : w.hasCriteria (w.query.tableCount + 1) b = true) : ReflTransGen (Followed w) a b := by
  induction hab using ReflTransGen.head_induction_on with
  | refl => exact .refl
  | @head a c hac hcb ih =>
    obtain ⟨j, hj, rfl⟩ := List.mem_map.mp (hforest.mem_children.mpr hac)
    obtain ⟨item, hitem, hmem⟩ := mem_joinsOf.mp hj
    exact .head ⟨item, hitem, j, hmem, rfl, fun _ => hasCriteria_of_reached hforest hcb hcriteria⟩ ih

/-- A table comes up if every table on the way to it is followed. -/
theorem Comes.mem_of_followed (hforest : w.query.Forest) (h : Comes w a [] out) (hab : ReflTransGen (Followed w) a b) :
    b ∈ out := by
  have hfollowed : ∀ {c d}, Followed w c d → w.query.Joined c d := by
    rintro c _ ⟨item, hitem, j, hj, rfl, -⟩
    exact hforest.joined_of_mem hitem hj
  obtain ⟨htended, hfirst⟩ := h.tended nofun
  induction hab with
  | refl => exact h.came
  | @tail c d hac hcd ih =>
    rcases reflTransGen_iff_eq_or_transGen.mp (ReflTransGen.mono (fun _ _ => hfollowed) _ _ hac) with rfl | hbelow
    · exact hfirst d hcd
    · exact htended c ih hbelow d hcd

end ItemQuery.Aml
