import Mathlib.Algebra.Order.Ring.Nat
import ItemQuery.Proofs.Aml.Placement

/-! Items inside of items. The item of a table conveys the criteria that led to it and, of its own filter and the filters
    of all tables behind it, those that are not written yet. -/

namespace ItemQuery.Aml

open Query

/-! ### The parts of an item -/

/-- What is written for criteria behind a foreign key, with items at most `depth` deep. -/
def nestedItem (w : Writer) (depth : Nat) : Writer.Nested := fun child terms =>
  match w.query.parentJoin? child with
  | some j => Part.within j.leftProperty (w.item depth child terms false)
  | none => fun _ => .error (.ambiguous ("table " ++ child.name ++ " is not joined"))

/-- What is written for a foreign key that no criterion led to. -/
def keyPart (w : Writer) (depth : Nat) (j : Join) : Part := fun seen =>
  if seen.contains j.right || !w.hasCriteria (w.query.tableCount + 1) j.right then .ok ([], seen)
  else Part.within j.leftProperty (w.item depth j.right [] false) seen

/-- The table, if it has not come up. -/
def newcomer (table : TableId) (seen : List TableId) : List TableId :=
  if seen.contains table then [] else [table]

/-- The filter that an item of `table` adds. -/
def ownFilter (q : Query) (table : TableId) (seen : List TableId) : List Expr :=
  if seen.contains table then [] else (q.filterOf table).toList

/-- The parts of the item of a table without relationships. -/
def itemParts (w : Writer) (depth : Nat) (table : TableId) (item : QueryItem) (terms : List Expr) (seen : List TableId) :
    List Part :=
  w.conjunction table (nestedItem w depth)
      ((terms ++ ownFilter w.query table seen).flatMap (w.operands table (nestedItem w depth) .and))
    :: item.foreignKeys.map (keyPart w depth)

theorem item_succ {w : Writer} {table : TableId} {item : QueryItem} (hitem : w.query.get? table = some item)
    (hrelationships : item.relationships = []) (depth : Nat) (terms : List Expr) (listed : Bool) (seen : List TableId) :
    w.item (depth + 1) table terms listed seen =
      (if listed then w.listingAttributes table item else pure []) >>= fun listing =>
        (Part.all (itemParts w depth table item terms seen) (newcomer table seen ++ seen)).map fun found =>
          (Xml.Event.element "Item" (w.identityAttributes table item ++ listing ++ found.1), found.2) := by
  have hfilter : ownFilter w.query table seen = if seen.contains table then [] else item.filter.toList := by
    rw [ownFilter, filterOf, hitem]
    rfl
  have hentered : newcomer table seen ++ seen = if seen.contains table then seen else table :: seen := by
    unfold newcomer
    split <;> rfl
  rw [Writer.item, itemParts, hfilter, hentered]
  simp only [Query.item, hitem, bind, Except.bind, hrelationships, List.map_nil, List.isEmpty_nil, if_true,
    List.append_nil]
  cases listed <;> rfl

/-- An item of a query without relationships. -/
theorem item_eq_ok {w : Writer} (htree : w.query.KeyTree) {depth : Nat} {table : TableId}
    (hlive : w.query.contains table = true) {terms : List Expr} {listed : Bool} {seen seen' : List TableId}
    {es : List Xml.Event} (hwritten : w.item (depth + 1) table terms listed seen = .ok (es, seen')) :
    ∃ item listing body, w.query.get? table = some item ∧
      (if listed then w.listingAttributes table item else pure []) = .ok listing ∧
      es = Xml.Event.element "Item" (w.identityAttributes table item ++ listing ++ body) ∧
      Part.all (itemParts w depth table item terms seen) (newcomer table seen ++ seen) = .ok (body, seen') := by
  obtain ⟨item, hitem⟩ := contains_iff.mp hlive
  have hrelationships : item.relationships = [] := by
    refine List.filter_eq_nil_iff.mpr fun j hj => ?_
    have hkey := htree.keys table j.link (List.mem_map_of_mem (mem_joinsOf.mpr ⟨item, hitem, hj⟩))
    simpa using (show j.isForeignKey = true from hkey)
  rw [item_succ hitem hrelationships] at hwritten
  obtain ⟨listing, hlisting, hwritten⟩ := Result.bind_eq_ok.mp hwritten
  obtain ⟨⟨body, after⟩, hbody, hfound⟩ := Result.map_eq_ok.mp hwritten
  cases hfound
  exact ⟨item, listing, body, hitem, hlisting, rfl, hbody⟩

/-! ### Foreign keys -/

/-- What holds of the filters, leaves and names of a query that can be told in AML. -/
structure Tellable (w : Writer) (V : Interpretation → Valuation → Prop) (P : Expr → Prop) : Prop where
  tree : w.query.KeyTree
  leaf : ∀ table e es, w.query.contains table = true → P e → w.leaf table e = .ok es → Conveys w V table es (meanings e)
  sayable : ∀ id e, w.query.filterOf id = some e → Sayable P e
  behind : ∀ id e, w.query.filterOf id = some e → ∀ t ∈ e.tableRefs, w.query.Behind id t
  confined : ∀ id e, w.query.filterOf id = some e → Confined w.query (Prepared w.query id) (e.flatten .and)
  names : ∀ a name b, w.query.Leads a name b → name ∉ reservedNames

/-- The body of an item conveys the criteria that led to it with the filters of all tables that come up, and no filter
    of the table or behind it is left out. -/
structure Inscribed (w : Writer) (V : Interpretation → Valuation → Prop) (table : TableId) (terms : List Expr)
    (seen new : List TableId) (body : List Xml.Event) (Ts : List Meaning) : Prop where
  fresh : ∀ b ∈ new, b ∉ seen
  behind : ∀ b ∈ new, w.query.Behind table b
  settled : Settled w.query (new ++ seen) table
  done : Done w.query (new ++ seen) table
  conveys : Conveys w V table body Ts
  truth : ∀ I v, V I v → Meaning.all Ts I v = (criteria terms I v).and (filters w.query new I v)
  mute : Ts = [] → ∀ e ∈ terms, e.isMute = true

/-- Items of at most this depth tell what they are written for. -/
def DeliversItem (w : Writer) (V : Interpretation → Valuation → Prop) (P : Expr → Prop) (depth : Nat) : Prop :=
  ∀ table terms listed ready seen es seen', w.item depth table terms listed seen = .ok (es, seen') →
    w.query.Deep depth table → w.query.contains table = true →
    (∀ e ∈ terms, Sayable P e ∧ ∀ t ∈ e.tableRefs, w.query.Behind table t) →
    Confined w.query ready (terms.flatMap (Expr.flatten .and)) →
    (∀ b, w.query.Below table b → ready b → Done w.query seen b) →
    Arrived w.query seen (terms.flatMap (Expr.flatten .and)) table → (table ∈ seen → Done w.query seen table) →
    Settled w.query seen table →
    ∃ item listing body new Ts, w.query.get? table = some item ∧
      (if listed then w.listingAttributes table item else pure []) = .ok listing ∧
      es = Xml.Event.element "Item" (w.identityAttributes table item ++ listing ++ body) ∧ seen' = new ++ seen ∧
      Inscribed w V table terms seen new body Ts

section
variable {w : Writer} {V : Interpretation → Valuation → Prop} {P : Expr → Prop} {depth : Nat} {table c : TableId}
  {terms : List Expr} {seen new seen' : List TableId} {body es : List Xml.Event} {Ts : List Meaning}

/-- The item of a foreign key inside of its property. -/
theorem Inscribed.placed (h : Inscribed w V c terms seen new body Ts) (hc : c ∈ w.query.keyed table)
    (hsettled : Settled w.query seen table)
    (hconveys : Conveys w V table es (Meaning.combined .and Ts)) :
    Placed w V table seen new es (Meaning.combined .and Ts) terms where
  visits := hsettled.visits hc h.fresh h.behind h.settled h.done
  conveys := hconveys
  truth I v hV := Meaning.all_combined.trans (h.truth I v hV)
  mute hnil := by
    refine h.mute ?_
    unfold Meaning.combined at hnil
    split at hnil
    next hempty => exact List.isEmpty_iff.mp hempty
    next => cases hnil

theorem length_combined_and : (Meaning.combined .and Ts).length ≤ 1 := by
  unfold Meaning.combined
  split <;> simp

theorem deliversNested (htell : Tellable w V P) (hitem : DeliversItem w V P depth)
    (hdeep : w.query.Deep (depth + 1) table) : DeliversNested w V P table (nestedItem w depth) := by
  intro child terms ready seen es seen' hwritten hchild hterms hconfined hready harrived hsettled
  obtain ⟨j, hj, hleads⟩ := htell.tree.exists_parentJoin? hchild
  rw [nestedItem, hj] at hwritten
  obtain ⟨inner, hinner, rfl⟩ := Part.within_eq_ok.mp hwritten
  obtain ⟨item, listing, body, new, Ts, hget, hlisting, rfl, rfl, hinscribed⟩ :=
    hitem child terms false ready seen inner seen' hinner (htell.tree.deep_of_mem_keyed hdeep hchild)
      (htell.tree.contains_of_mem_keyed hchild) (fun e he => ⟨(hterms e he).2, (hterms e he).1.behind⟩) hconfined
      (fun b hb => hready b ⟨child, hchild, behind_of_below hb⟩) harrived
      (fun hmem => hsettled child hmem ⟨child, hchild, .refl⟩) (hsettled.of_behind (.single hchild))
  cases hlisting
  rw [List.append_nil]
  have hconveys := hinscribed.conveys.child hleads (htell.names _ _ _ hleads) item
  exact ⟨new, _, rfl, hinscribed.placed hchild hsettled hconveys, length_combined_and, hinscribed.behind,
    hinscribed.done⟩

theorem right_mem_keyed {q : Query} {item : QueryItem} (hitem : q.get? table = some item) {j : Join}
    (hj : j ∈ item.foreignKeys) : j.right ∈ q.keyed table := by
  rw [keyed, hitem]
  exact List.mem_map_of_mem hj

/-- A foreign key that no criterion led to. It is left out if it came up before, or if no filter stands behind it. -/
theorem exists_placed_keyPart (htell : Tellable w V P) (hnested : DeliversNested w V P table (nestedItem w depth))
    {item : QueryItem} (hitem : w.query.get? table = some item) {j : Join} (hj : j ∈ item.foreignKeys)
    (hwritten : keyPart w depth j seen = .ok (es, seen')) (harrived : Arrived w.query seen [] j.right)
    (hsettled : Settled w.query seen table) :
    ∃ new Ts, seen' = new ++ seen ∧ Placed w V table seen new es Ts [] ∧ Done w.query seen' j.right := by
  have hkeyed := right_mem_keyed hitem hj
  have hparent : w.query.parentJoin? j.right = some j := by
    refine htell.tree.forest.parentJoin?_eq_some.mpr ⟨mem_joins.mpr ⟨table, ?_⟩, rfl⟩
    exact mem_joinsOf.mpr ⟨item, hitem, List.mem_of_mem_filter hj⟩
  unfold keyPart at hwritten
  split at hwritten
  next hleft =>
    cases hwritten
    refine ⟨[], [], rfl, placed_nil hsettled, ?_⟩
    rcases Bool.or_eq_true_iff.mp hleft with hseen | hnone
    · exact hsettled j.right (List.contains_iff_mem.mp hseen) ⟨j.right, hkeyed, .refl⟩
    · intro b hb hfilter
      rw [hasCriteria_of_filterOf htell.tree (htell.tree.deep _) hb hfilter] at hnone
      cases hnone
  next =>
    have hchild : nestedItem w depth j.right [] seen = .ok (es, seen') := by
      rw [nestedItem, hparent]
      exact hwritten
    obtain ⟨new, Ts, hseen, hplaced, -, -, hdone⟩ := hnested j.right [] (fun _ => False) seen es seen' hchild hkeyed nofun
      trivial (fun _ _ => False.elim) harrived hsettled
    exact ⟨new, Ts, hseen, hplaced, hdone⟩

theorem exists_placed_keyParts (htell : Tellable w V P) (hnested : DeliversNested w V P table (nestedItem w depth))
    {item : QueryItem} (hitem : w.query.get? table = some item) {keys : List Join}
    (hkeys : ∀ j ∈ keys, j ∈ item.foreignKeys)
    (hwritten : Part.all (keys.map (keyPart w depth)) seen = .ok (es, seen'))
    (harrived : ∀ j ∈ keys, Arrived w.query seen [] j.right) (hsettled : Settled w.query seen table) :
    ∃ new Ts, seen' = new ++ seen ∧ Placed w V table seen new es Ts [] ∧ ∀ j ∈ keys, Done w.query seen' j.right := by
  induction keys generalizing seen es with
  | nil =>
    cases hwritten
    exact ⟨[], [], rfl, placed_nil hsettled, nofun⟩
  | cons j keys ih =>
    obtain ⟨hj, hkeys⟩ := List.forall_mem_cons.mp hkeys
    obtain ⟨hfirstArrived, harrived⟩ := List.forall_mem_cons.mp harrived
    obtain ⟨first, mid, later, hfirst, hlater, rfl⟩ := Part.all_cons_eq_ok.mp hwritten
    obtain ⟨new, Ts, rfl, hplaced, hdone⟩ := exists_placed_keyPart htell hnested hitem hj hfirst
      hfirstArrived hsettled
    obtain ⟨new', Us, rfl, hplaced', hdone'⟩ := ih hkeys hlater (fun k hk => (harrived k hk).append new)
      hplaced.visits.settled
    refine ⟨new' ++ new, Ts ++ Us, (List.append_assoc _ _ _).symm, hplaced.append hplaced', ?_⟩
    exact List.forall_mem_cons.mpr ⟨hdone.append new', hdone'⟩

/-! ### Items -/

theorem mem_newcomer {b : TableId} : b ∈ newcomer table seen ↔ b = table ∧ table ∉ seen := by
  unfold newcomer
  split
  next hmem => simpa using fun _ => List.contains_iff_mem.mp hmem
  next hmem => simpa using fun _ hseen => hmem (List.contains_iff_mem.mpr hseen)

/-- The own filter is that of the table that comes up with the item. -/
theorem criteria_ownFilter (q : Query) (I : Interpretation) (v : Valuation) :
    criteria (ownFilter q table seen) I v = filters q (newcomer table seen) I v := by
  unfold ownFilter newcomer
  split
  next => rfl
  next =>
    rw [filters, List.map_singleton]
    cases q.filterOf table <;> rfl

theorem Settled.newcomer (htree : w.query.KeyTree) (h : Settled w.query seen table) :
    Settled w.query (newcomer table seen ++ seen) table := by
  intro c hc hbelow
  rcases List.mem_append.mp hc with hc | hc
  · rw [(mem_newcomer.mp hc).1] at hbelow
    exact absurd hbelow htree.not_below_self
  · exact (h c hc hbelow).append _

theorem filterOf_of_mem_ownFilter {q : Query} {e : Expr} (he : e ∈ ownFilter q table seen) :
    q.filterOf table = some e := by
  unfold ownFilter at he
  split at he
  · cases he
  · exact Option.mem_toList.mp he

/-- The operands of the criteria that led to an item and of its own filter. -/
def itemOperands (q : Query) (table : TableId) (terms : List Expr) (seen : List TableId) : List Expr :=
  (terms ++ ownFilter q table seen).flatMap (Expr.flatten .and)

theorem map_itemOperands (w : Writer) (nested : Writer.Nested) :
    ((terms ++ ownFilter w.query table seen).flatMap (w.operands table nested .and)).map (·.1)
      = itemOperands w.query table terms seen := by
  rw [List.map_flatMap]
  exact List.flatMap_congr fun e _ => map_operands nested .and e

/-- What has arrived at an item arrives at the tables behind its foreign keys. -/
theorem Arrived.keyed (harrived : Arrived w.query seen (terms.flatMap (Expr.flatten .and)) table)
    (hrevisit : table ∈ seen → Done w.query seen table) (htree : w.query.KeyTree) (hc : c ∈ w.query.keyed table) :
    Arrived w.query (newcomer table seen ++ seen) (itemOperands w.query table terms seen) c := by
  intro a f hac hf e he hkeeps
  have hdone : Done w.query seen table → Done w.query (newcomer table seen ++ seen) c := fun h =>
    (h.append _).of_behind (.single hc)
  rw [itemOperands, List.flatMap_append, List.mem_append]
  rcases eq_or_below_of_behind (htree.behind_of_below hac hc) with rfl | hbelow
  · by_cases hmem : a ∈ seen
    · exact .inr (hdone (hrevisit hmem))
    · refine .inl (.inr ?_)
      rw [ownFilter, if_neg (by simpa using hmem), hf, Option.toList_some, List.flatMap_singleton]
      exact he
  · rcases harrived a f hbelow hf e he (hkeeps.of_behind (.single hc)) with hterm | h
    · exact .inl (.inl hterm)
    · exact .inr (hdone h)

/-- The criteria that led to an item and its own filter. -/
theorem exists_conjoined_criteria (htell : Tellable w V P) (hnested : DeliversNested w V P table (nestedItem w depth))
    (hlive : w.query.contains table = true) {ready : TableId → Prop}
    (hterms : ∀ e ∈ terms, Sayable P e ∧ ∀ t ∈ e.tableRefs, w.query.Behind table t)
    (hconfined : Confined w.query ready (terms.flatMap (Expr.flatten .and)))
    (hready : ∀ b, w.query.Below table b → ready b → Done w.query seen b)
    (harrived : Arrived w.query seen (terms.flatMap (Expr.flatten .and)) table)
    (hrevisit : table ∈ seen → Done w.query seen table) (hsettled : Settled w.query seen table)
    (hwritten : w.conjunction table (nestedItem w depth)
      ((terms ++ ownFilter w.query table seen).flatMap (w.operands table (nestedItem w depth) .and))
      (newcomer table seen ++ seen) = .ok (es, seen')) :
    ∃ new Ts, seen' = new ++ (newcomer table seen ++ seen) ∧
      Placed w V table (newcomer table seen ++ seen) new es Ts (itemOperands w.query table terms seen) ∧
      ∀ e ∈ itemOperands w.query table terms seen, ∀ c, w.hop? table e = some c → Done w.query seen' c := by
  have hall : ∀ e ∈ terms ++ ownFilter w.query table seen, Sayable P e ∧ ∀ t ∈ e.tableRefs, w.query.Behind table t :=
    List.forall_mem_append.mpr ⟨hterms, fun e he =>
      ⟨htell.sayable table e (filterOf_of_mem_ownFilter he), htell.behind table e (filterOf_of_mem_ownFilter he)⟩⟩
  have hoperands : ∀ o ∈ (terms ++ ownFilter w.query table seen).flatMap (w.operands table (nestedItem w depth) .and),
      Operates w V P table o := by
    intro o ho
    obtain ⟨e, he, ho⟩ := List.mem_flatMap.mp ho
    obtain ⟨hsayable, hbehind⟩ := hall e he
    have hdelivers := delivers_operands htell.tree hnested (fun e es => htell.leaf table e es hlive) .and e hsayable hbehind
    exact operates_operands hdelivers hbehind o ho
  -- The own filter comes after the criteria that led here.
  have hconfined' : Confined w.query (fun b => ready b ∨ Done w.query seen b) (itemOperands w.query table terms seen) := by
    rw [itemOperands, List.flatMap_append]
    refine (hconfined.mono fun _ => .inl).append ?_
    unfold ownFilter
    split
    next => trivial
    next =>
      cases hfilter : w.query.filterOf table with
      | none => trivial
      | some f =>
        rw [Option.toList_some, List.flatMap_singleton]
        have hbehind : ∀ e ∈ f.flatten .and, ∀ t ∈ e.tableRefs, w.query.Behind table t := fun e he t ht =>
          htell.behind table f hfilter t (Expr.mem_tableRefs_of_mem_flatten he ht)
        refine (htell.confined table f hfilter).of_behind htell.tree hbehind ?_
        rintro b hb (hdone | ⟨a, f', hbelow, hf', e, he, hkeeps⟩)
        · exact .inl (.inr (hdone.mono nofun))
        · rcases harrived a f' hbelow hf' e he (hkeeps.of_behind (behind_of_below hb)) with hterm | hdone
          · exact .inr ⟨e, hterm, hkeeps⟩
          · exact .inl (.inr (hdone.of_behind (behind_of_below hb)))
  rw [← map_itemOperands w (nestedItem w depth)] at hconfined' ⊢
  obtain ⟨new, Ts, hseen, h⟩ := exists_conjoined_operands htell.tree hnested hwritten hoperands hconfined'
    (fun b hb => Or.rec (fun hr => (hready b hb hr).append _) fun hdone => hdone.append _)
    (fun e he c hhop => by
      rw [map_itemOperands]
      exact harrived.keyed hrevisit htell.tree ((hop?_eq_some htell.tree).mp hhop).1)
    (hsettled.newcomer htell.tree)
  exact ⟨new, Ts, hseen, h.placed, hseen ▸ h.visited⟩

/-- The criteria of an item and then its foreign keys. -/
theorem Inscribed.of_placed {item : QueryItem} (hitem : w.query.get? table = some item) {new' : List TableId}
    {es' : List Xml.Event} {Us : List Meaning}
    (h : Placed w V table (newcomer table seen ++ seen) new es Ts (itemOperands w.query table terms seen))
    (h' : Placed w V table (new ++ (newcomer table seen ++ seen)) new' es' Us [])
    (hkeys : ∀ j ∈ item.foreignKeys, Done w.query (new' ++ (new ++ (newcomer table seen ++ seen))) j.right) :
    Inscribed w V table terms seen (new' ++ new ++ newcomer table seen) (es ++ es') (Ts ++ Us) := by
  have hall := h.append h'
  have hseen : new' ++ (new ++ (newcomer table seen ++ seen)) = new' ++ new ++ newcomer table seen ++ seen := by
    simp only [List.append_assoc]
  refine ⟨fun b hb hmem => ?_, fun b hb => ?_, ?_, ?_, hall.conveys, fun I v hV => ?_, fun hnil e he => ?_⟩
  · rcases List.mem_append.mp hb with hb | hb
    · exact hall.visits.fresh b hb (List.mem_append_right _ hmem)
    · obtain ⟨rfl, hnot⟩ := mem_newcomer.mp hb
      exact hnot hmem
  · rcases List.mem_append.mp hb with hb | hb
    · exact behind_of_below (hall.visits.below b hb)
    · exact (mem_newcomer.mp hb).1 ▸ .refl
  · rw [← hseen]
    exact h'.visits.settled
  · rw [← hseen]
    intro b hb hfilter
    rcases eq_or_below_of_behind hb with rfl | ⟨c, hc, hcb⟩
    · by_cases hmem : table ∈ seen
      · simp [hmem]
      · simp [mem_newcomer, hmem]
    · rw [keyed, hitem] at hc
      obtain ⟨j, hj, rfl⟩ := List.mem_map.mp hc
      exact hkeys j hj b hcb hfilter
  · rw [hall.truth I v hV, List.append_nil, itemOperands, criteria_flatten, criteria_append, criteria_ownFilter,
      filters_append w.query (new' ++ new), Truth.and_assoc]
    exact congrArg _ (Truth.and_comm _ _)
  · rw [Expr.isMute_iff_flatten .and]
    intro x hx
    refine hall.mute hnil x (List.mem_append_left _ (List.mem_flatMap.mpr ⟨e, ?_, hx⟩))
    exact List.mem_append_left _ he

/-- An item conveys what it is written for, by induction over how deep items lie in it. -/
theorem deliversItem (htell : Tellable w V P) (depth : Nat) : DeliversItem w V P depth := by
  induction depth with
  | zero => exact fun _ _ _ _ _ _ _ _ hdeep => absurd rfl hdeep.ne_zero
  | succ depth ih =>
    intro table terms listed ready seen es seen' hwritten hdeep hlive hterms hconfined hready harrived hrevisit hsettled
    obtain ⟨item, listing, body, hitem, hlisting, rfl, hbody⟩ := item_eq_ok htell.tree hlive hwritten
    have hnested := deliversNested htell ih hdeep
    obtain ⟨first, mid, later, hfirst, hlater, rfl⟩ := Part.all_cons_eq_ok.mp hbody
    obtain ⟨new, Ts, rfl, hplaced, hvisited⟩ := exists_conjoined_criteria htell hnested hlive hterms hconfined hready
      harrived hrevisit hsettled hfirst
    -- What keeps to the table behind a foreign key has led there.
    have hkeys : ∀ j ∈ item.foreignKeys, Arrived w.query (new ++ (newcomer table seen ++ seen)) [] j.right := by
      intro j hj a f hac hf e he hkeeps
      have hkeyed := right_mem_keyed hitem hj
      rcases harrived.keyed hrevisit htell.tree hkeyed a f hac hf e he hkeeps with hmem | hdone
      · exact .inr (hvisited e hmem j.right ((hop?_eq_some htell.tree).mpr ⟨hkeyed, hkeeps⟩))
      · exact .inr (hdone.append new)
    obtain ⟨new', Us, rfl, hplaced', hdone⟩ := exists_placed_keyParts htell hnested hitem (fun _ h => h) hlater hkeys
      hplaced.visits.settled
    refine ⟨item, listing, first ++ later, new' ++ new ++ newcomer table seen, Ts ++ Us, hitem, hlisting, rfl, ?_,
      .of_placed hitem hplaced hplaced' hdone⟩
    simp only [List.append_assoc]

end

end ItemQuery.Aml
