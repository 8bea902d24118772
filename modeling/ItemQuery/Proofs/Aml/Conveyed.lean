import ItemQuery.Proofs.Aml.Accepted
import ItemQuery.Proofs.Aml.RoundTrip
import ItemQuery.Proofs.Expr.Truth
import Mathlib.Data.List.Forall2

/-! What events convey about a table and the tables behind its foreign keys. Reading them adds criteria to the
    innermost construct and may add tables behind foreign keys; rows are given to the tables of both queries by the
    foreign keys that lead to them, and each criterion then has the truth that was to be conveyed. A text that was
    read for a value stands for the value it was written from. -/

namespace ItemQuery.Aml

open Query

/-! ### Rows -/

/-- The same foreign keys lead to both tables from the roots of their queries. -/
inductive SamePath (q q' : Query) : TableId → TableId → Prop
  | root : SamePath q q' q.root q'.root
  | key {a a' b b' : TableId} {name : String} (h : SamePath q q' a a') (hb : q.Leads a name b)
      (hb' : q'.Leads a' name b') : SamePath q q' b b'

theorem SamePath.extends {q q' q'' : Query} {a a' : TableId} (h : SamePath q q' a a') (hext : q'.Extends q'') :
    SamePath q q'' a a' := by
  induction h with
  | root => exact hext.root ▸ .root
  | key _ hb hb' ih => exact ih.key hb (hext.leads hb')

/-- Tables with the same path have the same row, and parameters have the same values. -/
structure Agree (q q' : Query) (v v' : Valuation) : Prop where
  property : ∀ a a', SamePath q q' a a' → ∀ name, v'.property ⟨a', name⟩ = v.property ⟨a, name⟩
  parameter : v'.parameter = v.parameter

theorem Agree.of_extends {q q' q'' : Query} {v v' : Valuation} (h : Agree q q'' v v') (hext : q'.Extends q'') :
    Agree q q' v v' :=
  ⟨fun a a' ha => h.property a a' (ha.extends hext), h.parameter⟩

/-! ### Values -/

/-- A value as it was read, and a value that it can have been written from. -/
inductive StandsFor (w : Writer) : Expr → Expr → Prop
  | same (e : Expr) : StandsFor w e e
  | text {o : ObjectLiteral} {e : Expr} (h : w.valueText e = .ok o.value) : StandsFor w (.object o) e
  | quoted {o : ObjectLiteral} {e : Expr} (h : w.listText e = .ok (Text.quoted o.value)) : StandsFor w (.object o) e
  | placeholder {name : String} {e : Expr} (h : w.listText e = .ok ("@" ++ name)) :
      StandsFor w (.parameter (.named name) none false) e

/-- A criterion as it was read, and the criterion with the values that it can have been written from. -/
inductive Restored (w : Writer) : Expr → Expr → Prop
  | same (e : Expr) : Restored w e e
  | comparison {op : ComparisonOp} {l r r' : Expr} (h : StandsFor w r r') :
      Restored w (.comparison op l r) (.comparison op l r')
  | inList {l : Expr} {items items' : List Expr} {negated : Bool} {table : Option TableId}
      (h : List.Forall₂ (StandsFor w) items items') :
      Restored w (.inList l items negated table) (.inList l items' negated table)
  | between {l low low' high high' : Expr} {negated : Bool} {table : Option TableId} (hlow : StandsFor w low low')
      (hhigh : StandsFor w high high') :
      Restored w (.between l low high negated table) (.between l low' high' negated table)
  | not {e e' : Expr} (h : Restored w e e') : Restored w (.not e) (.not e')
  | logical {op : LogicalOp} {l l' r r' : Expr} (hl : Restored w l l') (hr : Restored w r r') :
      Restored w (.logical op l r) (.logical op l' r')

theorem Restored.joinAll {w : Writer} {op : LogicalOp} {xs rs : List Expr} (h : List.Forall₂ (Restored w) xs rs)
    {x : Expr} (hx : Expr.joinAll op xs = some x) : ∃ r, Expr.joinAll op rs = some r ∧ Restored w x r := by
  cases h with
  | nil => cases hx
  | @cons x' r' xs rs hfirst hrest =>
    cases hx
    refine ⟨_, rfl, ?_⟩
    induction hrest generalizing x' r' with
    | nil => exact hfirst
    | cons hnext _ ih => exact ih (hfirst.logical hnext)

/-! ### Meanings -/

/-- What a criterion says, by functions and values. -/
abbrev Meaning : Type :=
  Interpretation → Valuation → Truth

/-- The meaning of a chain. -/
def Meaning.chain (op : LogicalOp) (Ts : List Meaning) : Meaning :=
  fun I v => Truth.chain op (Ts.map fun T => T I v)

/-- The meaning of a combination of these criteria; none without criteria. -/
def Meaning.combined (kind : Combination) (Ts : List Meaning) : List Meaning :=
  if Ts.isEmpty then []
  else
    match kind with
    | .and => [chain .and Ts]
    | .or => [chain .or Ts]
    | .not => [fun I v => (chain .and Ts I v).not]

/-- A criterion of the query `q'` says what was to be said with rows of the query that is written. -/
def Says (w : Writer) (V : Interpretation → Valuation → Prop) (q' : Query) (x : Expr) (T : Meaning) : Prop :=
  ∃ r, Restored w x r ∧ ∀ I v v', V I v → Agree w.query q' v v' → r.truth I v' = T I v

section
variable {w : Writer} {V : Interpretation → Valuation → Prop} {q' q'' : Query} {xs : List Expr} {Ts : List Meaning}

theorem Says.extends {x : Expr} {T : Meaning} (h : Says w V q' x T) (hext : q'.Extends q'') : Says w V q'' x T := by
  obtain ⟨r, hr, htruth⟩ := h
  exact ⟨r, hr, fun I v v' hV hagree => htruth I v v' hV (hagree.of_extends hext)⟩

theorem says_all_extends (h : List.Forall₂ (Says w V q') xs Ts) (hext : q'.Extends q'') :
    List.Forall₂ (Says w V q'') xs Ts :=
  h.imp fun _ _ hsaid => hsaid.extends hext

theorem Says.chain {op : LogicalOp} (h : List.Forall₂ (Says w V q') xs Ts) {x : Expr}
    (hx : Expr.joinAll op xs = some x) : Says w V q' x (.chain op Ts) := by
  have hrs : ∃ rs, List.Forall₂ (Restored w) xs rs ∧ ∀ I v v', V I v → Agree w.query q' v v' →
      rs.map (Expr.truth I v') = Ts.map fun T => T I v := by
    clear hx
    induction h with
    | nil => exact ⟨[], .nil, fun _ _ _ _ _ => rfl⟩
    | cons hfirst _ ih =>
      obtain ⟨r, hr, htruth⟩ := hfirst
      obtain ⟨rs, hrs, htruths⟩ := ih
      refine ⟨r :: rs, .cons hr hrs, fun I v v' hV hagree => ?_⟩
      rw [List.map_cons, List.map_cons, htruth I v v' hV hagree, htruths I v v' hV hagree]
  obtain ⟨rs, hrestored, htruths⟩ := hrs
  obtain ⟨r, hjoined, hr⟩ := Restored.joinAll hrestored hx
  refine ⟨r, hr, fun I v v' hV hagree => ?_⟩
  rw [Expr.truth_of_joinAll hjoined, htruths I v v' hV hagree]
  rfl

theorem Says.not {x : Expr} {T : Meaning} (h : Says w V q' x T) : Says w V q' (.not x) fun I v => (T I v).not := by
  obtain ⟨r, hr, htruth⟩ := h
  refine ⟨.not r, hr.not, fun I v v' hV hagree => ?_⟩
  rw [Expr.truth_not, htruth I v v' hV hagree]

/-- Criteria without number have nothing to say together, and others are combined to one. -/
theorem says_combined (h : List.Forall₂ (Says w V q') xs Ts) (kind : Combination) :
    List.Forall₂ (Says w V q') (combined kind xs).toList (Meaning.combined kind Ts) := by
  cases h with
  | nil => cases kind <;> exact .nil
  | @cons x T xs Ts hfirst hrest =>
    have hall : ∀ op, Says w V q' (xs.foldl (Expr.logical op) x) (.chain op (T :: Ts)) := fun op =>
      .chain (.cons hfirst hrest) rfl
    cases kind with
    | and => exact .cons (hall .and) .nil
    | or => exact .cons (hall .or) .nil
    | not => exact .cons (hall .and).not .nil

end

/-! ### Events -/

/-- The query has more tables behind foreign keys than `q`; all filters, and the type of the root, stay. -/
structure Deepens (q q' : Query) : Prop extends q.Extends q' where
  grown : q'.Grown
  filterOf : ∀ id, q'.filterOf id = q.filterOf id
  typeOf : q'.typeOf q.root = q.typeOf q.root

theorem Deepens.refl {q : Query} (h : q.Grown) : Deepens q q :=
  ⟨.refl q, h, fun _ => rfl, rfl⟩

theorem Deepens.trans {q q' q'' : Query} (h : Deepens q q') (h' : Deepens q' q'') : Deepens q q'' := by
  refine ⟨h.toExtends.trans h'.toExtends, h'.grown, fun id => (h'.filterOf id).trans (h.filterOf id), ?_⟩
  exact (h.root ▸ h'.typeOf).trans h.typeOf

theorem Deepens.of_widens {q q' : Query} (hgrown : q'.Grown) (h : q.Widens q') : Deepens q q' :=
  ⟨h.toExtends, hgrown, h.filterOf, h.typeOf _⟩

/-- Read inside of a construct that takes the criteria of a table with the path of `table`, the events add criteria
    with these meanings. -/
def Conveys (w : Writer) (V : Interpretation → Valuation → Prop) (table : TableId) (events : List Xml.Event)
    (Ts : List Meaning) : Prop :=
  ∀ (r : Reader) (q : Query) (target : TableId) (outer : List Frame) (frame : List Expr → Frame) (criteria : List Expr),
    Collecting target outer frame → Settles r q (frame criteria :: outer) → q.Grown → q.contains target = true →
    SamePath w.query q table target →
    ∃ r' q' found, events.foldlM Reader.push r = .ok r' ∧ Settles r' q' (frame (criteria ++ found) :: outer) ∧
      Deepens q q' ∧ List.Forall₂ (Says w V q') found Ts

section
variable {w : Writer} {V : Interpretation → Valuation → Prop} {table : TableId}

theorem conveys_nil : Conveys w V table [] [] := by
  intro r q target outer frame criteria hframe hr hgrown hlive hpath
  refine ⟨r, q, [], rfl, ?_, .refl hgrown, .nil⟩
  rwa [List.append_nil]

theorem Conveys.append {es es' : List Xml.Event} {Ts Ts' : List Meaning} (h : Conveys w V table es Ts)
    (h' : Conveys w V table es' Ts') : Conveys w V table (es ++ es') (Ts ++ Ts') := by
  intro r q target outer frame criteria hframe hr hgrown hlive hpath
  obtain ⟨r₁, q₁, found, hrun, hr₁, hdeep, hsaid⟩ := h r q target outer frame criteria hframe hr hgrown hlive hpath
  obtain ⟨r₂, q₂, found', hrun', hr₂, hdeep', hsaid'⟩ := h' r₁ q₁ target outer frame (criteria ++ found) hframe hr₁
    hdeep.grown (hdeep.live _ hlive) (hpath.extends hdeep.toExtends)
  refine ⟨r₂, q₂, found ++ found', ?_, ?_, hdeep.trans hdeep', ?_⟩
  · rw [List.foldlM_append, hrun]
    exact hrun'
  · rwa [← List.append_assoc]
  · exact List.rel_append (says_all_extends hsaid hdeep'.toExtends) hsaid'

/-- The element of a criterion about a property. -/
theorem conveys_conditionElement {name value : String} {condition : Option String} {x : TableId → Expr} {T : Meaning}
    (hname : name ∉ reservedNames)
    (hread : ∀ q target, criterion q ⟨target, name⟩ (condition.getD "eq") value = .ok (x target))
    (hsaid : ∀ q target, SamePath w.query q table target → Says w V q (x target) T) :
    Conveys w V table (conditionElement name condition value) [T] := by
  intro r q target outer frame criteria hframe hr hgrown hlive hpath
  obtain ⟨r', hrun, hr'⟩ := gathers_conditionElement hname (fun q => hread q target) r q outer frame criteria hframe hr
  exact ⟨r', q, [x target], hrun, hr', .refl hgrown, .cons (hsaid q target hpath) .nil⟩

/-- The end of a combination, whose criteria are given on if there are any. -/
theorem push_end_combined {r : Reader} {q : Query} {outer : List Frame} {frame : List Expr → Frame}
    {criteria found : List Expr} {target : TableId} (hframe : Collecting target outer frame) {kind : Combination}
    (hr : Settles r q (.combination kind found :: frame criteria :: outer)) :
    r.push .endElement
      = .ok { query := some q, stack := frame (criteria ++ (combined kind found).toList) :: outer } := by
  cases hcombined : combined kind found with
  | none =>
    rw [Reader.push, Reader.endElement, hr.2]
    simp only [bind, Except.bind, hcombined, Reader.pushCriterion?, Option.toList_none, List.append_nil]
  | some e => exact push_end_combination hframe hr hcombined

theorem Conveys.combination {es : List Xml.Event} {Ts : List Meaning} (h : Conveys w V table es Ts)
    (kind : Combination) : Conveys w V table (Xml.Event.element kind.name es) (Meaning.combined kind Ts) := by
  intro r q target outer frame criteria hframe hr hgrown hlive hpath
  obtain ⟨inside, howner⟩ := hframe.owner? criteria
  obtain ⟨r₁, q₁, found, hrun, hr₁, hdeep, hsaid⟩ := h _ q target (frame criteria :: outer) (.combination kind) []
    (.combination kind howner) (settles_self q _) hgrown hlive hpath
  refine ⟨_, q₁, (combined kind found).toList, ?_, settles_self q₁ _, hdeep, says_combined hsaid kind⟩
  rw [Xml.Event.element, List.foldlM_cons, push_start_combination hframe hr kind]
  simp only [List.foldlM_append, List.foldlM_cons, List.foldlM_nil, bind, Except.bind, hrun,
    push_end_combined hframe hr₁]
  rfl

/-! ### Items behind foreign keys -/

/-- Attributes that can be read and take effect at once. -/
def Direct (pairs : List (String × String)) : Prop :=
  ∀ old later, ∃ new, itemAttributes old later pairs = .ok (new, later)

theorem Direct.append {ps ps' : List (String × String)} (h : Direct ps) (h' : Direct ps') : Direct (ps ++ ps') := by
  intro old later
  obtain ⟨new, hnew⟩ := h old later
  obtain ⟨new', hnew'⟩ := h' new later
  exact ⟨new', (itemAttributes_append (s := (old, later)) hnew ps').trans hnew'⟩

theorem direct_option (name : String) (h : ∀ value, Direct [(name, value)]) (value : Option String) :
    Direct (value.elim [] fun value => [(name, value)]) := by
  cases value with
  | none => exact fun old later => ⟨old, rfl⟩
  | some value => exact h value

theorem exists_identityPairs (w : Writer) (table : TableId) (item : QueryItem) :
    ∃ pairs, pairs ≠ [] ∧ w.identityAttributes table item = attributeEvents pairs ∧ Direct pairs := by
  refine ⟨(w.ctx.tableTypeName w.query table).elim [] (fun value => [("type", value)]) ++ [("action", "get")]
    ++ item.id.elim [] (fun value => [("id", value)])
    ++ (if item.idList.isEmpty then [] else [("idlist", ",".intercalate item.idList)])
    ++ item.typeId.elim [] (fun value => [("typeId", value)]), by simp, ?_, ?_⟩
  · simp only [Writer.identityAttributes, attributeEvents_append, attributeEvents_option]
    congr 2
    split <;> simp [attributeEvents]
  · have haction : Direct [("action", "get")] := by
      intro old later
      have hget : "get".toLower = "get" := by decide +kernel
      exact ⟨old, by simp [itemAttributes, itemAttribute, hget]⟩
    have hidList : Direct (if item.idList.isEmpty then [] else [("idlist", ",".intercalate item.idList)]) := by
      split
      · exact fun old later => ⟨old, rfl⟩
      · exact fun old later => ⟨_, rfl⟩
    have htype := direct_option "type" (fun value old later => ⟨_, rfl⟩)
      (w.ctx.tableTypeName w.query table)
    have hid := direct_option "id" (fun value old later => ⟨_, rfl⟩) item.id
    have htypeId := direct_option "typeId" (fun value old later => ⟨_, rfl⟩) item.typeId
    exact (((htype.append haction).append hid).append hidList).append htypeId

/-- The attributes of the item of a table that is not the root. -/
theorem exists_applyDirect {q : Query} (hgrown : q.Grown) {child : TableId} (hlive : q.contains child = true)
    (hne : child ≠ q.root) {pairs : List (String × String)} (hpairs : Direct pairs) :
    ∃ q', applyItemAttributes q child pairs = .ok (q', []) ∧ Deepens q q' := by
  obtain ⟨old, hold⟩ := contains_iff.mp hlive
  obtain ⟨new, hnew⟩ := hpairs old {}
  have hretains := ((safe_itemAttributes old {} pairs).of_eq_ok hnew).trans (Paging.retains_apply {} new)
  refine ⟨q.modify child fun _ => Paging.apply {} new, ?_, ?_⟩
  · simp only [applyItemAttributes, Query.item, hold, bind, Except.bind, hnew]
    rfl
  · let g (item : QueryItem) : QueryItem := { Paging.apply {} new with joins := item.joins, filter := item.filter }
    have hfg : (q.modify child fun _ => Paging.apply {} new) = q.modify child g := by
      refine modify_congr fun item hitem => ?_
      obtain rfl : old = item := Option.some.inj (hold.symm.trans hitem)
      simp only [g, ← hretains.joins, ← hretains.filter]
    obtain ⟨hgrown', hext⟩ := hgrown.modify (f := g) (fun _ => rfl) child
    rw [hfg]
    refine ⟨hext, hgrown', bind_get?_modify (f := g) (fun _ => rfl) child, ?_⟩
    rw [typeOf, typeOf, get?_modify, if_neg hne.symm]

/-- The item of a table inside of the property that leads there. -/
theorem push_start_child (q : Query) (ref : PropertyRef) (outer : List Frame) :
    ∃ kind, Reader.push { query := some q, stack := .property ref none "" none :: outer } (.start "Item")
      = .ok { query := some (q.joinProperty ref.table ref.name kind).2,
              stack := .item (q.joinProperty ref.table ref.name kind).1 .foreignKey []
                :: .property ref none "" none :: outer } :=
  ⟨_, rfl⟩

theorem settles_child {q q' : Query} {child : TableId} (outer : List Frame) {pairs : List (String × String)}
    (hne : pairs ≠ []) (happly : applyItemAttributes q child pairs = .ok (q', [])) :
    ∃ r, (attributeEvents pairs).foldlM Reader.push { query := some q, stack := .item child .foreignKey [] :: outer }
        = .ok r ∧ Settles r q' (.item child .foreignKey [] :: outer) := by
  refine ⟨_, foldlM_attributeEvents _ rfl pairs, rfl, ?_⟩
  rw [Reader.applyAttributes, if_neg (by rwa [List.nil_append, List.isEmpty_iff])]
  simp only [List.nil_append, Reader.queryOf, bind, Except.bind, happly]
  rfl

/-- The ends of the item and of the property around it. -/
theorem push_ends_child {r : Reader} {q : Query} {child target : TableId} {ref : PropertyRef} {outer : List Frame}
    {frame : List Expr → Frame} {criteria found : List Expr} (hframe : Collecting target outer frame)
    (hlive : q.contains child = true)
    (hr : Settles r q (.item child .foreignKey found :: .property ref none "" none :: frame criteria :: outer)) :
    [Xml.Event.endElement, .endElement].foldlM Reader.push r
      = .ok { query := some q, stack := frame (criteria ++ (combined .and found).toList) :: outer } := by
  obtain ⟨item, hitem⟩ := contains_iff.mp hlive
  have hend : r.push .endElement
      = .ok ⟨some q, .property ref none "" (some (combined .and found)) :: frame criteria :: outer, [], none⟩ := by
    rw [Reader.push, Reader.endElement, hr.2]
    simp only [bind, Except.bind, Reader.endItem, Reader.queryOf, Query.item, hitem]
    rfl
  rw [List.foldlM_cons, hend]
  simp only [List.foldlM_cons, List.foldlM_nil, bind, Except.bind]
  rw [Reader.push, Reader.endElement, Reader.applyAttributes]
  simp only [List.isEmpty_nil, if_true, bind, Except.bind, Reader.endProperty]
  cases combined .and found with
  | none => simp [Reader.pushCriterion?, pure, Except.pure]
  | some e =>
    rw [Reader.pushCriterion?, hframe.pushCriterion]
    rfl

/-- Criteria about a table behind a foreign key, inside of its item inside of the property. -/
theorem Conveys.child {child : TableId} {name : String} {body : List Xml.Event} {Ts : List Meaning}
    (h : Conveys w V child body Ts) (hleads : w.query.Leads table name child) (hname : name ∉ reservedNames)
    (item : QueryItem) :
    Conveys w V table
      (Xml.Event.element name (Xml.Event.element "Item" (w.identityAttributes child item ++ body)))
      (Meaning.combined .and Ts) := by
  intro r q target outer frame criteria hframe hr hgrown hlive hpath
  obtain ⟨pairs, hne, hidentity, hdirect⟩ := exists_identityPairs w child item
  obtain ⟨kind, hstart⟩ := push_start_child q ⟨target, name⟩ (frame criteria :: outer)
  obtain ⟨hgrown₁, hwidens, hleads'⟩ := hgrown.joinProperty hlive name kind
  generalize hjoined : q.joinProperty target name kind = joined at hstart hgrown₁ hwidens hleads'
  obtain ⟨next, q₁⟩ := joined
  have hlive₁ : q₁.contains next = true := hgrown₁.contains_of_mem_keyed hleads'.mem_keyed
  have hnext : next ≠ q₁.root := fun heq => hgrown₁.not_heads_of_mem_keyed hleads'.mem_keyed (.inl heq)
  obtain ⟨q₂, happly, hdeep₂⟩ := exists_applyDirect hgrown₁ hlive₁ hnext hdirect
  obtain ⟨r₂, hattributes, hr₂⟩ :=
    settles_child (.property ⟨target, name⟩ none "" none :: frame criteria :: outer) hne happly
  have hdeep₁ : Deepens q q₂ := (Deepens.of_widens hgrown₁ hwidens).trans hdeep₂
  have hpath' : SamePath w.query q₂ child next :=
    (hpath.extends hdeep₁.toExtends).key hleads (hdeep₂.leads hleads')
  obtain ⟨r₃, q₃, found, hrun, hr₃, hdeep₃, hsaid⟩ := h r₂ q₂ next _ (.item next .foreignKey) [] (.item .foreignKey) hr₂
    hdeep₂.grown (hdeep₂.live _ hlive₁) hpath'
  refine ⟨_, q₃, (combined .and found).toList, ?_, settles_self q₃ _, hdeep₁.trans hdeep₃, says_combined hsaid .and⟩
  have hends := push_ends_child hframe (hdeep₃.live _ (hdeep₂.live _ hlive₁)) hr₃
  rw [Xml.Event.element, Xml.Event.element, List.foldlM_cons, push_start_property hframe hr hname, hidentity]
  simp only [List.cons_append, List.append_assoc, List.foldlM_cons, bind, Except.bind] at hstart ⊢
  rw [hstart]
  simp only [List.foldlM_append, bind, Except.bind, hattributes, hrun]
  exact hends

end

/-! ### The item of the root -/

/-- The attributes of the root without a `where` add nothing but tables behind foreign keys. -/
theorem widens_applyRoot {pairs : List (String × String)} {s : QueryItem × Paging}
    (hread : itemAttributes {} {} pairs = .ok s) (hfilter : s.2.filter = none) {found : Query × List Expr}
    (happly : applyItemAttributes (.ofItem {}) (ofItem {}).root pairs = .ok found) :
    found.1.Grown ∧ (ofItem (s.2.apply s.1)).Widens found.1 := by
  have hitem : (ofItem {}).item (ofItem {}).root = .ok {} := rfl
  have hmodify : ((ofItem {}).modify (ofItem {}).root fun _ => s.2.apply s.1) = ofItem (s.2.apply s.1) := rfl
  have hretains := ((safe_itemAttributes {} {} pairs).of_eq_ok hread).trans (Paging.retains_apply s.2 s.1)
  have hgrown : (ofItem (s.2.apply s.1)).Grown := grown_ofItem hretains.joins
  -- A sort order comes last.
  have hsorted : ∀ q : Query, q.Grown → (ofItem (s.2.apply s.1)).Widens q →
      ∀ keys, (q.modify (ofItem {}).root fun item => { item with orderBy := keys }).Grown ∧
        (ofItem (s.2.apply s.1)).Widens (q.modify (ofItem {}).root fun item => { item with orderBy := keys }) := by
    intro q hq hwidens keys
    obtain ⟨hgrown', hwidens'⟩ := hq.widens_modify (f := fun item => { item with orderBy := keys })
      (fun _ => rfl) (fun _ => rfl) (fun _ => rfl) (ofItem {}).root
    exact ⟨hgrown', hwidens.trans hwidens'⟩
  cases hselect : s.2.select with
  | none =>
    simp only [applyItemAttributes, hitem, bind, Except.bind, hread, hselect, hfilter, hmodify] at happly
    cases happly
    split
    · exact hsorted _ hgrown (.refl _) _
    · exact ⟨hgrown, .refl _⟩
  | some text =>
    simp only [applyItemAttributes, hitem, bind, Except.bind, hread, hselect, hfilter, hmodify] at happly
    cases happlied : applySelect (ofItem (s.2.apply s.1)) (ofItem {}).root text with
    | error err => rw [happlied] at happly; cases happly
    | ok q =>
      obtain ⟨hgrown', hwidens⟩ := (safe_applySelect hgrown hgrown.rootLive text).of_eq_ok happlied
      rw [happlied] at happly
      cases happly
      split
      · exact hsorted q hgrown' hwidens _
      · exact ⟨hgrown', hwidens⟩

/-- The query with these criteria as the filter of its root. -/
def filteredBy (q : Query) (found : List Expr) : Query :=
  (Expr.allOf found).elim q fun c => q.modify q.root (·.addFilter c)

theorem filterOf_filteredBy {q : Query} (hlive : q.contains q.root = true) (hnone : ∀ id, q.filterOf id = none)
    (found : List Expr) (id : TableId) :
    (filteredBy q found).filterOf id = if id = q.root then Expr.allOf found else none := by
  unfold filteredBy
  cases Expr.allOf found with
  | none => simp [hnone]
  | some c =>
    rw [Option.elim_some, filterOf, get?_modify]
    split
    next heq =>
      obtain ⟨item, hitem⟩ := contains_iff.mp hlive
      have hfilter : item.filter = none := by
        have := hnone q.root
        rwa [filterOf, hitem] at this
      rw [hitem, Option.map_some, Option.bind_some, QueryItem.addFilter, hfilter]
      rfl
    next => exact hnone id

theorem extends_filteredBy {q : Query} (h : q.Grown) (found : List Expr) :
    (filteredBy q found).Grown ∧ q.Extends (filteredBy q found) := by
  unfold filteredBy
  cases Expr.allOf found with
  | none => exact ⟨h, .refl q⟩
  | some c => exact h.modify (f := (·.addFilter c)) (fun _ => rfl) q.root

theorem push_end_typed {q : Query} {typeName : String} (htype : q.typeOf q.root = some typeName)
    (hne : typeName ≠ "") {r : Reader} {found : List Expr} (hr : Settles r q [.item q.root .root found]) :
    r.push .endElement = .ok { query := some (filteredBy q found), stack := [] } := by
  obtain ⟨item, hitem, htyped⟩ := Option.bind_eq_some_iff.mp htype
  have huntyped : (item.typeName.getD "").isEmpty = false := by
    rw [htyped, Option.getD_some, ← Bool.not_eq_true, String.isEmpty_iff]
    exact hne
  rw [Reader.push, Reader.endElement, hr.2]
  simp only [bind, Except.bind, Reader.endItem, Reader.queryOf, Query.item, hitem, huntyped, Bool.false_eq_true,
    if_false, filteredBy]
  cases Expr.allOf found <;> rfl

/-- The item of a listed root is read as a query that has the criteria of its elements on its root and no others. -/
theorem ofEvents_item {w : Writer} {V : Interpretation → Valuation → Prop} {item : QueryItem} {typeName : String}
    (htype : w.ctx.tableTypeName w.query w.query.root = some typeName) (hne : typeName ≠ "")
    (hselect : ∀ text, w.select? (w.query.tableCount + 1) w.query.root = some text → Selectable text)
    {listing body : List Xml.Event} (hlisting : w.listingAttributes w.query.root item = .ok listing)
    {Ts : List Meaning} (h : Conveys w V w.query.root body Ts) :
    ∃ q' found, ofEvents (Xml.Event.element "Item" (w.identityAttributes w.query.root item ++ listing ++ body)) = .ok q' ∧
      q'.Grown ∧ (∀ id, q'.filterOf id = if id = q'.root then Expr.allOf found else none) ∧
      List.Forall₂ (Says w V q') found Ts := by
  obtain ⟨identity, hidentity, hcarries⟩ := exists_identityAttributes w w.query.root item htype
  -- The type is the first attribute, so the others are read into an item that has it.
  obtain ⟨pairs, s, hpairs, hread, hs⟩ := (hcarries.append (carries_listingAttributes hlisting))
    ({ typeName := some typeName }, {}) ⟨rfl, rfl, rfl, rfl⟩
  have hread' : itemAttributes {} {} (("type", typeName) :: pairs) = .ok s := hread
  obtain ⟨q₀, happly, hbare⟩ := exists_applyItemAttributes hread' hs hselect
  obtain ⟨hgrown, hwidens⟩ := widens_applyRoot hread' hs.later happly
  have hnone : ∀ id, q₀.filterOf id = none := by
    intro id
    rw [hwidens.filterOf, filterOf, get?_ofItem]
    split
    · exact (apply_keeps s.2 s.1).2.trans hs.unfiltered
    · rfl
  have htyped : q₀.typeOf q₀.root = some typeName := by
    obtain ⟨root, hroot, htyped, -⟩ := hbare.found
    rw [typeOf, hroot]
    exact htyped
  obtain ⟨r₁, hattributes, hr₁⟩ := settles_root (List.cons_ne_nil _ pairs) happly
  rw [← hbare.root] at hattributes hr₁
  obtain ⟨r₂, q₁, found, hrun, hr₂, hdeep, hsaid⟩ := h r₁ q₀ q₀.root [] (.item q₀.root .root) [] (.item .root) hr₁ hgrown
    hgrown.rootLive .root
  rw [← hdeep.root] at hr₂
  have hfilter := filterOf_filteredBy hdeep.grown.rootLive (fun id => (hdeep.filterOf id).trans (hnone id)) found
  have htyped' : q₁.typeOf q₁.root = some typeName := by
    rw [hdeep.root, hdeep.typeOf, htyped]
  obtain ⟨hgrown', hext⟩ := extends_filteredBy hdeep.grown found
  refine ⟨filteredBy q₁ found, found, ?_, hgrown', fun id => ?_, says_all_extends hsaid hext⟩
  · have hstart : Reader.push {} (.start "Item")
        = .ok { query := some (.ofItem {}), stack := [.item (ofItem {}).root .root []] } := rfl
    have hevents : w.identityAttributes w.query.root item ++ listing = attributeEvents (("type", typeName) :: pairs) := by
      rw [hidentity, List.append_assoc, hpairs]
      rfl
    rw [hevents, ofEvents, Xml.Event.element, List.foldlM_cons, hstart]
    rw [hbare.root] at hattributes
    simp only [List.foldlM_append, List.foldlM_cons, List.foldlM_nil, bind, Except.bind, hattributes, hrun,
      push_end_typed htyped' hne hr₂]
    rfl
  · rw [hfilter, hext.root]

end ItemQuery.Aml
