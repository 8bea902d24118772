import Mathlib.Data.String.Basic
import ItemQuery.Proofs.Expr.Grouping
import ItemQuery.Proofs.Pattern.WildcardText
import ItemQuery.Proofs.Result
import ItemQuery.Proofs.Xml.Trees
import ItemQuery.StoredQuery.Condition

/-! Conditions come back from the elements they are written as. Elements hold neither the tables that normalization has
    recorded nor whether a parameter is raw, and a negated test stands inside of a `not`; a criterion is read
    back up to these three and to the grouping of its chains. -/

namespace ItemQuery

/-! ### What comes back -/

namespace Expr

/-- The opposite of a test, if it is negated. -/
def negatedBy (negated : Bool) (e : Expr) : Expr :=
  if negated then not e else e

/-- An operand as it comes back: a parameter is not raw. -/
def storedOperand : Expr → Expr
  | parameter name default _ => parameter name default false
  | e => e

/-- A criterion as it comes back: negated tests inside of a `not`, no recorded tables, and no raw parameters. -/
def stored : Expr → Expr
  | logical op l r => logical op l.stored r.stored
  | not e => not e.stored
  | comparison op l r => comparison op l r.storedOperand
  | like l p negated => negatedBy negated (like l p false)
  | between l low high negated _ => negatedBy negated (between l low.storedOperand high.storedOperand false none)
  | inList l items negated _ => negatedBy negated (inList l (items.map storedOperand) false none)
  | e => e

/-- The operands of a chain, or the criterion alone outside of one. -/
def operandsOf (chain : Option LogicalOp) (e : Expr) : List Expr :=
  chain.elim [e] (e.flatten ·)

theorem operandsOf_of_ne {chain : Option LogicalOp} {e : Expr} (h : ∀ op l r, chain = some op → e ≠ logical op l r) :
    e.operandsOf chain = [e] := by
  cases chain with
  | none => rfl
  | some op => exact flatten_of_ne fun l r => h op l r rfl

end Expr

namespace StoredQuery

open Xml (Element Event)

/-! ### Criteria -/

/-- A value on the right of a test of a property. -/
inductive IsValue (p : PropertyRef) : Expr → Prop
  | object (value : String) : IsValue p (.object { value, property := some p })
  | parameter (name : String) (raw : Bool) : IsValue p (.parameter (.named name) none raw)

/-- The property is one of the table or of its parent. -/
def Scope.Holds (scope : Scope) (p : PropertyRef) : Prop :=
  p.table = scope.table ∨ scope.parent = some p.table

/-- The tests that conditions have a form for. The parent is only compared. -/
inductive Test (scope : Scope) : Expr → Prop
  | compareValue (op : ComparisonOp) {p : PropertyRef} {value : Expr} (hp : scope.Holds p) (hvalue : IsValue p value) :
      Test scope (.comparison op (.property p) value)
  | compareProperty (op : ComparisonOp) {p p' : PropertyRef} (hp : scope.Holds p) (hp' : scope.Holds p') :
      Test scope (.comparison op (.property p) (.property p'))
  | like (name : String) {source : String} {pattern : Pattern}
      (hpattern : Pattern.ofWildcard .sqlServer source = .ok pattern) (negated : Bool) :
      Test scope (.like (.prop scope.table name) (.pattern pattern) negated)
  | between (name : String) {low high : Expr} (hlow : IsValue ⟨scope.table, name⟩ low)
      (hhigh : IsValue ⟨scope.table, name⟩ high) (negated : Bool) (table : Option TableId) :
      Test scope (.between (.prop scope.table name) low high negated table)
  | inList (name : String) {items : List Expr} (hitems : ∀ item ∈ items, IsValue ⟨scope.table, name⟩ item)
      (negated : Bool) (table : Option TableId) :
      Test scope (.inList (.prop scope.table name) items negated table)
  | null (name : String) {operand : IsOperand} (hoperand : operand = .null ∨ operand = .notNull) :
      Test scope (.is (.prop scope.table name) operand)

/-- Tests, joined and negated to any depth. -/
inductive Criterion (scope : Scope) : Expr → Prop
  | test {e : Expr} (h : Test scope e) : Criterion scope e
  | not {e : Expr} (he : Criterion scope e) : Criterion scope (.not e)
  | logical (op : LogicalOp) {l r : Expr} (hl : Criterion scope l) (hr : Criterion scope r) :
      Criterion scope (.logical op l r)

/-! ### Elements and their expressions -/

/-- The events are those of elements that are read as these expressions. None of them stands for null. -/
def Says (scope : Scope) (position : Position) (events : List Event) (found : List Expr) : Prop :=
  ∃ elements, events = Element.listEvents elements ∧ readElements scope position elements = found.map .ok ∧
    "null" ∉ elements.map (·.name)

section
variable {scope : Scope} {position : Position} {events events' : List Event} {found found' : List Expr}

theorem sequence_ok (es : List Expr) : sequence (es.map .ok) = .ok es := by
  induction es with
  | nil => rfl
  | cons e es ih => rw [List.map_cons, sequence, ih]; rfl

theorem readElements_append (scope : Scope) (position : Position) (es es' : List Element) :
    readElements scope position (es ++ es') = readElements scope position es ++ readElements scope position es' := by
  induction es with
  | nil => rfl
  | cons e es ih => rw [List.cons_append, readElements, ih, readElements, List.cons_append]

theorem says_nil : Says scope position [] [] :=
  ⟨[], rfl, rfl, by simp⟩

theorem Says.append (h : Says scope position events found) (h' : Says scope position events' found') :
    Says scope position (events ++ events') (found ++ found') := by
  obtain ⟨es, rfl, hread, hnames⟩ := h
  obtain ⟨es', rfl, hread', hnames'⟩ := h'
  refine ⟨es ++ es', (Element.listEvents_append es es').symm, ?_, ?_⟩
  · rw [readElements_append, hread, hread', List.map_append]
  · simpa using ⟨by simpa using hnames, by simpa using hnames'⟩

theorem says_element {e : Element} {found : Expr} (hread : readElement scope position e = .ok found)
    (hname : e.name ≠ "null") : Says scope position e.events [found] :=
  ⟨[e], (Element.listEvents_singleton e).symm, by simp [readElements, hread], by simpa using hname.symm⟩

theorem Says.exists_element {e : Expr} (h : Says scope position events [e]) :
    ∃ element, events = element.events ∧ readElement scope position element = .ok e ∧ element.name ≠ "null" := by
  obtain ⟨_ | ⟨element, _ | ⟨_, _⟩⟩, rfl, hread, hnames⟩ := h
  · cases hread
  · rw [readElements, readElements] at hread
    exact ⟨element, Element.listEvents_singleton element, List.head_eq_of_cons_eq hread, fun h => hnames (by simp [h])⟩
  · simp [readElements] at hread

theorem readElement_branch (scope : Scope) (name : String) (children : List Element) :
    readElement scope .criterion (.branch name children)
      = operatorExpr name (children.map (·.name)) (readElements scope (innerPosition name) children) := by
  rw [Element.branch, readElement]
  simp only [reduceCtorEq, false_and, if_false]

/-- An operator is read from its operands. -/
theorem Says.operator (name : String) {e : Expr} (h : Says scope (innerPosition name) events found)
    (hread : ∀ names, "null" ∉ names → operatorExpr name names (found.map .ok) = .ok e) (hname : name ≠ "null") :
    Says scope .criterion (Event.element name events) [e] := by
  obtain ⟨es, rfl, hoperands, hnames⟩ := h
  rw [← Element.events_branch]
  refine says_element ?_ hname
  rw [readElement_branch, hoperands]
  exact hread _ hnames

end

/-! ### Operands -/

/-- The operand is written as an element that is read as `found`. -/
def Operand (scope : Scope) (e found : Expr) : Prop :=
  ∃ events, operandEvents scope e = .ok events ∧ Says scope .operand events [found]

section
variable {scope : Scope} {p : PropertyRef}

theorem operand_property (hp : scope.Holds p) : Operand scope (.property p) (.property p) := by
  by_cases htable : p.table = scope.table
  · refine ⟨(Element.node "property" [("name", p.name)] [] "").events, by rw [operandEvents, if_pos htable]; rfl, ?_⟩
    refine says_element ?_ (show "property" ≠ "null" by decide)
    rw [readElement]
    simp only [true_and, if_true, Scope.property, Element.attribute?, Element.attributes]
    simp [← htable, Expr.prop]
  · have hparent : scope.parent = some p.table := hp.resolve_left htable
    refine ⟨(Element.node "property" [("name", p.name), ("query_items_xpath", parentPath)] [] "").events,
      by rw [operandEvents, if_neg htable, if_pos hparent]; rfl, ?_⟩
    refine says_element ?_ (show "property" ≠ "null" by decide)
    rw [readElement]
    simp only [true_and, if_true, Scope.property, Element.attribute?, Element.attributes]
    simp [hparent, parentPath, Expr.prop]

theorem operand_parameter (scope : Scope) (name : ParamName) (default : Option Expr) (raw : Bool) :
    Operand scope (.parameter name default raw) (.parameter (.named name.text) none false) := by
  refine ⟨(Element.node "parameter" [("name", name.text)] [] "").events, rfl,
    says_element ?_ (show "parameter" ≠ "null" by decide)⟩
  rw [readElement]
  simp [parameterOperand, Element.attribute?, Element.attributes]

theorem operand_constant {e : Expr} {value : String} (h : operandEvents scope e = .ok (constant value)) :
    Operand scope e (.object { value }) := by
  refine ⟨_, h, ?_⟩
  rw [constant, ← Element.events_leaf]
  refine says_element ?_ (show "constant" ≠ "null" by decide)
  rw [Element.leaf, readElement]
  simp

/-- A value is read as one that belongs to no property yet. -/
theorem IsValue.operand {e : Expr} (h : IsValue p e) (scope : Scope) :
    ∃ found, Operand scope e found ∧ bindConstant (.property p) found = e.storedOperand := by
  cases h with
  | object value => exact ⟨_, operand_constant rfl, rfl⟩
  | parameter name raw => exact ⟨_, operand_parameter scope (.named name) none raw, rfl⟩

theorem exists_operands {operands found : List Expr} (h : List.Forall₂ (Operand scope) operands found) :
    ∃ events, operands.mapM (operandEvents scope) = .ok events ∧ Says scope .operand events.flatten found := by
  induction h with
  | nil => exact ⟨[], rfl, says_nil⟩
  | cons hfirst _ ih =>
    obtain ⟨first, hevents, hsays⟩ := hfirst
    obtain ⟨rest, hrest, hsaysRest⟩ := ih
    refine ⟨first :: rest, ?_, hsays.append hsaysRest⟩
    rw [List.mapM_cons, hevents, hrest]
    rfl

/-- What the events of a criterion are read as, if it is written. -/
def Tells (scope : Scope) (events : Result (List Event)) (found : List Expr) : Prop :=
  ∃ es, events = .ok es ∧ Says scope .criterion es found

theorem tells_operator {name : String} {operands found : List Expr} {e : Expr}
    (h : List.Forall₂ (Operand scope) operands found) (hposition : innerPosition name = .operand)
    (hread : ∀ names, "null" ∉ names → operatorExpr name names (found.map .ok) = .ok e) (hname : name ≠ "null") :
    Tells scope (operatorEvents scope name operands) [e] := by
  obtain ⟨events, hevents, hsays⟩ := exists_operands h
  refine ⟨Event.element name events.flatten, ?_, .operator name (hposition ▸ hsays) hread hname⟩
  rw [operatorEvents, hevents]
  rfl

theorem Tells.negated {events : Result (List Event)} {e : Expr} (h : Tells scope events [e]) (negated : Bool) :
    Tells scope (events.map (negatedEvents negated)) [e.negatedBy negated] := by
  obtain ⟨es, rfl, hsays⟩ := h
  refine ⟨_, rfl, ?_⟩
  cases negated with
  | false => exact hsays
  | true => exact Says.operator "not" hsays (fun _ _ => rfl) (by decide)

/-! ### Tests -/

/-- A test that negation wraps, read from its operands. -/
theorem tells_test {name : String} {operands found : List Expr} {e : Expr}
    (h : List.Forall₂ (Operand scope) operands found) (hposition : innerPosition name = .operand)
    (hread : ∀ names, "null" ∉ names → operatorExpr name names (found.map .ok) = .ok e) (hname : name ≠ "null")
    (negated : Bool) :
    Tells scope ((operatorEvents scope name operands).map (negatedEvents negated)) [e.negatedBy negated] :=
  (tells_operator h hposition hread hname).negated negated

theorem innerPosition_name (op : ComparisonOp) : innerPosition op.name = .operand := by
  cases op <;> rfl

theorem operatorExpr_name (op : ComparisonOp) (names : List String) (operands : List (Result Expr)) :
    operatorExpr op.name names operands = comparison op names operands := by
  cases op <;> rfl

theorem name_ne_null (op : ComparisonOp) : op.name ≠ "null" := by
  cases op <;> decide

theorem tells_comparison (op : ComparisonOp) {r found : Expr} (hl : scope.Holds p) (hr : Operand scope r found) :
    Tells scope (operatorEvents scope op.name [.property p, r])
      [.comparison op (.property p) (bindConstant (.property p) found)] := by
  refine tells_operator (.cons (operand_property hl) (.cons hr .nil)) (innerPosition_name op) ?_ (name_ne_null op)
  intro names hnames
  rw [operatorExpr_name]
  unfold comparison
  rw [if_neg (by simpa using hnames)]
  rfl

theorem tells_like {pattern : Pattern} {source : String} (hl : scope.Holds p)
    (hpattern : Pattern.ofWildcard .sqlServer source = .ok pattern) (negated : Bool) :
    Tells scope ((operatorEvents scope "like" [.property p, .pattern pattern]).map (negatedEvents negated))
      [(Expr.like (.property p) (.pattern pattern) false).negatedBy negated] := by
  obtain ⟨shown, hwritten, hshown⟩ := Pattern.exists_toWildcard (Pattern.clear_of_mem_syntaxes (by decide)) hpattern
  have hoperand : Operand scope (.pattern pattern) (.object { value := shown }) :=
    operand_constant (by rw [operandEvents, hwritten]; rfl)
  refine tells_test (.cons (operand_property hl) (.cons hoperand .nil)) rfl ?_ (by decide) negated
  intro names _
  change (Pattern.ofWildcard .sqlServer shown).map Expr.pattern >>= _ = _
  rw [hshown]
  rfl

theorem tells_between {low high : Expr} (hl : scope.Holds p) (hlow : IsValue p low) (hhigh : IsValue p high)
    (negated : Bool) :
    Tells scope ((operatorEvents scope "between" [.property p, low, high]).map (negatedEvents negated))
      [(Expr.between (.property p) low.storedOperand high.storedOperand false none).negatedBy negated] := by
  obtain ⟨foundLow, hfoundLow, hlowBound⟩ := hlow.operand scope
  obtain ⟨foundHigh, hfoundHigh, hhighBound⟩ := hhigh.operand scope
  refine tells_test (.cons (operand_property hl) (.cons hfoundLow (.cons hfoundHigh .nil))) rfl ?_ (by decide) negated
  intro names _
  rw [← hlowBound, ← hhighBound]
  rfl

theorem exists_bound {items : List Expr} (h : ∀ item ∈ items, IsValue p item) (scope : Scope) :
    ∃ found, List.Forall₂ (Operand scope) items found ∧
      found.map (bindConstant (.property p)) = items.map Expr.storedOperand := by
  induction items with
  | nil => exact ⟨[], .nil, rfl⟩
  | cons item items ih =>
    obtain ⟨first, hfirst, hbound⟩ := (h item List.mem_cons_self).operand scope
    obtain ⟨rest, hrest, hrestBound⟩ := ih fun item hitem => h item (List.mem_cons_of_mem _ hitem)
    exact ⟨first :: rest, .cons hfirst hrest, by rw [List.map_cons, List.map_cons, hbound, hrestBound]⟩

theorem tells_inList {items : List Expr} (hl : scope.Holds p) (hitems : ∀ item ∈ items, IsValue p item)
    (negated : Bool) :
    Tells scope ((operatorEvents scope "in" (.property p :: items)).map (negatedEvents negated))
      [(Expr.inList (.property p) (items.map Expr.storedOperand) false none).negatedBy negated] := by
  obtain ⟨found, hfound, hbound⟩ := exists_bound hitems scope
  refine tells_test (.cons (operand_property hl) hfound) rfl ?_ (by decide) negated
  intro names _
  change sequence ((.property p :: found).map .ok) >>= _ = _
  rw [sequence_ok, ← hbound]
  rfl

theorem comparison_null (op : ComparisonOp) {name : String} (h : name ≠ "null") (operand other : Result Expr) :
    comparison op [name, "null"] [operand, other] = nullTest op operand := by
  simp [comparison, h]

/-- A comparison with null is a test for null. -/
theorem tells_nullTest (op : ComparisonOp) (name : String) {e : Expr}
    (h : nullTest op (.ok (.prop scope.table name)) = .ok e) :
    Tells scope
      (do return Event.element op.name ((← operandEvents scope (.prop scope.table name)) ++ Event.element "null" []))
      [e] := by
  obtain ⟨events, hevents, hsays⟩ := operand_property (p := ⟨scope.table, name⟩) (.inl (Eq.refl scope.table))
  obtain ⟨element, rfl, hread, hname⟩ := hsays.exists_element
  have hcompared : Event.element op.name (element.events ++ Event.element "null" [])
      = (Element.branch op.name [element, .branch "null" []]).events := by
    rw [Element.events_branch, Element.listEvents, Element.listEvents_singleton, Element.events_branch]
    rfl
  refine ⟨_, by rw [Expr.prop, hevents]; rfl, ?_⟩
  rw [hcompared]
  refine says_element ?_ (name_ne_null op)
  rw [readElement_branch, innerPosition_name, operatorExpr_name, readElements, readElements, hread]
  exact (comparison_null op hname _ _).trans h

theorem tells_null (name : String) {operand : IsOperand} (h : operand = .null ∨ operand = .notNull) :
    Tells scope (nullEvents scope (.prop scope.table name) operand.wantsNull)
      [.is (.prop scope.table name) operand] := by
  rcases h with rfl | rfl
  · exact tells_nullTest .eq name rfl
  · exact tells_nullTest .ne name rfl

theorem Test.tells {e : Expr} (h : Test scope e) (chain : Option LogicalOp) :
    Tells scope (criterionEvents scope chain e) [e.stored] := by
  cases h with
  | compareValue op hp hvalue =>
    obtain ⟨found, hfound, hbound⟩ := hvalue.operand scope
    rw [criterionEvents, Expr.stored, ← hbound]
    exact tells_comparison op hp hfound
  | compareProperty op hp hp' => exact tells_comparison op hp (operand_property hp')
  | like name hpattern negated => exact tells_like (.inl rfl) hpattern negated
  | between name hlow hhigh negated table => exact tells_between (.inl rfl) hlow hhigh negated
  | inList name hitems negated table => exact tells_inList (.inl rfl) hitems negated
  | null name hoperand => exact tells_null name hoperand

/-- What a test comes back as is no chain, and holds none. -/
theorem Test.stored_leftGrouped {e : Expr} (h : Test scope e) :
    e.stored.leftGrouped = e.stored ∧ ∀ op l r, e.stored ≠ .logical op l r := by
  have hvalue {p : PropertyRef} {value : Expr} (h : IsValue p value) :
      value.storedOperand.leftGrouped = value.storedOperand := by
    cases h <;> rfl
  cases h with
  | compareValue op hp hv => simp [Expr.stored, hvalue hv]
  | compareProperty op hp hp' => simp [Expr.stored, Expr.storedOperand]
  | like name hpattern negated => cases negated <;> simp [Expr.stored, Expr.negatedBy, Expr.prop]
  | between name hlow hhigh negated table =>
    cases negated <;> simp [Expr.stored, Expr.negatedBy, Expr.prop, hvalue hlow, hvalue hhigh]
  | inList name hitems negated table =>
    have hsame := List.map_congr_left fun item hitem => hvalue (hitems item hitem)
    cases negated <;> simpa [Expr.stored, Expr.negatedBy, Expr.prop, Expr.listLeftGrouped_eq_map] using hsame
  | null name hoperand => simp [Expr.stored, Expr.prop]

end

/-! ### Criteria and conditions -/

section
variable {scope : Scope} {e : Expr}

theorem operatorExpr_keyword (op : LogicalOp) (names : List String) {found : List Expr} {joined : Expr}
    (h : Expr.joinAll op found = some joined) : operatorExpr op.keyword names (found.map .ok) = .ok joined := by
  cases op with
  | and =>
    simp only [LogicalOp.keyword, operatorExpr, sequence_ok, Expr.allOf, h, bind, Except.bind]
    rfl
  | or =>
    simp only [LogicalOp.keyword, operatorExpr, sequence_ok, Expr.anyOf, h, bind, Except.bind]
    rfl

theorem tells_chain {op : LogicalOp} (chain : Option LogicalOp) {l r : Expr} {found found' : List Expr} {joined : Expr}
    (hl : Tells scope (criterionEvents scope (some op) l) found)
    (hr : Tells scope (criterionEvents scope (some op) r) found')
    (hjoined : Expr.joinAll op (found ++ found') = some joined) :
    Tells scope (criterionEvents scope chain (.logical op l r))
      (if chain = some op then found ++ found' else [joined]) := by
  obtain ⟨left, hleft, hsaysLeft⟩ := hl
  obtain ⟨right, hright, hsaysRight⟩ := hr
  rw [criterionEvents, hleft, hright]
  refine ⟨_, rfl, ?_⟩
  have hboth := hsaysLeft.append hsaysRight
  split
  · exact hboth
  · exact Says.operator _ (by cases op <;> exact hboth) (fun names _ => operatorExpr_keyword op names hjoined)
      (by cases op <;> decide)

/-- A criterion inside a chain comes back as its operands in that chain. -/
theorem Criterion.tells (h : Criterion scope e) (chain : Option LogicalOp) :
    Tells scope (criterionEvents scope chain e) ((e.stored.operandsOf chain).map Expr.leftGrouped) := by
  induction h generalizing chain with
  | test h =>
    obtain ⟨hgrouped, hne⟩ := h.stored_leftGrouped
    rw [Expr.operandsOf_of_ne fun op l r _ => hne op l r, List.map_singleton, hgrouped]
    exact h.tells chain
  | not _ ih =>
    obtain ⟨events, hevents, hsays⟩ := ih none
    rw [criterionEvents, hevents]
    refine ⟨_, rfl, ?_⟩
    rw [Expr.operandsOf_of_ne fun op l r _ => by simp [Expr.stored]]
    exact Says.operator "not" hsays (fun _ _ => rfl) (by decide)
  | @logical op l r hl hr ihl ihr =>
    have hoperands : (Expr.logical op l.stored r.stored).flatten op = l.stored.flatten op ++ r.stored.flatten op := by
      rw [Expr.flatten, if_pos rfl]
    have hjoined := Expr.joinAll_flatten op (.logical op l.stored r.stored)
    rw [hoperands, List.map_append] at hjoined
    have hchain := tells_chain chain (ihl (some op)) (ihr (some op)) hjoined
    rw [Expr.stored]
    by_cases hsame : chain = some op
    · rw [if_pos hsame] at hchain
      rw [hsame, Expr.operandsOf, Option.elim_some, hoperands, List.map_append, ← hsame]
      exact hchain
    · rw [if_neg hsame] at hchain
      rw [Expr.operandsOf_of_ne fun op' l' r' hop' => ?_]
      · exact hchain
      · rintro ⟨⟩
        exact hsame hop'

/-- A criterion of its own comes back with every chain grouped from the left. -/
theorem Criterion.tells_alone (h : Criterion scope e) :
    Tells scope (criterionEvents scope none e) [e.stored.leftGrouped] :=
  h.tells none

theorem tells_terms {terms : List Expr} (h : ∀ e ∈ terms, Criterion scope e) :
    ∃ inner, terms.mapM (criterionEvents scope none) = .ok inner ∧ inner.length = terms.length ∧
      Says scope .criterion inner.flatten (terms.map fun e => e.stored.leftGrouped) := by
  induction terms with
  | nil => exact ⟨[], rfl, rfl, says_nil⟩
  | cons e terms ih =>
    obtain ⟨first, hfirst, hsays⟩ := (h e List.mem_cons_self).tells_alone
    obtain ⟨rest, hrest, hlength, hsaysRest⟩ := ih fun e he => h e (List.mem_cons_of_mem _ he)
    refine ⟨first :: rest, ?_, by simp [hlength], hsays.append hsaysRest⟩
    rw [List.mapM_cons, hfirst, hrest]
    rfl

/-- The condition of criteria holds one element, which is read as their conjunction. -/
theorem exists_conditionEvents {terms : List Expr} {joined : Expr} (h : ∀ e ∈ terms, Criterion scope e)
    (hjoined : Expr.allOf (terms.map fun e => e.stored.leftGrouped) = some joined) :
    ∃ element, conditionEvents scope terms = .ok (Element.branch "condition" [element]).events ∧
      readElement scope .criterion element = .ok joined := by
  obtain ⟨inner, hinner, hlength, hsays⟩ := tells_terms h
  obtain ⟨events, hevents, hsays⟩ : ∃ events, conditionEvents scope terms = .ok (Event.element "condition" events) ∧
      Says scope .criterion events [joined] := by
    rw [conditionEvents, hinner]
    match inner, hlength with
    | [], hlength =>
      rw [List.length_eq_zero_iff.mp hlength.symm] at hjoined
      cases hjoined
    | [single], hlength =>
      obtain ⟨e, rfl⟩ := List.length_eq_one_iff.mp hlength.symm
      cases hjoined
      exact ⟨single, rfl, by simpa using hsays⟩
    | _ :: _ :: _, _ =>
      exact ⟨_, rfl, Says.operator "and" hsays
        (fun names _ => operatorExpr_keyword .and names hjoined) (by decide)⟩
  obtain ⟨element, rfl, hread, -⟩ := hsays.exists_element
  exact ⟨element, by rw [hevents, Element.events_branch, Element.listEvents_singleton], hread⟩

end

/-- The condition of criteria is read as their conjunction: each of them with its chains grouped from the left and its
    negated tests inside of a `not`, and without what elements do not hold. -/
theorem readCondition_conditionEvents {scope : Scope} {terms : List Expr} (hterms : terms ≠ [])
    (h : ∀ e ∈ terms, Criterion scope e) :
    ∃ events root, conditionEvents scope terms = .ok events ∧ Element.ofEvents events = .ok root ∧
      readCondition scope root = .ok (Expr.allOf (terms.map fun e => e.stored.leftGrouped)) := by
  obtain ⟨first, rest, rfl⟩ := List.exists_cons_of_ne_nil hterms
  obtain ⟨element, hevents, hread⟩ := exists_conditionEvents h rfl
  refine ⟨_, _, hevents, Element.ofEvents_eq _, ?_⟩
  rw [readCondition, Element.name_branch, if_pos rfl, Element.children_branch, readElements, readElements, hread]
  rfl

/-- A comparison with the parent and a chain in a chain stand beside a list that is negated twice. -/
theorem readCondition_conditionEvents_parent :
    let t : TableId := ⟨1, 0⟩
    let scope : Scope := { table := t, parent := some ⟨0, 0⟩ }
    let pattern : Pattern := ⟨[[.at_ .start, .literal "x", .set (.ofClass .any) ⟨0, none, true⟩, .at_ .finish]]⟩
    let joined := (Expr.comparison .eq (.prop t "a") (.prop ⟨0, 0⟩ "id")).or
      ((Expr.like (.prop t "b") (.pattern pattern) true).or (.is (.prop t "c") .notNull))
    let listed := Expr.not (.inList (.prop t "d")
      [.object { value := " ", property := some ⟨t, "d"⟩ }, .parameter (.named "p") none true] true (some t))
    [joined, listed] ≠ [] ∧ (∀ e ∈ [joined, listed], Criterion scope e) ∧
      ∃ events root, conditionEvents scope [joined, listed] = .ok events ∧ Element.ofEvents events = .ok root ∧
        readCondition scope root = .ok (Expr.allOf ([joined, listed].map fun e => e.stored.leftGrouped)) := by
  intro t scope pattern joined listed
  have hpieces : Pattern.wildcardPieces .sqlServer 0 "x%".toList = .ok [.literal "x", .anyRun] := by
    simp [Pattern.wildcardPieces, WildcardSyntax.sqlServer, Except.map]
  have hpattern : Pattern.ofWildcard .sqlServer "x%" = .ok pattern :=
    Pattern.ofWildcard_of_wildcardPieces hpieces
  have hjoined : Criterion scope joined :=
    .logical _ (.test (.compareProperty _ (.inl rfl) (.inr rfl)))
      (.logical _ (.test (.like "b" hpattern true)) (.test (.null "c" (.inr rfl))))
  have hlisted : Criterion scope listed := by
    refine .not (.test (.inList "d" ?_ true (some t)))
    rintro item hitem
    rcases List.mem_cons.mp hitem with rfl | hitem
    · exact .object " "
    · exact List.mem_singleton.mp hitem ▸ .parameter "p" true
  have hterms : ∀ e ∈ [joined, listed], Criterion scope e := by
    simpa using ⟨hjoined, hlisted⟩
  exact ⟨by simp, hterms, readCondition_conditionEvents (by simp) hterms⟩

/-- Neither a raw parameter nor the table of a list comes back. -/
theorem readCondition_forgets :
    let t : TableId := ⟨0, 0⟩
    let raw := Expr.comparison .eq (.prop t "a") (.parameter (.named "p") none true)
    let recorded := Expr.inList (.prop t "a") [.object { value := "x", property := some ⟨t, "a"⟩ }] false (some t)
    ∀ e ∈ [raw, recorded], Criterion { table := t } e ∧ ∃ events root found,
      conditionEvents { table := t } [e] = .ok events ∧ Element.ofEvents events = .ok root ∧
        readCondition { table := t } root = .ok (some found) ∧ found ≠ e.leftGrouped := by
  intro t raw recorded e he
  rcases List.mem_cons.mp he with rfl | he
  · exact ⟨.test (.compareValue .eq (.inl rfl) (.parameter "p" true)), _, _, _, rfl, rfl, rfl,
      by simp [raw, Expr.prop, bindConstant]⟩
  · cases List.mem_singleton.mp he
    have hitems : ∀ item ∈ [Expr.object { value := "x", property := some ⟨t, "a"⟩ }], IsValue ⟨t, "a"⟩ item := by
      simpa using IsValue.object "x"
    exact ⟨.test (.inList "a" hitems false (some t)), _, _, _, rfl, rfl, rfl, by simp [recorded, Expr.prop]⟩

end StoredQuery
end ItemQuery
