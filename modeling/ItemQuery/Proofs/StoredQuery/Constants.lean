import ItemQuery.Proofs.Expr.Truth
import ItemQuery.Proofs.StoredQuery.Conditions
import ItemQuery.Proofs.StoredQuery.Growth
import ItemQuery.StoredQuery.Writer

/-! Conditions with truth values. Nothing is written for a truth, which changes nothing among criteria that all have to
    hold; a falsehood is written as an id that is null. So a filter comes back with its truth on every row with an
    id, if none of its alternatives and opposites is one of a truth. -/

namespace ItemQuery.StoredQuery

open Xml (Element Event)

/-! ### Criteria -/

/-- Criteria in which no truth is an operand of an alternative or of an opposite. -/
def Voiced (P : Expr → Prop) : Expr → Prop
  | .logical op l r => Voiced P l ∧ Voiced P r ∧ (op = .or → l.isMute = false ∧ r.isMute = false)
  | .not e => Voiced P e ∧ e.isMute = false
  | e => P e

/-- A constant without spacing at its ends. -/
def Clear (scope : Scope) (e : Expr) : Prop :=
  ∀ text, operandEvents scope e = .ok (constant text) → Xml.Trimmed text.toList

/-- A truth value, or a comparison whose constants are clear. -/
inductive Legible (scope : Scope) : Expr → Prop
  | bool (b : Bool) : Legible scope (.literal (.bool b))
  | comparison (op : ComparisonOp) {l r : Expr} (hl : Clear scope l) (hr : Clear scope r) :
      Legible scope (.comparison op l r)

/-- A property is no constant. -/
theorem clear_prop (scope : Scope) (name : String) : Clear scope (.prop scope.table name) := by
  intro text htext
  simp [Expr.prop, operandEvents, constant, Event.leaf, Event.element, Event.start] at htext

theorem constant_injective : Function.Injective constant := by
  intro text text' h
  have hleaf : Element.listEvents [.leaf "constant" text] = Element.listEvents [.leaf "constant" text'] := by
    rwa [Element.listEvents_singleton, Element.listEvents_singleton, Element.events_leaf, Element.events_leaf]
  injection List.head_eq_of_cons_eq (Element.listEvents_injective hleaf)

theorem clear_object {scope : Scope} {o : ObjectLiteral} (h : Xml.Trimmed o.value.toList) : Clear scope (.object o) := by
  intro text htext
  injection htext with heq
  rwa [← constant_injective heq]

section
variable {P : Expr → Prop} {e x : Expr}

theorem Voiced.of_mem_flatten {op : LogicalOp} (h : Voiced P e) (hx : x ∈ e.flatten op) : Voiced P x := by
  fun_induction Expr.flatten op e with
  | case1 l r ihl ihr =>
    rw [Voiced] at h
    exact (List.mem_append.mp hx).elim (ihl h.1) (ihr h.2.1)
  | case2 inner l r => rwa [List.mem_singleton.mp hx]
  | case3 e => rwa [List.mem_singleton.mp hx]

/-- No alternative is a truth. -/
theorem Voiced.isMute_of_mem_flatten (h : Voiced P e) (hloud : e.isMute = false) (hx : x ∈ e.flatten .or) :
    x.isMute = false := by
  fun_induction Expr.flatten .or e with
  | case1 l r ihl ihr =>
    rw [Voiced] at h
    obtain ⟨hl, hr⟩ := h.2.2 rfl
    exact (List.mem_append.mp hx).elim (ihl h.1 hl) (ihr h.2.1 hr)
  | case2 inner l r => rwa [List.mem_singleton.mp hx]
  | case3 e => rwa [List.mem_singleton.mp hx]

/-- What is left of a chain without its truths has the truth of the chain. -/
theorem Voiced.truth_filter (h : Voiced P e) (op : LogicalOp) (hloud : op = .or → e.isMute = false)
    (I : Interpretation) (v : Valuation) :
    Truth.chain op (((e.flatten op).filter (!·.isMute)).map (Expr.truth I v)) = e.truth I v := by
  cases op with
  | and =>
    rw [← Expr.truth_flatten .and e]
    refine Truth.all_congr fun t ht => ?_
    simp only [List.mem_map, List.mem_filter, Bool.not_eq_true']
    constructor
    · rintro ⟨x, ⟨hx, -⟩, rfl⟩
      exact ⟨x, hx, rfl⟩
    · rintro ⟨x, hx, rfl⟩
      refine ⟨x, ⟨hx, ?_⟩, rfl⟩
      rw [← Bool.not_eq_true]
      exact fun hmute => ht (Expr.truth_of_isMute hmute)
  | or =>
    have hall : ∀ x ∈ e.flatten .or, (!x.isMute) = true := fun x hx => by
      rw [h.isMute_of_mem_flatten (hloud rfl) hx]
      rfl
    rw [List.filter_eq_self.mpr hall]
    exact Expr.truth_flatten .or e

end

/-! ### What is read -/

/-- An operand as it was read, and an operand that it can have been written from. -/
inductive StandsFor (scope : Scope) : Expr → Expr → Prop
  | same (e : Expr) : StandsFor scope e e
  | constant {o : ObjectLiteral} {e : Expr} (h : operandEvents scope e = .ok (constant o.value)) :
      StandsFor scope (.object o) e
  | parameter (name : ParamName) (default : Option Expr) (raw : Bool) :
      StandsFor scope (.parameter (.named name.text) none false) (.parameter name default raw)

/-- A criterion as it was read, and the criterion with the operands that it can have been written from. -/
inductive Recovered (scope : Scope) : Expr → Expr → Prop
  | same (e : Expr) : Recovered scope e e
  | comparison {op : ComparisonOp} {l l' r r' : Expr} (hl : StandsFor scope l l') (hr : StandsFor scope r r') :
      Recovered scope (.comparison op l r) (.comparison op l' r')
  | not {e e' : Expr} (h : Recovered scope e e') : Recovered scope (.not e) (.not e')
  | logical {op : LogicalOp} {l l' r r' : Expr} (hl : Recovered scope l l') (hr : Recovered scope r r') :
      Recovered scope (.logical op l r) (.logical op l' r')

/-- What was read has the truth of a criterion on every row with an id. -/
def Means (scope : Scope) (x e : Expr) : Prop :=
  ∃ r, Recovered scope x r ∧ ∀ I v, v.property ⟨scope.table, "id"⟩ ≠ .null → r.truth I v = e.truth I v

section
variable {scope : Scope} {x e : Expr} {xs es : List Expr}

theorem Recovered.joinAll {op : LogicalOp} {rs : List Expr} (h : List.Forall₂ (Recovered scope) xs rs)
    (hx : Expr.joinAll op xs = some x) : ∃ r, Expr.joinAll op rs = some r ∧ Recovered scope x r := by
  cases h with
  | nil => cases hx
  | @cons x' r' xs rs hfirst hrest =>
    cases hx
    refine ⟨_, rfl, ?_⟩
    induction hrest generalizing x' r' with
    | nil => exact hfirst
    | cons hnext _ ih => exact ih (hfirst.logical hnext)

/-- Criteria that were read, joined to one. -/
theorem Means.joinAll {op : LogicalOp} (h : List.Forall₂ (Means scope) xs es) (hx : Expr.joinAll op xs = some x)
    (htruth : ∀ I v, Truth.chain op (es.map (Expr.truth I v)) = e.truth I v) : Means scope x e := by
  obtain ⟨rs, hrs, htruths⟩ : ∃ rs, List.Forall₂ (Recovered scope) xs rs ∧
      ∀ I v, v.property ⟨scope.table, "id"⟩ ≠ .null → rs.map (Expr.truth I v) = es.map (Expr.truth I v) := by
    clear hx htruth
    induction h with
    | nil => exact ⟨[], .nil, fun _ _ _ => rfl⟩
    | cons hfirst _ ih =>
      obtain ⟨r, hr, htruth⟩ := hfirst
      obtain ⟨rs, hrs, htruths⟩ := ih
      exact ⟨r :: rs, .cons hr hrs, fun I v hid => by rw [List.map_cons, List.map_cons, htruth I v hid, htruths I v hid]⟩
  obtain ⟨r, hjoined, hr⟩ := Recovered.joinAll hrs hx
  exact ⟨r, hr, fun I v hid => by rw [Expr.truth_of_joinAll hjoined, htruths I v hid, htruth]⟩

theorem Means.not (h : Means scope x e) : Means scope (.not x) (.not e) := by
  obtain ⟨r, hr, htruth⟩ := h
  exact ⟨.not r, hr.not, fun I v hid => by rw [Expr.truth_not, Expr.truth_not, htruth I v hid]⟩

end

/-! ### Elements as text -/

/-- The events of elements that come back from their text. -/
def Shown (events : List Event) : Prop :=
  ∃ elements, events = Element.listEvents elements ∧ Element.ListPlain elements

section
variable {scope : Scope} {events events' : List Event}

theorem shown_nil : Shown [] :=
  ⟨[], rfl, trivial⟩

theorem Shown.append (h : Shown events) (h' : Shown events') : Shown (events ++ events') := by
  obtain ⟨es, rfl, hes⟩ := h
  obtain ⟨es', rfl, hes'⟩ := h'
  refine ⟨es ++ es', (Element.listEvents_append es es').symm, ?_⟩
  rw [Element.listPlain_iff] at hes hes' ⊢
  exact List.forall_mem_append.mpr ⟨hes, hes'⟩

theorem shown_events {e : Element} (h : e.Plain) : Shown e.events :=
  ⟨[e], (Element.listEvents_singleton e).symm, h, trivial⟩

theorem Shown.element {name : String} (hname : Xml.IsTagName name) (h : Shown events) :
    Shown (Event.element name events) := by
  obtain ⟨es, rfl, hes⟩ := h
  rw [← Element.events_branch]
  exact shown_events (Element.plain_branch hname hes)

theorem shown_constant {text : String} (h : Xml.Trimmed text.toList) : Shown (constant text) := by
  rw [constant, ← Element.events_leaf]
  exact shown_events (Element.plain_leaf (by decide) h)

theorem shown_attributes {name : String} {pairs : List (String × String)} (hname : Xml.IsTagName name)
    (h : Xml.Attributive pairs) : Shown (Element.node name pairs [] "").events :=
  shown_events (Element.plain_bare hname h)

theorem shown_operand {e : Expr} (hclear : Clear scope e) (h : operandEvents scope e = .ok events) : Shown events := by
  have hconstant : ∀ text, operandEvents scope e = .ok (constant text) → Shown events := by
    intro text htext
    cases htext.symm.trans h
    exact shown_constant (hclear text htext)
  cases e with
  | property p =>
    rw [operandEvents] at h
    split at h
    next =>
      cases h
      have hshown : Shown (Element.node "property" [("name", p.name)] [] "").events :=
        shown_attributes (by decide) ⟨by simp; decide, by simp⟩
      exact hshown
    next =>
      split at h
      next =>
        cases h
        have hshown : Shown
            (Element.node "property" [("name", p.name), ("query_items_xpath", parentPath)] [] "").events :=
          shown_attributes (by decide) ⟨by simp; decide, by simp⟩
        exact hshown
      next => cases h
  | parameter name default raw =>
    cases h
    have hshown : Shown (Element.node "parameter" [("name", name.text)] [] "").events :=
      shown_attributes (by decide) ⟨by simp; decide, by simp⟩
    exact hshown
  | object o => exact hconstant _ rfl
  | literal value => cases value <;> exact hconstant _ rfl
  | pattern p =>
    obtain ⟨text, htext, -⟩ := Result.map_eq_ok.mp h
    exact hconstant text (by rw [operandEvents, htext]; rfl)
  | _ => cases h

end

/-! ### Comparisons -/

section
variable {scope : Scope} {e l r : Expr}

/-- An operand is read as one that it can have been written from, also as a value of a property. -/
theorem exists_operand {events : List Event} (h : operandEvents scope e = .ok events) :
    ∃ found, Operand scope e found ∧ StandsFor scope found e ∧
      ∀ o p, found = .object o → StandsFor scope (.object { o with property := p }) e := by
  have hconstant : ∀ text, operandEvents scope e = .ok (constant text) → ∃ found, Operand scope e found ∧
      StandsFor scope found e ∧ ∀ o p, found = .object o → StandsFor scope (.object { o with property := p }) e := by
    intro text htext
    refine ⟨_, operand_constant htext, .constant htext, ?_⟩
    rintro o p ⟨⟩
    exact .constant htext
  cases e with
  | property p =>
    refine ⟨_, operand_property ?_, .same _, by simp⟩
    rw [operandEvents] at h
    split at h
    next heq => exact .inl heq
    next =>
      split at h
      next heq => exact .inr heq
      next => cases h
  | parameter name default raw => exact ⟨_, operand_parameter scope name default raw, .parameter name default raw, by simp⟩
  | object o => exact hconstant _ rfl
  | literal value => cases value <;> exact hconstant _ rfl
  | pattern p =>
    obtain ⟨text, htext, -⟩ := Result.map_eq_ok.mp h
    exact hconstant text (by rw [operandEvents, htext]; rfl)
  | _ => cases h

/-- The events of two operands. -/
theorem operatorEvents_two {name : String} {events : List Event} (h : operatorEvents scope name [l, r] = .ok events) :
    ∃ left right, operandEvents scope l = .ok left ∧ operandEvents scope r = .ok right ∧
      events = Event.element name (left ++ right) := by
  obtain ⟨inner, hinner, h⟩ := Result.bind_eq_ok.mp h
  rw [List.mapM_cons] at hinner
  obtain ⟨left, hleft, hinner⟩ := Result.bind_eq_ok.mp hinner
  obtain ⟨rest, hrest, hinner⟩ := Result.bind_eq_ok.mp hinner
  rw [List.mapM_cons] at hrest
  obtain ⟨right, hright, hrest⟩ := Result.bind_eq_ok.mp hrest
  cases hrest
  cases hinner
  cases h
  exact ⟨left, right, hleft, hright, by simp⟩

/-- The left operand beside a property: a constant becomes a value of it. -/
def boundLeft (left right : Expr) : Expr :=
  match left, right with
  | .object o, .property p => .object { value := o.value, property := some p }
  | _, _ => left

/-- A comparison is read with a constant on either side as a value of the property on the other. -/
theorem exists_comparison (op : ComparisonOp) {events : List Event}
    (h : operatorEvents scope op.name [l, r] = .ok events) :
    ∃ x, Says scope .criterion events [x] ∧ Recovered scope x (.comparison op l r) := by
  obtain ⟨left, right, hl, hr, -⟩ := operatorEvents_two h
  obtain ⟨found, hfound, hstands, hbound⟩ := exists_operand hl
  obtain ⟨found', hfound', hstands', hbound'⟩ := exists_operand hr
  have hright : StandsFor scope (bindConstant found found') r := by
    unfold bindConstant
    split
    next => exact hbound' _ _ rfl
    next => exact hstands'
  have hleft : StandsFor scope (boundLeft found (bindConstant found found')) l := by
    unfold boundLeft
    split
    next => exact hbound _ _ rfl
    next => exact hstands
  have hx : ∀ names, "null" ∉ names → comparison op names [.ok found, .ok found'] =
      .ok (.comparison op (boundLeft found (bindConstant found found')) (bindConstant found found')) :=
        fun names hnames => by
    unfold comparison
    rw [if_neg (by simpa using hnames)]
    rfl
  obtain ⟨es, hes, hsays⟩ := tells_operator (.cons hfound (.cons hfound' .nil)) (innerPosition_name op)
    (fun names hnames => (operatorExpr_name op names _).trans (hx names hnames)) (name_ne_null op)
  cases hes.symm.trans h
  exact ⟨_, hsays, .comparison hleft hright⟩

end

/-! ### Criteria and conditions -/

section
variable {scope : Scope} {e : Expr} {events : List Event}

/-- The operands of a chain for which something is written. -/
def voices (chain : Option LogicalOp) (e : Expr) : List Expr :=
  (e.operandsOf chain).filter (!·.isMute)

theorem voices_of_ne {chain : Option LogicalOp} (hne : ∀ op l r, chain = some op → e ≠ .logical op l r)
    (hloud : e.isMute = false) : voices chain e = [e] := by
  rw [voices, Expr.operandsOf_of_ne hne, List.filter_singleton, hloud]
  rfl

theorem voices_ne_nil (op : LogicalOp) (hloud : e.isMute = false) : voices (some op) e ≠ [] := by
  intro hnil
  have hall := List.filter_eq_nil_iff.mp hnil
  rw [(Expr.isMute_iff_flatten op e).mpr fun x hx => by simpa using hall x hx] at hloud
  cases hloud

/-- A falsehood is read as an id that is null. -/
theorem exists_false (h : nullEvents scope (.prop scope.table "id") true = .ok events) :
    ∃ x, Says scope .criterion events [x] ∧ Shown events ∧ Means scope x (.literal (.bool false)) := by
  obtain ⟨es, hes, hsays⟩ : Tells scope (nullEvents scope (.prop scope.table "id") true)
      [.is (.prop scope.table "id") .null] := tells_null "id" (.inl rfl)
  cases hes.symm.trans h
  refine ⟨_, hsays, ?_, _, .same _, fun I v hid => ?_⟩
  · obtain ⟨inner, hinner, hevents⟩ := Result.bind_eq_ok.mp h
    cases hevents
    exact ((shown_operand (clear_prop scope "id") hinner).append (shown_nil.element (by decide))).element (by decide)
  · have hnull : (v.property ⟨scope.table, "id"⟩).isNull = false := by
      cases hvalue : v.property ⟨scope.table, "id"⟩ with
      | null => exact absurd hvalue hid
      | _ => rfl
    exact congrArg some hnull

/-- What is read as one criterion is read so in every chain. -/
theorem exists_found_of_one {chain : Option LogicalOp} {x : Expr} (hne : ∀ op l r, e ≠ .logical op l r)
    (hloud : e.isMute = false) (htold : Says scope .criterion events [x]) (hshown : Shown events)
    (hmeans : Means scope x e) :
    ∃ found, Says scope .criterion events found ∧ Shown events ∧ List.Forall₂ (Means scope) found (voices chain e) := by
  rw [voices_of_ne (fun op l r _ => hne op l r) hloud]
  exact ⟨[x], htold, hshown, .cons hmeans .nil⟩

/-- The operands of another operator than that of the chain are read as one criterion. -/
theorem exists_joined {op : LogicalOp} {l r : Expr} {found : List Expr}
    (hvoiced : Voiced (Legible scope) (.logical op l r)) (hloud : (Expr.logical op l r).isMute = false)
    (htold : Says scope .criterion events found) (hshown : Shown events)
    (hmeans : List.Forall₂ (Means scope) found (voices (some op) (.logical op l r))) :
    ∃ joined, Says scope .criterion (Event.element op.keyword events) [joined] ∧
      Shown (Event.element op.keyword events) ∧ Means scope joined (.logical op l r) := by
  obtain ⟨joined, hjoined⟩ : ∃ joined, Expr.joinAll op found = some joined := by
    cases found with
    | nil => exact absurd (List.forall₂_nil_left_iff.mp hmeans) (voices_ne_nil op hloud)
    | cons x xs => exact ⟨_, rfl⟩
  refine ⟨joined, ?_, hshown.element (by cases op <;> decide),
    .joinAll hmeans hjoined fun I v => hvoiced.truth_filter op (fun _ => hloud) I v⟩
  exact Says.operator _ (by cases op <;> exact htold) (fun names _ => operatorExpr_keyword op names hjoined)
    (by cases op <;> decide)

/-- A criterion is read as its operands in the chain, without truths. -/
theorem Voiced.exists_found (h : Voiced (Legible scope) e) {chain : Option LogicalOp}
    (hchain : chain ≠ some .and → e.isMute = false) (hevents : criterionEvents scope chain e = .ok events) :
    ∃ found, Says scope .criterion events found ∧ Shown events ∧ List.Forall₂ (Means scope) found (voices chain e) := by
  fun_induction Voiced (Legible scope) e generalizing chain events with
  | case1 op l r ihl ihr =>
    have hvoiced : Voiced (Legible scope) (.logical op l r) := by
      rw [Voiced]
      exact h
    obtain ⟨hl, hr, hor⟩ := h
    have hoperands : op ≠ .and → l.isMute = false ∧ r.isMute = false := by
      intro hop
      refine hor ?_
      cases op
      · exact absurd rfl hop
      · rfl
    rw [criterionEvents] at hevents
    obtain ⟨left, hleft, hevents⟩ := Result.bind_eq_ok.mp hevents
    obtain ⟨right, hright, hevents⟩ := Result.bind_eq_ok.mp hevents
    obtain ⟨found, hsays, hshown, hmeans⟩ := ihl hl (fun hop => (hoperands (by simpa using hop)).1) hleft
    obtain ⟨found', hsays', hshown', hmeans'⟩ := ihr hr (fun hop => (hoperands (by simpa using hop)).2) hright
    have hboth : List.Forall₂ (Means scope) (found ++ found') (voices (some op) (.logical op l r)) := by
      rw [voices, Expr.operandsOf, Option.elim_some, Expr.flatten, if_pos rfl, List.filter_append]
      exact List.rel_append hmeans hmeans'
    split at hevents
    next hsame =>
      cases hevents
      exact ⟨_, hsays.append hsays', hshown.append hshown', hsame ▸ hboth⟩
    next hne =>
      cases hevents
      have hloud : (Expr.logical op l r).isMute = false := by
        by_cases hand : chain = some .and
        · rw [Expr.isMute, (hoperands fun hop => hne (hand.trans (congrArg some hop.symm))).1]
          rfl
        · exact hchain hand
      have hsaysBoth := hsays.append hsays'
      obtain ⟨joined, hjoined, hshown, hmean⟩ := exists_joined hvoiced hloud hsaysBoth (hshown.append hshown') hboth
      rw [voices_of_ne (fun op' l' r' hop' heq => hne (by cases heq; exact hop')) hloud]
      exact ⟨[joined], hjoined, hshown, .cons hmean .nil⟩
  | case2 e ih =>
    obtain ⟨he, hloud⟩ := h
    rw [criterionEvents] at hevents
    obtain ⟨inner, hinner, hevents⟩ := Result.bind_eq_ok.mp hevents
    cases hevents
    obtain ⟨found, hsays, hshown, hmeans⟩ := ih he (fun _ => hloud) hinner
    rw [voices_of_ne (by simp) hloud] at hmeans
    cases hmeans with
    | cons hmean hrest =>
      cases hrest
      exact exists_found_of_one (by simp) rfl (.operator "not" hsays (fun _ _ => rfl) (by decide))
        (hshown.element (by decide)) hmean.not
  | case3 e hlogical hnot =>
    cases h with
    | bool b =>
      cases b with
      | true =>
        obtain rfl : chain = some .and := Decidable.byContradiction fun hne => by cases hchain hne
        cases hevents
        exact ⟨[], says_nil, shown_nil, .nil⟩
      | false =>
        obtain ⟨x, hsays, hshown, hmeans⟩ := exists_false hevents
        exact exists_found_of_one (by simp) rfl hsays hshown hmeans
    | @comparison op l r hl hr =>
      obtain ⟨x, hsays, hrestored⟩ := exists_comparison op hevents
      obtain ⟨left, right, hleft, hright, rfl⟩ := operatorEvents_two hevents
      refine exists_found_of_one (by simp) rfl hsays ?_ ⟨_, hrestored, fun _ _ _ => rfl⟩
      exact ((shown_operand hl hleft).append (shown_operand hr hright)).element (by cases op <;> decide)

/-- Criteria that all have to hold are read one after the other. -/
theorem exists_terms {terms : List Expr} (h : ∀ e ∈ terms, Voiced (Legible scope) e ∧ e.isMute = false)
    {inner : List (List Event)} (hinner : terms.mapM (criterionEvents scope none) = .ok inner) :
    ∃ found, inner.length = terms.length ∧ Says scope .criterion inner.flatten found ∧ Shown inner.flatten ∧
      List.Forall₂ (Means scope) found terms := by
  induction terms generalizing inner with
  | nil =>
    cases hinner
    exact ⟨[], rfl, says_nil, shown_nil, .nil⟩
  | cons e terms ih =>
    obtain ⟨⟨hvoiced, hloud⟩, hterms⟩ := List.forall_mem_cons.mp h
    rw [List.mapM_cons] at hinner
    obtain ⟨first, hfirst, hinner⟩ := Result.bind_eq_ok.mp hinner
    obtain ⟨rest, hrest, hinner⟩ := Result.bind_eq_ok.mp hinner
    cases hinner
    obtain ⟨found, hsays, hshown, hmeans⟩ := hvoiced.exists_found (fun _ => hloud) hfirst
    obtain ⟨found', hlength, hsays', hshown', hmeans'⟩ := ih hterms hrest
    have hvoices : voices none e = [e] := voices_of_ne nofun hloud
    refine ⟨found ++ found', by simp [hlength], hsays.append hsays', hshown.append hshown', ?_⟩
    exact List.rel_append (hvoices ▸ hmeans) hmeans'

/-- The element inside of a condition. -/
theorem exists_conditionElement {terms : List Expr} (hne : terms ≠ [])
    (h : ∀ t ∈ terms, Voiced (Legible scope) t ∧ t.isMute = false)
    (htruth : ∀ I v, Truth.all (terms.map (Expr.truth I v)) = e.truth I v)
    (hevents : conditionEvents scope terms = .ok events) :
    ∃ element x, events = (Element.branch "condition" [element]).events ∧ element.Plain ∧
      readElement scope .criterion element = .ok x ∧ Means scope x e := by
  obtain ⟨inner, hinner, hevents⟩ := Result.bind_eq_ok.mp hevents
  obtain ⟨found, hlength, hsays, hshown, hmeans⟩ := exists_terms h hinner
  obtain ⟨inside, x, rfl, hsays, hshown, hmean⟩ : ∃ inside x, events = Event.element "condition" inside ∧
      Says scope .criterion inside [x] ∧ Shown inside ∧ Means scope x e := by
    obtain ⟨joined, hjoined⟩ : ∃ joined, Expr.allOf found = some joined := by
      cases hmeans with
      | nil => exact absurd rfl hne
      | cons => exact ⟨_, rfl⟩
    have hmean : Means scope joined e := .joinAll hmeans hjoined htruth
    split at hevents
    next single =>
      cases hevents
      obtain ⟨t, rfl⟩ := List.length_eq_one_iff.mp hlength.symm
      obtain ⟨x, rfl⟩ := List.length_eq_one_iff.mp hmeans.length_eq
      cases hjoined
      rw [List.flatten_singleton] at hsays hshown
      exact ⟨single, x, rfl, hsays, hshown, hmean⟩
    next =>
      cases hevents
      exact ⟨_, joined, rfl, Says.operator "and" hsays (fun names _ => operatorExpr_keyword .and names hjoined) (by decide),
        hshown.element (by decide), hmean⟩
  obtain ⟨element, rfl, hread, -⟩ := hsays.exists_element
  obtain ⟨es, hes, hplain⟩ := hshown
  obtain rfl : [element] = es := Element.listEvents_injective ((Element.listEvents_singleton element).trans hes)
  exact ⟨element, x, by rw [Element.events_branch, Element.listEvents_singleton], hplain.1, hread, hmean⟩

/-- The text of a condition with these events. -/
theorem conditionText_eq {terms : List Expr} {root : Element} (h : conditionEvents scope terms = .ok root.events) :
    conditionText scope terms = .ok root.markup := by
  rw [conditionText, h]
  exact Element.write_events root

/-- The text of a condition is read as one criterion with the truth of all its terms. -/
theorem exists_parseCondition {terms : List Expr} (hne : terms ≠ [])
    (h : ∀ t ∈ terms, Voiced (Legible scope) t ∧ t.isMute = false)
    (htruth : ∀ I v, Truth.all (terms.map (Expr.truth I v)) = e.truth I v) {text : String}
    (htext : conditionText scope terms = .ok text) :
    ∃ x, parseCondition scope text = .ok (some x) ∧ Means scope x e := by
  obtain ⟨events, hevents, -⟩ := Result.bind_eq_ok.mp htext
  obtain ⟨element, x, rfl, hplain, hread, hmean⟩ := exists_conditionElement hne h htruth hevents
  have hroot : (Element.branch "condition" [element]).Plain := Element.plain_branch (by decide) ⟨hplain, trivial⟩
  cases (conditionText_eq hevents).symm.trans htext
  refine ⟨x, ?_, hmean⟩
  rw [parseCondition_markup scope hroot, readCondition, Element.name_branch, if_pos rfl, Element.children_branch,
    readElements, readElements, hread]
  rfl

/-! ### Filters -/

/-- The condition that is stored for a filter: that of its terms, unless all of them are truths. -/
def filterText (scope : Scope) (e : Expr) : Result (Option String) :=
  Writer.storedCondition scope ((e.flatten .and).filter (!Writer.isTrue ·))

/-- The filter of a stored condition. -/
def parseFilter (scope : Scope) (text : Option String) : Result (Option Expr) :=
  text.elim (.ok none) (parseCondition scope)

/-- The terms that are not truths are those that something is written for. -/
theorem Voiced.filter_isTrue (h : Voiced (Legible scope) e) :
    (e.flatten .and).filter (!Writer.isTrue ·) = voices (some .and) e := by
  refine List.filter_congr fun x hx => congrArg _ ?_
  have hvoiced := h.of_mem_flatten hx
  cases x with
  | literal value => cases value <;> rfl
  | logical op l r =>
    cases op with
    | and => exact absurd rfl (Expr.ne_logical_of_mem_flatten hx l r)
    | or =>
      rw [Voiced] at hvoiced
      rw [Expr.isMute, (hvoiced.2.2 rfl).1]
      rfl
  | _ => rfl

/-- A stored filter is read with its truth on every row with an id. -/
theorem Voiced.exists_parseFilter (h : Voiced (Legible scope) e) {text : Option String}
    (htext : filterText scope e = .ok text) :
    ∃ found restored, parseFilter scope text = .ok found ∧ Option.Rel (Recovered scope) found restored ∧
      ∀ I v, v.property ⟨scope.table, "id"⟩ ≠ .null → Expr.filterTruth I v restored = e.truth I v := by
  rw [filterText, h.filter_isTrue, Writer.storedCondition] at htext
  have htruth : ∀ I v, Truth.all ((voices (some .and) e).map (Expr.truth I v)) = e.truth I v :=
    h.truth_filter .and nofun
  split at htext
  next hempty =>
    cases htext
    refine ⟨none, none, rfl, .none, fun I v _ => ?_⟩
    rw [← htruth I v, List.isEmpty_iff.mp hempty]
    rfl
  next hne =>
    obtain ⟨source, hsource, rfl⟩ := Result.map_eq_ok.mp htext
    have hterms : ∀ t ∈ voices (some .and) e, Voiced (Legible scope) t ∧ t.isMute = false := by
      intro t ht
      obtain ⟨hmem, hloud⟩ := List.mem_filter.mp ht
      exact ⟨h.of_mem_flatten hmem, by simpa using hloud⟩
    obtain ⟨x, hparse, r, hr, hmeans⟩ := exists_parseCondition (by simpa using hne) hterms htruth hsource
    have hfilter : parseFilter scope (some source) = .ok (some x) := by rw [parseFilter, Option.elim_some, hparse]
    exact ⟨some x, some r, hfilter, .some hr, hmeans⟩

end

end ItemQuery.StoredQuery
