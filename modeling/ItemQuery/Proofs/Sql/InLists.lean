import ItemQuery.Proofs.Expr.Grouping
import ItemQuery.Proofs.Expr.Truth
import ItemQuery.Proofs.Sql.Regrouping

/-! Equalities collected to value lists. A collected chain has one list for every property with several equalities, so
    that the chain has the truth it had, none of its properties is compared twice, and collecting again changes
    nothing. -/

namespace ItemQuery.Expr

variable {a c d e t x : Expr} {terms all rest : List Expr} {done : List PropertyRef} {p : PropertyRef}

/-! ### Chains of alternatives -/

theorem sizeOf_le_of_mem_flatten {op : LogicalOp} (h : a ∈ e.flatten op) : sizeOf a ≤ sizeOf e := by
  fun_induction flatten op e with
  | case1 l r ihl ihr =>
    rw [logical.sizeOf_spec]
    rcases List.mem_append.mp h with h | h
    · exact (ihl h).trans (by omega)
    · exact (ihr h).trans (by omega)
  | case2 | case3 => rw [List.mem_singleton.mp h]

/-- Induction from the parts of the alternatives of a chain to the chain. -/
theorem induction_alternatives {P : Expr → Prop} (h : ∀ e, (∀ a ∈ e.flatten .or, ∀ d ∈ a.children, P d) → P e)
    (e : Expr) : P e :=
  h e fun _ _ d _ => induction_alternatives h d
termination_by e
decreasing_by exact (sizeOf_lt_of_mem_children ‹_›).trans_le (sizeOf_le_of_mem_flatten ‹_›)

theorem orTerms_eq_map (e : Expr) : e.orTerms = (e.flatten .or).map collapseIn := by
  induction e using flatten.induct .or with
  | case1 l r ihl ihr => rw [orTerms, ihl, ihr, flatten, if_pos rfl, List.map_append]
  | case2 inner l r hne =>
    have hor : ∀ m s, logical inner l r ≠ logical .or m s := by
      rintro m s ⟨⟩
      exact hne rfl
    rw [orTerms_of_ne hor, flatten_of_ne hor, List.map_singleton]
  | case3 e hne =>
    rw [orTerms_of_ne (hne .or), flatten_of_ne (hne .or), List.map_singleton]

theorem collapseIn_of_leaf (h : e.children = []) : e.collapseIn = e := by
  have hor : ∀ l r, e ≠ logical .or l r := by
    rintro l r rfl
    cases h
  rw [collapseIn_of_ne hor, mapChildren_eq_self (by simp [h])]

theorem eq_of_collapseIn_leaf (h : e.collapseIn.children = []) : e.collapseIn = e := by
  by_cases hor : ∃ l r, e = logical .or l r
  · obtain ⟨l, r, rfl⟩ := hor
    rcases collapseIn_or l r with ⟨m, s, heq⟩ | ⟨p, items, heq⟩ <;> rw [heq] at h <;> cases h
  · rw [children_collapseIn fun l r heq => hor ⟨l, r, heq⟩, List.map_eq_nil_iff] at h
    exact collapseIn_of_leaf h

theorem children_of_isLiteral (h : e.isLiteral = true) : e.children = [] := by
  cases e with
  | literal | object => rfl
  | _ => cases h

theorem isLiteral_collapseIn (e : Expr) : e.collapseIn.isLiteral = e.isLiteral := by
  rw [Bool.eq_iff_iff]
  constructor
  · intro h
    rwa [eq_of_collapseIn_leaf (children_of_isLiteral h)] at h
  · intro h
    rwa [collapseIn_of_leaf (children_of_isLiteral h)]

theorem collapseIn_eq_property : e.collapseIn = property p ↔ e = property p := by
  constructor
  · intro h
    rw [← h]
    exact (eq_of_collapseIn_leaf (by rw [h]; rfl)).symm
  · rintro rfl
    exact collapseIn_of_leaf rfl

/-- Collecting the parts of an alternative leaves its equality. -/
theorem equality?_collapseIn (h : ∀ l r, t ≠ logical .or l r) : t.collapseIn.equality? = t.equality? := by
  refine Option.ext fun ⟨p, value⟩ => ?_
  rw [equality?_eq_some, equality?_eq_some, collapseIn_of_ne h]
  constructor
  · rintro ⟨heq, hliteral⟩
    cases t with
    | comparison op l r =>
      simp only [mapChildren, comparison.injEq] at heq
      obtain ⟨rfl, hl, rfl⟩ := heq
      rw [isLiteral_collapseIn] at hliteral
      rw [collapseIn_eq_property.mp hl, collapseIn_of_leaf (children_of_isLiteral hliteral)]
      exact ⟨rfl, hliteral⟩
    | _ => cases heq
  · rintro ⟨rfl, hliteral⟩
    refine ⟨mapChildren_eq_self fun d hd => ?_, hliteral⟩
    simp only [children, List.mem_cons, List.not_mem_nil, or_false] at hd
    rcases hd with rfl | rfl
    · exact collapseIn_of_leaf rfl
    · exact collapseIn_of_leaf (children_of_isLiteral hliteral)

theorem valuesOf_map_collapseIn {terms : List Expr} (h : ∀ t ∈ terms, ∀ l r, t ≠ logical .or l r) (p : PropertyRef) :
    valuesOf p (terms.map collapseIn) = valuesOf p terms := by
  rw [valuesOf, List.filterMap_map]
  exact List.filterMap_congr fun t ht => by rw [Function.comp_apply, equality?_collapseIn (h t ht)]

theorem valuesOf_orTerms (p : PropertyRef) (e : Expr) : valuesOf p e.orTerms = valuesOf p (e.flatten .or) := by
  rw [orTerms_eq_map]
  exact valuesOf_map_collapseIn (fun _ ht => ne_logical_of_mem_flatten ht) p

theorem ne_or_of_mem_orTerms (ht : t ∈ e.orTerms) (l r : Expr) : t ≠ logical .or l r := by
  rw [orTerms_eq_map] at ht
  obtain ⟨a, ha, rfl⟩ := List.mem_map.mp ht
  have hne := ne_logical_of_mem_flatten ha
  rw [collapseIn_of_ne hne]
  cases a with
  | logical op m s =>
    rintro ⟨⟩
    exact hne m s rfl
  | _ => exact nofun

/-! ### Collected alternatives -/

theorem valuesOf_cons (p : PropertyRef) (t : Expr) (terms : List Expr) :
    valuesOf p (t :: terms) =
      (t.equality?.bind fun e => if e.1 = p then some e.2 else none).toList ++ valuesOf p terms := by
  rw [valuesOf, valuesOf, List.filterMap_cons]
  split <;> simp_all

/-- Of a property that has a list, no equality is left; of any other one, all are. -/
theorem valuesOf_groupTerms (p : PropertyRef) (all : List Expr) (done : List PropertyRef) (rest : List Expr) :
    valuesOf p (groupTerms all done rest) = if (valuesOf p all).length ≤ 1 then valuesOf p rest else [] := by
  fun_induction groupTerms all done rest with
  | case1 => exact (ite_self _).symm
  | case2 done term rest hnone ih =>
    rw [valuesOf_cons, ih, valuesOf_cons, hnone]
    rfl
  | case3 done term rest q value hequality hfew ih =>
    rw [valuesOf_cons, ih, valuesOf_cons, hequality]
    by_cases hp : q = p
    · simp [← hp, hfew]
    · simp [hp]
  | case4 done term rest q value hequality hmany hdone ih =>
    rw [ih, valuesOf_cons, hequality]
    by_cases hp : q = p
    · simp [← hp, hmany]
    · simp [hp]
  | case5 done term rest q value hequality hmany hdone ih =>
    rw [valuesOf_cons, ih, valuesOf_cons, hequality]
    by_cases hp : q = p
    · simp [← hp, hmany, equality?]
    · simp [hp, equality?]

theorem groupTerms_eq_self (h : ∀ p, (valuesOf p all).length ≤ 1) (done : List PropertyRef) (rest : List Expr) :
    groupTerms all done rest = rest := by
  fun_induction groupTerms all done rest with
  | case1 => rfl
  | case2 _ _ _ _ ih | case3 _ _ _ _ _ _ _ ih => rw [ih]
  | case4 _ _ _ p _ _ hmany | case5 _ _ _ p _ _ hmany => exact absurd (h p) hmany

/-- The alternatives of a chain with its equalities collected. -/
def collected (e : Expr) : List Expr :=
  groupTerms e.orTerms [] e.orTerms

theorem length_valuesOf_collected (p : PropertyRef) (e : Expr) : (valuesOf p e.collected).length ≤ 1 := by
  rw [collected, valuesOf_groupTerms]
  split
  next hfew => exact hfew
  next => exact Nat.zero_le 1

/-- A collected alternative is the list of a property with several equalities, or an alternative with its parts
    collected. -/
theorem mem_collected (ht : t ∈ e.collected) : (∃ a ∈ e.flatten .or, t = a.collapseIn) ∨
    ∃ p, t = inList (property p) (valuesOf p (e.flatten .or)) false none ∧ 1 < (valuesOf p (e.flatten .or)).length := by
  rcases mem_groupTerms ht with ht | ⟨p, value, -, hmany, rfl⟩
  · rw [orTerms_eq_map] at ht
    obtain ⟨a, ha, rfl⟩ := List.mem_map.mp ht
    exact .inl ⟨a, ha, rfl⟩
  · rw [valuesOf_orTerms] at hmany ⊢
    exact .inr ⟨p, rfl, hmany⟩

theorem flatten_of_mem_collected (ht : t ∈ e.collected) : t.flatten .or = [t] := by
  refine flatten_of_ne fun l r => ?_
  rcases mem_groupTerms ht with ht | ⟨p, value, -, -, rfl⟩
  · exact ne_or_of_mem_orTerms ht l r
  · exact nofun

theorem collected_ne_nil (e : Expr) : e.collected ≠ [] :=
  groupTerms_ne_nil _ (orTerms_ne_nil e)

theorem joinAll_collected (e : Expr) : joinAll .or e.collected = some e.collapseIn := by
  obtain ⟨first, more, hcons⟩ := List.exists_cons_of_ne_nil (collected_ne_nil e)
  rw [collapseIn, regroup, anyOf, ← collected, hcons]
  rfl

theorem flatten_collapseIn (e : Expr) : e.collapseIn.flatten .or = e.collected :=
  flatten_joinAll (fun _ => flatten_of_mem_collected) (joinAll_collected e)

/-! ### Meaning -/

/-- A three-valued meaning of expressions, whatever their values are: that of a chain of alternatives and of a value list
    is a truth, and that of any other expression depends on the meaning of its direct parts. -/
structure Meaning (V : Type) where
  of : Expr → V
  truth : V → Truth
  ofTruth : Truth → V
  truth_ofTruth : ∀ t, truth (ofTruth t) = t
  or : ∀ l r, of (logical .or l r) = ofTruth (.or (truth (of l)) (truth (of r)))
  values : ∀ p items, of (inList (property p) items false none) =
    ofTruth (.any (items.map fun x => truth (of (comparison .eq (property p) x))))
  parts : ∀ (f : Expr → Expr) e, (∀ d ∈ e.children, of (f d) = of d) → of (e.mapChildren f) = of e

namespace Meaning
variable {V : Type} (M : Meaning V)

/-- The truth of an expression as a criterion. -/
def holds (e : Expr) : Truth :=
  M.truth (M.of e)

theorem holds_or (l r : Expr) : M.holds (logical .or l r) = .or (M.holds l) (M.holds r) := by
  rw [holds, M.or, M.truth_ofTruth, holds, holds]

theorem holds_flatten (e : Expr) : M.holds e = .any ((e.flatten .or).map M.holds) := by
  induction e using flatten.induct .or with
  | case1 l r ihl ihr => rw [holds_or, ihl, ihr, flatten, if_pos rfl, List.map_append, Truth.any_append]
  | case2 inner l r hne => simp [flatten, hne]
  | case3 e hne => simp [flatten_of_ne (hne .or)]

/-- The equalities that a list stands for. -/
def equalities : Expr → List Expr
  | inList (property p) items false none => items.map (comparison .eq (property p))
  | e => [e]

theorem holds_equalities (e : Expr) : M.holds e = .any ((equalities e).map M.holds) := by
  unfold equalities
  split
  next p items =>
    rw [holds, M.values, M.truth_ofTruth, List.map_map]
    rfl
  next => simp

/-- Collecting keeps the equalities, in some order. -/
theorem mem_equalities_groupTerms (terms : List Expr) :
    x ∈ (groupTerms terms [] terms).flatMap equalities ↔ x ∈ terms.flatMap equalities := by
  simp only [List.mem_flatMap]
  constructor
  · rintro ⟨t, ht, hx⟩
    rcases mem_groupTerms ht with ht | ⟨p, value, -, -, rfl⟩
    · exact ⟨t, ht, hx⟩
    · obtain ⟨value, hvalue, rfl⟩ := List.mem_map.mp hx
      exact ⟨_, mem_valuesOf hvalue, List.mem_singleton_self _⟩
  · rintro ⟨t, ht, hx⟩
    by_cases hfew : ∀ p value, t.equality? = some (p, value) → (valuesOf p terms).length ≤ 1
    · exact ⟨t, mem_groupTerms_iff.mpr (.inl ⟨ht, hfew⟩), hx⟩
    · simp only [not_forall, not_le] at hfew
      obtain ⟨p, value, hequality, hmany⟩ := hfew
      have hlist := mem_groupTerms_iff.mpr (.inr ⟨t, ht, p, value, hequality, hmany, List.not_mem_nil, rfl⟩)
      refine ⟨_, hlist, ?_⟩
      obtain ⟨rfl, hliteral⟩ := eq_of_equality? hequality
      rw [List.mem_singleton.mp hx]
      exact List.mem_map_of_mem (mem_valuesOf_iff.mpr ⟨ht, hliteral⟩)

theorem any_groupTerms (terms : List Expr) :
    Truth.any ((groupTerms terms [] terms).map M.holds) = .any (terms.map M.holds) := by
  have hflat : ∀ ts : List Expr, Truth.any (ts.map M.holds) = .any ((ts.flatMap equalities).map M.holds) := by
    intro ts
    rw [List.map_flatMap, Truth.any_flatMap]
    exact congrArg Truth.any (List.map_congr_left fun t _ => M.holds_equalities t)
  rw [hflat, hflat terms]
  refine Truth.any_congr fun t => ?_
  simp only [List.mem_map, mem_equalities_groupTerms]

theorem holds_collected (h : ∀ a ∈ e.flatten .or, M.of a.collapseIn = M.of a) :
    Truth.any (e.collected.map M.holds) = M.holds e := by
  rw [collected, any_groupTerms, orTerms_eq_map, List.map_map, holds_flatten]
  exact congrArg Truth.any (List.map_congr_left fun a ha => congrArg M.truth (h a ha))

/-- Of a chain, and of a list, the meaning is the truth. -/
theorem of_or_eq (l r : Expr) : M.of (logical .or l r) = M.ofTruth (M.holds (logical .or l r)) := by
  rw [holds_or]
  exact M.or l r

/-- Collecting equalities keeps the meaning of every expression. -/
theorem of_collapseIn (e : Expr) : M.of e.collapseIn = M.of e := by
  induction e using induction_alternatives with
  | h e ih =>
    have halternatives : ∀ a ∈ e.flatten .or, M.of a.collapseIn = M.of a := by
      intro a ha
      rw [collapseIn_of_ne (ne_logical_of_mem_flatten ha)]
      exact M.parts collapseIn a (ih a ha)
    by_cases hor : ∃ l r, e = logical .or l r
    · obtain ⟨l, r, rfl⟩ := hor
      have hholds : M.holds (logical .or l r).collapseIn = M.holds (logical .or l r) := by
        rw [holds_flatten, flatten_collapseIn, M.holds_collected halternatives]
      rw [of_or_eq, ← hholds]
      rcases collapseIn_or l r with ⟨m, s, heq⟩ | ⟨p, items, heq⟩
      · rw [heq, of_or_eq]
      · rw [heq, holds, M.values, M.truth_ofTruth]
    · exact halternatives e (by rw [flatten_of_ne fun l r heq => hor ⟨l, r, heq⟩]; exact List.mem_singleton_self e)

end Meaning

section
variable {I : Interpretation} {v : Valuation}

theorem optionEval_map {f : Expr → Expr} {e : Option Expr} (h : ∀ d ∈ e.toList, (f d).eval I v = d.eval I v) :
    optionEval I v (e.map f) = optionEval I v e := by
  cases e with
  | none => rfl
  | some d => exact h d (List.mem_singleton_self d)

theorem listEval_map {f : Expr → Expr} {es : List Expr} (h : ∀ d ∈ es, (f d).eval I v = d.eval I v) :
    listEval I v (es.map f) = listEval I v es := by
  rw [listEval_eq_map, listEval_eq_map, List.map_map]
  exact List.map_congr_left h

/-- The value of an expression depends on the values of its direct parts, and on their truth as criteria. -/
theorem eval_mapChildren {f : Expr → Expr} (heval : ∀ d ∈ e.children, (f d).eval I v = d.eval I v)
    (htruth : ∀ d ∈ e.children, (f d).truth I v = d.truth I v) : (e.mapChildren f).eval I v = e.eval I v := by
  cases e with
  | parameter name default raw => rw [mapChildren, eval, eval, optionEval_map heval]
  | list items => exact congrArg Value.list (listEval_map heval)
  | call function args => exact congrArg (I.apply function) (listEval_map heval)
  | inList l items negated table =>
    rw [children, List.forall_mem_cons] at heval
    rw [mapChildren, eval, eval, heval.1, listEval_map heval.2]
  | not d =>
    simp only [mapChildren, eval, operandTruth_eval, htruth d (List.mem_singleton_self d)]
  | logical op l r =>
    simp only [children, List.forall_mem_cons, List.not_mem_nil, false_imp_iff, implies_true, and_true] at htruth
    simp only [mapChildren, eval, operandTruth_eval, htruth]
  | literal | object | property | allProperties | pattern => rfl
  | comparison | like | between | is | arithmetic | negate =>
    simp only [children, List.forall_mem_cons, List.not_mem_nil, false_imp_iff, implies_true, and_true] at heval
    simp only [mapChildren, eval, heval]

theorem truth_mapChildren {f : Expr → Expr} (h : (e.mapChildren f).eval I v = e.eval I v) :
    (e.mapChildren f).truth I v = e.truth I v := by
  cases e with
  | property => rfl
  | _ => exact congrArg Value.truth h

end

/-- The meaning under a valuation: a value, and the truth as a criterion. -/
noncomputable def Meaning.ofValuation (I : Interpretation) (v : Valuation) : Meaning (Value × Truth) where
  of e := (e.eval I v, e.truth I v)
  truth := Prod.snd
  ofTruth t := (.ofTruth t, t)
  truth_ofTruth _ := rfl
  or l r := by
    rw [truth_logical, eval, operandTruth_eval, operandTruth_eval]
    rfl
  values p items := by
    have hvalues : Value.isIn (v.property p) (listEval I v items) =
        .any (items.map fun x => (comparison .eq (property p) x).truth I v) := by
      rw [listEval_eq_map]
      exact isIn_eval (property p) items
    rw [Prod.mk.injEq]
    exact ⟨congrArg Value.ofTruth hvalues, (Value.truth_ofTruth _).trans hvalues⟩
  parts f e h := by
    simp only [Prod.mk.injEq] at h ⊢
    have heval := eval_mapChildren (fun d hd => (h d hd).1) fun d hd => (h d hd).2
    exact ⟨heval, truth_mapChildren heval⟩

/-! ### Nodes -/

/-- A whole chain of alternatives in an expression: the expression, or a part of an alternative. What is no chain is one
    of a single alternative. -/
inductive Whole (c : Expr) : Expr → Prop
  | self : Whole c c
  | part {a d e : Expr} (ha : a ∈ e.flatten .or) (hd : d ∈ a.children) (h : Whole c d) : Whole c e

theorem Within.trans (hcd : c.Within d) (hde : d.Within e) : c.Within e := by
  induction hde with
  | self => exact hcd
  | part hc _ ih => exact .part hc ih

theorem within_of_mem_flatten {op : LogicalOp} (h : a ∈ e.flatten op) : a.Within e := by
  fun_induction flatten op e with
  | case1 l r ihl ihr =>
    rcases List.mem_append.mp h with h | h
    · exact .part (by simp [children]) (ihl h)
    · exact .part (by simp [children]) (ihr h)
  | case2 | case3 =>
    rw [List.mem_singleton.mp h]
    exact .self

theorem Whole.within (h : Whole c e) : c.Within e := by
  induction h with
  | self => exact .self
  | part ha hd _ ih => exact (ih.trans (.part hd .self)).trans (within_of_mem_flatten ha)

/-- A node of a chain is a part of the chain, or lies below one of its alternatives. -/
theorem within_foldl_or {first : Expr} {more : List Expr} (hall : ∀ x ∈ first :: more, x.flatten .or = [x])
    (h : d.Within (more.foldl (logical .or) first)) :
    (d.flatten .or).Sublist (first :: more) ∨ ∃ x ∈ first :: more, ∃ y ∈ x.children, d.Within y := by
  induction more using List.reverseRecOn with
  | nil =>
    cases h with
    | self =>
      rw [List.foldl_nil, hall first List.mem_cons_self]
      exact .inl (List.Sublist.refl _)
    | part hy hd => exact .inr ⟨first, List.mem_cons_self, _, hy, hd⟩
  | append_singleton more last ih =>
    have hchain : ((more ++ [last]).foldl (logical .or) first).flatten .or = first :: (more ++ [last]) :=
      flatten_joinAll hall rfl
    rw [← List.cons_append] at hall hchain ⊢
    rw [List.foldl_concat] at h hchain
    cases h with
    | self =>
      rw [hchain]
      exact .inl (List.Sublist.refl _)
    | part hy hd =>
      simp only [children, List.mem_cons, List.not_mem_nil, or_false] at hy
      rcases hy with rfl | hy
      · rcases ih (fun x hx => hall x (List.mem_append_left _ hx)) hd with hsub | ⟨x, hx, hbelow⟩
        · exact .inl (hsub.trans (List.sublist_append_left _ _))
        · exact .inr ⟨x, List.mem_append_left _ hx, hbelow⟩
      · have hlast := List.mem_append_right (first :: more) (List.mem_singleton_self last)
        subst hy
        cases hd with
        | self =>
          rw [hall _ hlast]
          exact .inl (List.sublist_append_right _ _)
        | part hy hd => exact .inr ⟨_, hlast, _, hy, hd⟩

/-- A node of a collected expression is a leaf, or part of a whole chain with its equalities collected. -/
theorem within_collapseIn (h : d.Within e.collapseIn) :
    d.children = [] ∨ ∃ c, Whole c e ∧ (d.flatten .or).Sublist c.collected := by
  induction e using induction_alternatives with
  | h e ih =>
    obtain ⟨first, more, hcons⟩ := List.exists_cons_of_ne_nil (collected_ne_nil e)
    have hjoin := joinAll_collected e
    rw [hcons] at hjoin
    rw [← Option.some.inj hjoin] at h
    rcases within_foldl_or (fun x hx => flatten_of_mem_collected (hcons ▸ hx)) h with hsub | ⟨x, hx, y, hy, hd⟩
    · exact .inr ⟨e, .self, hcons ▸ hsub⟩
    · rcases mem_collected (hcons ▸ hx) with ⟨a, ha, rfl⟩ | ⟨p, rfl, -⟩
      · rw [children_collapseIn (ne_logical_of_mem_flatten ha)] at hy
        obtain ⟨part, hpart, rfl⟩ := List.mem_map.mp hy
        rcases ih a ha part hpart hd with hleaf | ⟨c, hc, hsub⟩
        · exact .inl hleaf
        · exact .inr ⟨c, .part ha hpart hc, hsub⟩
      · -- The property of a list and its values have no parts.
        have hleaf : y.children = [] := by
          rcases List.mem_cons.mp hy with rfl | hy
          · rfl
          · exact children_of_isLiteral (mem_valuesOf_iff.mp hy).2
        cases hd with
        | self => exact .inl hleaf
        | part hpart => rw [hleaf] at hpart; cases hpart

/-- No part of a collected expression compares a property with two values. -/
theorem everywhere_collapseIn (e : Expr) :
    e.collapseIn.Everywhere fun c => ∀ p, (valuesOf p (c.flatten .or)).length ≤ 1 := by
  intro d hd p
  rcases within_collapseIn hd with hleaf | ⟨c, -, hsub⟩
  · have hflat : d.flatten .or = [d] := flatten_of_ne fun l r heq => by rw [heq] at hleaf; cases hleaf
    rw [hflat]
    exact List.length_filterMap_le _ _
  · exact (hsub.filterMap _).length_le.trans (length_valuesOf_collected p c)

/-- A value list stood there before, or has the values of the equalities of a whole chain in their order. -/
theorem inList_within_collapseIn {l : Expr} {items : List Expr} {negated : Bool} {table : Option TableId}
    (h : (inList l items negated table).Within e.collapseIn) :
    (∃ l' items', (inList l' items' negated table).Within e ∧ l = l'.collapseIn ∧ items = items'.map collapseIn) ∨
      ∃ c p, Whole c e ∧ 1 < (valuesOf p (c.flatten .or)).length ∧
        inList l items negated table = inList (property p) (valuesOf p (c.flatten .or)) false none := by
  rcases within_collapseIn h with hleaf | ⟨c, hc, hsub⟩
  · cases hleaf
  · have hflat : (inList l items negated table).flatten .or = [inList l items negated table] := rfl
    rw [hflat, List.singleton_sublist] at hsub
    rcases mem_collected hsub with ⟨a, ha, heq⟩ | ⟨p, heq, hmany⟩
    · rw [collapseIn_of_ne (ne_logical_of_mem_flatten ha)] at heq
      cases a with
      | inList l' items' negated' table' =>
        simp only [mapChildren, inList.injEq] at heq
        obtain ⟨rfl, rfl, rfl, rfl⟩ := heq
        exact .inl ⟨l', items', (within_of_mem_flatten ha).trans hc.within, rfl, rfl⟩
      | _ => cases heq
    · exact .inr ⟨c, p, hc, hmany, heq⟩

/-! ### Collecting again -/

/-- Collected alternatives have nothing left to collect. -/
theorem collapseIn_of_mem_collected (h : ∀ a ∈ e.flatten .or, ∀ d ∈ a.children, d.collapseIn.collapseIn = d.collapseIn)
    (ht : t ∈ e.collected) : t.collapseIn = t := by
  rw [collapseIn_of_ne fun l r heq => ne_logical_of_mem_flatten
    (by rw [flatten_of_mem_collected ht]; exact List.mem_singleton_self t) l r heq]
  refine mapChildren_eq_self fun d hd => ?_
  rcases mem_collected ht with ⟨a, ha, rfl⟩ | ⟨p, rfl, -⟩
  · rw [children_collapseIn (ne_logical_of_mem_flatten ha)] at hd
    obtain ⟨part, hpart, rfl⟩ := List.mem_map.mp hd
    exact h a ha part hpart
  · rcases List.mem_cons.mp hd with rfl | hd
    · exact collapseIn_of_leaf rfl
    · exact collapseIn_of_leaf (children_of_isLiteral (mem_valuesOf_iff.mp hd).2)

theorem collapseIn_collapseIn (e : Expr) : e.collapseIn.collapseIn = e.collapseIn := by
  induction e using induction_alternatives with
  | h e ih =>
    have hterms : e.collapseIn.orTerms = e.collected := by
      rw [orTerms_eq_map, flatten_collapseIn]
      exact (List.map_congr_left fun t ht => collapseIn_of_mem_collected ih ht).trans (List.map_id _)
    have hagain : e.collapseIn.collected = e.collected := by
      rw [collected, hterms]
      exact groupTerms_eq_self (fun p => length_valuesOf_collected p e) [] _
    have hjoin := joinAll_collected e.collapseIn
    rw [hagain, joinAll_collected] at hjoin
    exact (Option.some.inj hjoin).symm

/-! ### Equalities -/

/-- An equality of the property, at its left, with a literal. -/
def isEqualityOf (p : PropertyRef) : Expr → Bool
  | comparison .eq (property q) value => q == p && value.isLiteral
  | _ => false

/-- An equality of the property, at either side, with a literal. -/
def equates (p : PropertyRef) : Expr → Bool
  | comparison .eq l r => isEqualityOf p (comparison .eq l r) || isEqualityOf p (comparison .eq r l)
  | _ => false

theorem isEqualityOf_iff : t.isEqualityOf p = true ↔ ∃ value, t.equality? = some (p, value) := by
  simp only [equality?_eq_some]
  constructor
  · intro h
    unfold isEqualityOf at h
    split at h
    next q value =>
      rw [Bool.and_eq_true, beq_iff_eq] at h
      exact ⟨value, by rw [h.1], h.2⟩
    next => cases h
  · rintro ⟨value, rfl, hliteral⟩
    simp [isEqualityOf, hliteral]

/-- The values of a property are those of its equalities, in their order. -/
theorem map_valuesOf (p : PropertyRef) (terms : List Expr) :
    (valuesOf p terms).map (comparison .eq (property p)) = terms.filter (isEqualityOf p) := by
  induction terms with
  | nil => rfl
  | cons t terms ih =>
    rw [valuesOf_cons, List.map_append, ih]
    by_cases h : t.isEqualityOf p = true
    · obtain ⟨value, hvalue⟩ := isEqualityOf_iff.mp h
      obtain ⟨rfl, -⟩ := eq_of_equality? hvalue
      rw [List.filter_cons_of_pos h, hvalue]
      simp
    · have hnone : (t.equality?.bind fun e => if e.1 = p then some e.2 else none) = none := by
        rw [Option.bind_eq_none_iff]
        rintro ⟨q, value⟩ hvalue
        refine if_neg ?_
        rintro rfl
        exact h (isEqualityOf_iff.mpr ⟨value, hvalue⟩)
      rw [List.filter_cons_of_neg h, hnone]
      rfl

theorem length_valuesOf (p : PropertyRef) (terms : List Expr) :
    (valuesOf p terms).length = terms.countP (isEqualityOf p) := by
  rw [List.countP_eq_length_filter, ← map_valuesOf, List.length_map]

/-- Collecting the equalities of an expression keeps its value and its truth, whatever values, texts and numbers mean; no
    chain is left with two equalities of a property, at their left, with literals, each new list has the values of the
    equalities of one whole chain in their order, and collecting again changes nothing. -/
theorem collapseIn_canonical (e : Expr) :
    (∀ I v, e.collapseIn.eval I v = e.eval I v ∧ e.collapseIn.truth I v = e.truth I v) ∧
      (∀ {V : Type} (M : Meaning V), M.of e.collapseIn = M.of e) ∧
      (e.collapseIn.Everywhere fun c => ∀ p, (c.flatten .or).countP (isEqualityOf p) ≤ 1) ∧
      (∀ l items negated table, (inList l items negated table).Within e.collapseIn →
        (∃ l' items', (inList l' items' negated table).Within e ∧ l = l'.collapseIn ∧ items = items'.map collapseIn) ∨
          ∃ c p, Whole c e ∧ inList l items negated table = inList (property p) items false none ∧ 1 < items.length ∧
            items.map (comparison .eq (property p)) = (c.flatten .or).filter (isEqualityOf p)) ∧
      e.collapseIn.collapseIn = e.collapseIn := by
  refine ⟨fun I v => ?_, fun M => M.of_collapseIn e, fun d hd p => ?_, fun l items negated table hlist => ?_,
    collapseIn_collapseIn e⟩
  · exact Prod.mk.inj ((Meaning.ofValuation I v).of_collapseIn e)
  · rw [← length_valuesOf]
    exact everywhere_collapseIn e d hd p
  · rcases inList_within_collapseIn hlist with hold | ⟨c, p, hc, hmany, heq⟩
    · exact .inl hold
    · cases heq
      exact .inr ⟨c, p, hc, rfl, hmany, map_valuesOf p _⟩

/-- An equality with the literal at its left is not collected. -/
theorem collapseIn_literalFirst : let a : PropertyRef := ⟨⟨0, 0⟩, "a"⟩
    ∀ e ∈ [or (comparison .eq (int 1) (property a)) (comparison .eq (int 2) (property a)),
        or (comparison .eq (property a) (int 1)) (comparison .eq (int 2) (property a))],
      e.collapseIn = e ∧ (e.collapseIn.flatten .or).countP (equates a) = 2 := by
  simp only [List.forall_mem_cons, List.not_mem_nil, false_implies, implies_true, and_true]
  exact ⟨⟨rfl, by decide⟩, rfl, by decide⟩

/-- Alternatives of several properties, nested on both sides. -/
example : let p := prop ⟨0, 0⟩ "state"; let q := prop ⟨0, 0⟩ "cost"
    (or (or (comparison .eq p (int 1)) (comparison .eq q (int 2)))
      (or (comparison .gt q (int 5)) (or (comparison .eq p (int 3)) (comparison .eq p (int 1))))).collapseIn =
      or (or (inList p [int 1, int 3, int 1] false none) (comparison .eq q (int 2))) (comparison .gt q (int 5)) := by
  rfl

end ItemQuery.Expr
