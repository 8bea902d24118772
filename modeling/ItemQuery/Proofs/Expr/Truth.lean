import ItemQuery.Proofs.Expr.Value

/-! Truth of criteria. In three values as in two, the order of a conjunction does not matter, nor how often a
    criterion stands in it; a chain of one connective has the truth of its operands, however it is grouped. -/

namespace ItemQuery

/-! ### Truth values -/

namespace Truth

variable {ts us : List Truth}

@[simp] theorem true_and (t : Truth) : and (some true) t = t := by
  rcases t with _ | _ | _ <;> rfl

@[simp] theorem and_true (t : Truth) : and t (some true) = t := by
  rcases t with _ | _ | _ <;> rfl

@[simp] theorem false_or (t : Truth) : or (some false) t = t := by
  rcases t with _ | _ | _ <;> rfl

@[simp] theorem or_false (t : Truth) : or t (some false) = t := by
  rcases t with _ | _ | _ <;> rfl

theorem and_some (a b : Bool) : and (some a) (some b) = some (a && b) := by
  cases a <;> cases b <;> rfl

theorem or_some (a b : Bool) : or (some a) (some b) = some (a || b) := by
  cases a <;> cases b <;> rfl

theorem connect_assoc (op : LogicalOp) (s t u : Truth) :
    connect op (connect op s t) u = connect op s (connect op t u) := by
  cases op <;> rcases s with _ | _ | _ <;> rcases t with _ | _ | _ <;> rcases u with _ | _ | _ <;> rfl

theorem and_comm (s t : Truth) : and s t = and t s := by
  rcases s with _ | _ | _ <;> rcases t with _ | _ | _ <;> rfl

theorem and_and_and_comm (s t u v : Truth) : and (and s t) (and u v) = and (and s u) (and t v) := by
  rcases s with _ | _ | _ <;> rcases t with _ | _ | _ <;> rcases u with _ | _ | _ <;> rcases v with _ | _ | _ <;> rfl

theorem and_assoc (s t u : Truth) : and (and s t) u = and s (and t u) :=
  connect_assoc .and s t u

/-- All of several; true of none. -/
def all (ts : List Truth) : Truth :=
  ts.foldr and (some true)

/-- One of several; false of none. -/
def any (ts : List Truth) : Truth :=
  ts.foldr or (some false)

/-- The truth of a chain with these operands. -/
def chain : LogicalOp → List Truth → Truth
  | .and => all
  | .or => any

@[simp] theorem all_nil : all [] = some true :=
  rfl

@[simp] theorem all_cons (t : Truth) (ts : List Truth) : all (t :: ts) = and t (all ts) :=
  rfl

@[simp] theorem any_nil : any [] = some false :=
  rfl

@[simp] theorem any_cons (t : Truth) (ts : List Truth) : any (t :: ts) = or t (any ts) :=
  rfl

theorem all_append : all (ts ++ us) = and (all ts) (all us) := by
  induction ts with
  | nil => simp
  | cons t ts ih => simp [ih, and_assoc]

theorem any_append : any (ts ++ us) = or (any ts) (any us) := by
  induction ts with
  | nil => simp
  | cons t ts ih =>
    rw [List.cons_append, any_cons, any_cons, ih]
    exact (connect_assoc .or t (any ts) (any us)).symm

theorem all_eq_false : all ts = some false ↔ some false ∈ ts := by
  induction ts with
  | nil => simp
  | cons t ts ih =>
    rw [all_cons, List.mem_cons, ← ih]
    rcases t with _ | _ | _ <;> rcases all ts with _ | _ | _ <;> simp [and]

theorem all_eq_true : all ts = some true ↔ ∀ t ∈ ts, t = some true := by
  induction ts with
  | nil => simp
  | cons t ts ih =>
    rw [all_cons, List.forall_mem_cons, ← ih]
    rcases t with _ | _ | _ <;> rcases all ts with _ | _ | _ <;> simp [and]

/-- A conjunction depends only on which criteria that are not true stand in it. -/
theorem all_congr (h : ∀ t ≠ some true, t ∈ ts ↔ t ∈ us) : all ts = all us := by
  have hfalse : all ts = some false ↔ all us = some false := by
    rw [all_eq_false, all_eq_false, h _ (by decide)]
  have htrue : ∀ {ts us : List Truth}, (∀ t ≠ some true, t ∈ ts ↔ t ∈ us) → all ts = some true → all us = some true := by
    simp only [all_eq_true]
    intro ts us h hts t ht
    exact Decidable.byContradiction fun hne => hne (hts t ((h t hne).mpr ht))
  have hiff : all ts = some true ↔ all us = some true := ⟨htrue h, htrue fun t hne => (h t hne).symm⟩
  rcases ht : all ts with _ | _ | _ <;> rcases hu : all us with _ | _ | _ <;> simp_all

theorem any_map_some {α : Type} (f : α → Bool) (xs : List α) : any (xs.map fun x => some (f x)) = some (xs.any f) := by
  induction xs with
  | nil => rfl
  | cons x xs ih => rw [List.map_cons, any_cons, ih, or_some, List.any_cons]

theorem any_eq_not_all (ts : List Truth) : any ts = (all (ts.map not)).not := by
  induction ts with
  | nil => rfl
  | cons t ts ih =>
    rw [any_cons, ih, List.map_cons, all_cons]
    rcases t with _ | _ | _ <;> rcases all (ts.map not) with _ | _ | _ <;> rfl

/-- A disjunction depends only on which criteria stand in it. -/
theorem any_congr (h : ∀ t, t ∈ ts ↔ t ∈ us) : any ts = any us := by
  rw [any_eq_not_all, any_eq_not_all]
  refine congrArg not (all_congr fun t _ => ?_)
  simp only [List.mem_map, h]

theorem any_flatMap {α : Type} (f : α → List Truth) (xs : List α) :
    any (xs.flatMap f) = any (xs.map fun x => any (f x)) := by
  induction xs with
  | nil => rfl
  | cons x xs ih => rw [List.flatMap_cons, any_append, ih, List.map_cons, any_cons]

end Truth

/-! ### Criteria -/

namespace Expr

variable {I : Interpretation} {v : Valuation}

/-- The truth of a criterion; a property alone asks whether it is true. -/
noncomputable def truth (I : Interpretation) (v : Valuation) (e : Expr) : Truth :=
  (e.criterionValue I v).truth

/-- The truth of a filter; one that is absent is true. -/
noncomputable def filterTruth (I : Interpretation) (v : Valuation) (e : Option Expr) : Truth :=
  e.elim (some true) (truth I v)

theorem operandTruth_eval (e : Expr) : operandTruth e (e.eval I v) = e.truth I v := by
  cases e with
  | property p => exact (Value.truth_ofTruth _).symm
  | _ => rfl

@[simp] theorem truth_not (e : Expr) : (not e).truth I v = (e.truth I v).not := by
  rw [← operandTruth_eval e]
  exact Value.truth_ofTruth _

@[simp] theorem truth_logical (op : LogicalOp) (l r : Expr) :
    (logical op l r).truth I v = .connect op (l.truth I v) (r.truth I v) := by
  rw [← operandTruth_eval l, ← operandTruth_eval r]
  exact Value.truth_ofTruth _

@[simp] theorem truth_bool (b : Bool) : (literal (.bool b)).truth I v = some b :=
  rfl

theorem truth_comparison (op : ComparisonOp) (l r : Expr) :
    (comparison op l r).truth I v = Value.compare op (l.eval I v) (r.eval I v) :=
  Value.truth_ofTruth _

theorem truth_like (l p : Expr) (negated : Bool) :
    (like l p negated).truth I v = .negated negated (I.matching (l.eval I v) (p.eval I v)) :=
  Value.truth_ofTruth _

theorem truth_between (l low high : Expr) (negated : Bool) (table : Option TableId) :
    (between l low high negated table).truth I v
      = .negated negated (Value.between (l.eval I v) (low.eval I v) (high.eval I v)) :=
  Value.truth_ofTruth _

theorem listEval_eq_map (es : List Expr) : listEval I v es = es.map (eval I v) := by
  induction es with
  | nil => rfl
  | cons e es ih => rw [listEval, ih, List.map_cons]

theorem truth_inList (l : Expr) (items : List Expr) (negated : Bool) (table : Option TableId) :
    (inList l items negated table).truth I v
      = .negated negated (Value.isIn (l.eval I v) (items.map (eval I v))) := by
  rw [← listEval_eq_map]
  exact Value.truth_ofTruth _

theorem isIn_eq_any (value : Value) (items : List Value) :
    Value.isIn value items = .any (items.map (Value.compare .eq value)) := by
  induction items with
  | nil => rfl
  | cons item items ih => rw [Value.isIn, ih, List.map_cons, Truth.any_cons]

/-- A list of values is an equality with each of them. -/
theorem isIn_eval (l : Expr) (items : List Expr) :
    Value.isIn (l.eval I v) (items.map (eval I v)) = .any (items.map fun x => (comparison .eq l x).truth I v) := by
  rw [isIn_eq_any, List.map_map]
  exact congrArg Truth.any (List.map_congr_left fun x _ => (truth_comparison .eq l x).symm)

end Expr

/-! ### Values that are compared alike -/

namespace Value

variable {x y low low' high high' : Value}

/-- Both are compared alike with every value. -/
def Alike (x y : Value) : Prop :=
  ∀ a, order? a x = order? a y

theorem Alike.refl (x : Value) : Alike x x :=
  fun _ => rfl

theorem Alike.compare (h : Alike x y) (op : ComparisonOp) (a : Value) : compare op a x = compare op a y := by
  rw [Value.compare, Value.compare, h a]

theorem between_of_alike (hlow : Alike low low') (hhigh : Alike high high') (a : Value) :
    between a low high = between a low' high' := by
  rw [between, between, hlow.compare, hhigh.compare]

theorem isIn_of_alike {xs ys : List Value} (h : List.Forall₂ Alike xs ys) (a : Value) : isIn a xs = isIn a ys := by
  induction h with
  | nil => rfl
  | cons hfirst _ ih => rw [isIn, isIn, hfirst.compare, ih]

end Value

namespace Expr

variable {I : Interpretation} {v : Valuation}

/-! ### Chains -/

theorem truth_foldl (op : LogicalOp) (e : Expr) (es : List Expr) :
    (es.foldl (logical op) e).truth I v = .connect op (e.truth I v) (Truth.chain op (es.map (truth I v))) := by
  induction es generalizing e with
  | nil => cases op <;> simp [Truth.chain, Truth.connect]
  | cons x es ih =>
    rw [List.foldl_cons, ih, truth_logical, Truth.connect_assoc]
    cases op <;> rfl

theorem truth_of_joinAll {op : LogicalOp} {es : List Expr} {e : Expr} (h : joinAll op es = some e) :
    e.truth I v = Truth.chain op (es.map (truth I v)) := by
  cases es with
  | nil => cases h
  | cons x es =>
    cases h
    rw [truth_foldl]
    cases op <;> rfl

theorem filterTruth_allOf (es : List Expr) : filterTruth I v (allOf es) = .all (es.map (truth I v)) := by
  cases h : allOf es with
  | none =>
    cases es with
    | nil => rfl
    | cons x es => cases h
  | some e => exact truth_of_joinAll h

theorem truth_flatten (op : LogicalOp) (e : Expr) : Truth.chain op ((e.flatten op).map (truth I v)) = e.truth I v := by
  fun_induction flatten op e with
  | case1 l r ihl ihr =>
    rw [List.map_append, truth_logical, ← ihl, ← ihr]
    cases op
    · exact Truth.all_append
    · exact Truth.any_append
  | case2 inner l r => cases op <;> simp [Truth.chain]
  | case3 e => cases op <;> simp [Truth.chain]

/-! ### Truths -/

/-- Nothing is to be written for the criterion: it is a truth, or made of such. -/
def isMute : Expr → Bool
  | .literal (.bool b) => b
  | .logical _ l r => l.isMute && r.isMute
  | _ => false

theorem truth_of_isMute {e : Expr} (h : e.isMute = true) : e.truth I v = some true := by
  fun_induction isMute e with
  | case1 b => rw [h, truth_bool]
  | case2 op l r ihl ihr =>
    rw [Bool.and_eq_true] at h
    rw [truth_logical, ihl h.1, ihr h.2]
    cases op <;> rfl
  | case3 => cases h

theorem isMute_iff_flatten (op : LogicalOp) (e : Expr) : e.isMute = true ↔ ∀ x ∈ e.flatten op, x.isMute = true := by
  fun_induction flatten op e with
  | case1 l r ihl ihr => rw [isMute, Bool.and_eq_true, ihl, ihr, List.forall_mem_append]
  | case2 inner l r => simp
  | case3 e => simp

end Expr
end ItemQuery
