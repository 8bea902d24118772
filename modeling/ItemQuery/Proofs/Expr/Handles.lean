import ItemQuery.Proofs.Expr.Grouping
import ItemQuery.Proofs.Expr.Tables
import ItemQuery.Proofs.Normalize.Rules
import ItemQuery.Proofs.Result

/-! The table handles inside of an expression: those of its properties, of the properties that untyped values belong to,
    of its stars, and those that normalization has recorded. Simplifying a node brings in no other handle. -/

namespace ItemQuery.Expr

variable {P Q : TableId → Prop}

mutual

/-- All handles inside of the expression satisfy `P`. -/
@[simp] def Confined (P : TableId → Prop) : Expr → Prop
  | property p => P p.table
  | allProperties table _ => P table
  | object o => ∀ p, o.property = some p → P p.table
  | parameter _ default _ => OptionConfined P default
  | list items => ListConfined P items
  | comparison _ l r | arithmetic _ l r | logical _ l r => l.Confined P ∧ r.Confined P
  | like l p _ => l.Confined P ∧ p.Confined P
  | between l low high _ table => l.Confined P ∧ low.Confined P ∧ high.Confined P ∧ ∀ t, table = some t → P t
  | inList l items _ table => l.Confined P ∧ ListConfined P items ∧ ∀ t, table = some t → P t
  | is l _ => l.Confined P
  | negate e | not e => e.Confined P
  | call _ args => ListConfined P args
  | literal _ | pattern _ => True

/-- All handles inside of an optional expression satisfy `P`. -/
@[simp] def OptionConfined (P : TableId → Prop) : Option Expr → Prop
  | none => True
  | some e => e.Confined P

/-- All handles inside of expressions satisfy `P`. -/
@[simp] def ListConfined (P : TableId → Prop) : List Expr → Prop
  | [] => True
  | e :: es => e.Confined P ∧ ListConfined P es

end

theorem listConfined_iff {es : List Expr} : ListConfined P es ↔ ∀ e ∈ es, e.Confined P := by
  induction es with
  | nil => simp
  | cons e es ih => simp [ih]

mutual

theorem Confined.mono (hPQ : ∀ t, P t → Q t) (e : Expr) (h : e.Confined P) : e.Confined Q := by
  cases e with
  | property p => exact hPQ _ h
  | allProperties table extended => exact hPQ _ h
  | object o => exact fun p hp => hPQ _ (h p hp)
  | parameter name default raw => exact OptionConfined.mono hPQ default h
  | list items => exact ListConfined.mono hPQ items h
  | comparison op l r => exact ⟨Confined.mono hPQ l h.1, Confined.mono hPQ r h.2⟩
  | arithmetic op l r => exact ⟨Confined.mono hPQ l h.1, Confined.mono hPQ r h.2⟩
  | logical op l r => exact ⟨Confined.mono hPQ l h.1, Confined.mono hPQ r h.2⟩
  | like l p negated => exact ⟨Confined.mono hPQ l h.1, Confined.mono hPQ p h.2⟩
  | between l low high negated table =>
    exact ⟨Confined.mono hPQ l h.1, Confined.mono hPQ low h.2.1, Confined.mono hPQ high h.2.2.1,
      fun t ht => hPQ t (h.2.2.2 t ht)⟩
  | inList l items negated table =>
    exact ⟨Confined.mono hPQ l h.1, ListConfined.mono hPQ items h.2.1, fun t ht => hPQ t (h.2.2 t ht)⟩
  | is l operand => exact Confined.mono hPQ l h
  | negate e => exact Confined.mono hPQ e h
  | not e => exact Confined.mono hPQ e h
  | call f args => exact ListConfined.mono hPQ args h
  | literal value => trivial
  | pattern value => trivial

theorem OptionConfined.mono (hPQ : ∀ t, P t → Q t) (e : Option Expr) (h : OptionConfined P e) : OptionConfined Q e := by
  cases e with
  | none => trivial
  | some e => exact Confined.mono hPQ e h

theorem ListConfined.mono (hPQ : ∀ t, P t → Q t) (es : List Expr) (h : ListConfined P es) : ListConfined Q es := by
  cases es with
  | nil => trivial
  | cons e es => exact ⟨Confined.mono hPQ e h.1, ListConfined.mono hPQ es h.2⟩

end

mutual

theorem Confined.tableRefs (e : Expr) (h : e.Confined P) : ∀ t ∈ e.tableRefs, P t := by
  cases e with
  | property p => simpa [Expr.tableRefs] using h
  | allProperties table extended => simpa [Expr.tableRefs] using h
  | object o => simp [Expr.tableRefs]
  | parameter name default raw => exact OptionConfined.tableRefs default h
  | list items => exact ListConfined.tableRefs items h
  | comparison op l r => exact List.forall_mem_append.mpr ⟨Confined.tableRefs l h.1, Confined.tableRefs r h.2⟩
  | arithmetic op l r => exact List.forall_mem_append.mpr ⟨Confined.tableRefs l h.1, Confined.tableRefs r h.2⟩
  | logical op l r => exact List.forall_mem_append.mpr ⟨Confined.tableRefs l h.1, Confined.tableRefs r h.2⟩
  | like l p negated => exact List.forall_mem_append.mpr ⟨Confined.tableRefs l h.1, Confined.tableRefs p h.2⟩
  | between l low high negated table =>
    refine List.forall_mem_append.mpr ⟨List.forall_mem_append.mpr ⟨?_, ?_⟩, ?_⟩
    · exact Confined.tableRefs l h.1
    · exact Confined.tableRefs low h.2.1
    · exact Confined.tableRefs high h.2.2.1
  | inList l items negated table =>
    exact List.forall_mem_append.mpr ⟨Confined.tableRefs l h.1, ListConfined.tableRefs items h.2.1⟩
  | is l operand => exact Confined.tableRefs l h
  | negate e => exact Confined.tableRefs e h
  | not e => exact Confined.tableRefs e h
  | call f args => exact ListConfined.tableRefs args h
  | literal value => simp [Expr.tableRefs]
  | pattern value => simp [Expr.tableRefs]

theorem OptionConfined.tableRefs (e : Option Expr) (h : OptionConfined P e) : ∀ t ∈ optionTableRefs e, P t := by
  cases e with
  | none => simp [optionTableRefs]
  | some e => exact Confined.tableRefs e h

theorem ListConfined.tableRefs (es : List Expr) (h : ListConfined P es) : ∀ t ∈ listTableRefs es, P t := by
  cases es with
  | nil => simp [listTableRefs]
  | cons e es => exact List.forall_mem_append.mpr ⟨Confined.tableRefs e h.1, ListConfined.tableRefs es h.2⟩

end

theorem Confined.tables {e : Expr} (h : e.Confined P) : ∀ t ∈ e.tables, P t :=
  fun t ht => Confined.tableRefs e h t (mem_tables.mp ht)

/-! ### Chains -/

theorem confined_foldl {op : LogicalOp} {e : Expr} {es : List Expr} :
    (es.foldl (logical op) e).Confined P ↔ e.Confined P ∧ ∀ e ∈ es, e.Confined P := by
  induction es generalizing e with
  | nil => simp
  | cons x es ih => simp [ih, and_assoc]

theorem confined_joinAll {op : LogicalOp} {es : List Expr} {e : Expr} (h : joinAll op es = some e) :
    e.Confined P ↔ ∀ e ∈ es, e.Confined P := by
  cases es with
  | nil => cases h
  | cons x es =>
    cases h
    rw [confined_foldl, List.forall_mem_cons]

theorem confined_flatten (op : LogicalOp) {e : Expr} : (∀ x ∈ e.flatten op, x.Confined P) ↔ e.Confined P := by
  induction e using flatten.induct op with
  | case1 l r ihl ihr => rw [flatten, if_pos rfl, List.forall_mem_append, ihl, ihr, Confined]
  | case2 inner l r hne => rw [flatten, if_neg hne, List.forall_mem_singleton]
  | case3 e hne => rw [flatten_of_ne fun l r => hne op l r, List.forall_mem_singleton]

/-! ### Normalization -/

theorem Confined.asCondition {e : Expr} (h : e.Confined P) : e.asCondition.Confined P := by
  unfold Expr.asCondition
  split
  · exact ⟨h, trivial⟩
  · exact h

theorem Confined.opposite {e : Expr} (h : e.Confined P) : e.opposite.Confined P := by
  fun_induction Expr.opposite e with
  | case8 op l r ihl ihr => exact ⟨ihl h.1, ihr h.2⟩
  | case9 e => exact h.asCondition
  | _ => exact h

theorem Confined.connect {l r : Expr} (hl : l.Confined P) (hr : r.Confined P) (op : LogicalOp) :
    (connect op l r).Confined P := by
  unfold Expr.connect
  split <;> first | exact hl | exact hr | exact ⟨hl, hr⟩

theorem confined_foldArithmetic {l r : Expr} (op : ArithmeticOp) (hl : l.Confined P) (hr : r.Confined P) :
    (foldArithmetic op l r).Confined P := by
  unfold foldArithmetic
  split
  · cases foldLiterals op _ _ <;> simp
  · exact ⟨hl, hr⟩

theorem confined_foldNegate {e : Expr} (h : e.Confined P) : (foldNegate e).Confined P := by
  unfold foldNegate
  split
  · cases Number.neg? _ <;> simp [int]
  · trivial
  · exact h
  · exact h

theorem confined_placeTest (op : ComparisonOp) {args : List Expr} (h : ListConfined P args) (place : Int64) :
    (placeTest op args place).Confined P := by
  have hunchanged : (comparison op (call .indexOf args) (int place)).Confined P := ⟨h, trivial⟩
  unfold placeTest
  dsimp only
  split
  · split <;> first | exact h | exact hunchanged
  · exact hunchanged

theorem confined_simplifyOrdered (op : ComparisonOp) {l r : Expr} (hl : l.Confined P) (hr : r.Confined P) :
    (simplifyOrdered op l r).Confined P := by
  have hunchanged : (comparison op l r).Confined P := ⟨hl, hr⟩
  unfold simplifyOrdered
  dsimp only
  split
  · split
    · split
      · exact hl
      · exact hl.opposite
    · exact hunchanged
  · split
    · exact confined_placeTest _ hl.1 _
    · exact hunchanged
  · exact confined_placeTest _ hl _
  · exact hunchanged

theorem confined_simplifyComparison (op : ComparisonOp) {l r : Expr} (hl : l.Confined P) (hr : r.Confined P) :
    (simplifyComparison op l r).Confined P := by
  unfold simplifyComparison
  split
  · split
    · trivial
    · exact confined_simplifyOrdered op hl hr
  · split
    · exact confined_simplifyOrdered op.flip hr hl
    · exact confined_simplifyOrdered op hl hr

theorem confined_simplifyLike {l p : Expr} (hl : l.Confined P) (hp : p.Confined P) (negated : Bool) :
    (simplifyLike l p negated).Confined P := by
  unfold simplifyLike
  split
  · split
    · exact ⟨hl, trivial⟩
    · exact ⟨hl, trivial⟩
  · exact ⟨hl, hp⟩

/-- The recorded table is one of the operands. -/
theorem safe_singleTable (operator : String) {operands : List Expr} (h : ∀ e ∈ operands, e.Confined P) :
    (singleTable operator operands).Safe fun table => ∀ t, table = some t → P t := by
  have hall : ∀ t ∈ operands.flatMap tables, P t := by
    intro t ht
    obtain ⟨e, he, ht⟩ := List.mem_flatMap.mp ht
    exact (h e he).tables t ht
  unfold singleTable
  split
  · simp
  next first rest htables =>
    split
    · rw [Result.safe_ok]
      rintro t ⟨⟩
      exact hall _ (htables ▸ List.mem_cons_self)
    · simp

mutual

theorem Confined.safe_normalizeTree (e : Expr) (h : e.Confined P) : e.normalizeTree.Safe (Confined P) := by
  cases e with
  | literal value => exact .ok trivial
  | object value => exact .ok h
  | property p => exact .ok h
  | allProperties table extended => exact .ok h
  | pattern value => exact .ok trivial
  | parameter name default raw =>
    rw [normalizeTree]
    exact (OptionConfined.safe_normalizeOption default h).bind fun _ hd => .ok hd
  | list items =>
    rw [normalizeTree]
    exact (ListConfined.safe_normalizeList items h).bind fun _ hi => .ok hi
  | comparison op l r =>
    rw [normalizeTree]
    refine (Confined.safe_normalizeTree l h.1).bind fun l hl => ?_
    refine (Confined.safe_normalizeTree r h.2).bind fun r hr => ?_
    exact .ok (confined_simplifyComparison op hl hr)
  | like l p negated =>
    rw [normalizeTree]
    refine (Confined.safe_normalizeTree l h.1).bind fun l hl => ?_
    refine (Confined.safe_normalizeTree p h.2).bind fun p hp => ?_
    exact .ok (confined_simplifyLike hl hp negated)
  | between l low high negated table =>
    rw [normalizeTree]
    refine (Confined.safe_normalizeTree l h.1).bind fun l hl => ?_
    refine (Confined.safe_normalizeTree low h.2.1).bind fun low hlow => ?_
    refine (Confined.safe_normalizeTree high h.2.2.1).bind fun high hhigh => ?_
    refine (safe_singleTable "between" ?_).bind fun table htable => .ok ⟨hl, hlow, hhigh, htable⟩
    simpa using ⟨hl, hlow, hhigh⟩
  | inList l items negated table =>
    rw [normalizeTree]
    refine (Confined.safe_normalizeTree l h.1).bind fun l hl => ?_
    refine (ListConfined.safe_normalizeList items h.2.1).bind fun items hitems => ?_
    refine (safe_singleTable "in" ?_).bind fun table htable => .ok ⟨hl, hitems, htable⟩
    exact List.forall_mem_cons.mpr ⟨hl, listConfined_iff.mp hitems⟩
  | is l operand =>
    rw [normalizeTree]
    exact (Confined.safe_normalizeTree l h).bind fun _ hl => .ok hl
  | arithmetic op l r =>
    rw [normalizeTree]
    refine (Confined.safe_normalizeTree l h.1).bind fun l hl => ?_
    refine (Confined.safe_normalizeTree r h.2).bind fun r hr => ?_
    exact .ok (confined_foldArithmetic op hl hr)
  | negate e =>
    rw [normalizeTree]
    exact (Confined.safe_normalizeTree e h).bind fun _ he => .ok (confined_foldNegate he)
  | not e =>
    rw [normalizeTree]
    exact (Confined.safe_normalizeTree e h).bind fun _ he => .ok he.asCondition.opposite
  | logical op l r =>
    rw [normalizeTree]
    refine (Confined.safe_normalizeTree l h.1).bind fun l hl => ?_
    refine (Confined.safe_normalizeTree r h.2).bind fun r hr => ?_
    exact .ok (hl.asCondition.connect hr.asCondition op)
  | call function args =>
    rw [normalizeTree]
    exact (ListConfined.safe_normalizeList args h).bind fun _ ha => .ok ha

theorem OptionConfined.safe_normalizeOption (e : Option Expr) (h : OptionConfined P e) :
    (normalizeOption e).Safe (OptionConfined P) := by
  cases e with
  | none => exact .ok trivial
  | some e =>
    rw [normalizeOption]
    exact (Confined.safe_normalizeTree e h).bind fun _ he => .ok he

theorem ListConfined.safe_normalizeList (es : List Expr) (h : ListConfined P es) :
    (normalizeList es).Safe (ListConfined P) := by
  cases es with
  | nil => exact .ok trivial
  | cons e es =>
    rw [normalizeList]
    refine (Confined.safe_normalizeTree e h.1).bind fun e he => ?_
    exact (ListConfined.safe_normalizeList es h.2).bind fun _ hes => .ok ⟨he, hes⟩

end

theorem Confined.safe_normalize {e : Expr} (h : e.Confined P) : e.normalize.Safe (Confined P) :=
  (Confined.safe_normalizeTree e h).map fun _ hn => hn.asCondition

end ItemQuery.Expr
