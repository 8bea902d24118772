import ItemQuery.Expr.Basic

/-! Which tables an expression is about: those of its properties, of the properties that its untyped values belong
    to, and of its stars. -/

namespace ItemQuery.Expr

variable {P Q : TableId → Prop}

/-- All tables that the expression is about satisfy `P`. -/
def Among (P : TableId → Prop) (e : Expr) : Prop :=
  (∀ p ∈ e.properties, P p.table) ∧ ∀ t ∈ e.tableRefs, P t

theorem Among.mono {e : Expr} (h : e.Among P) (hPQ : ∀ t, P t → Q t) : e.Among Q :=
  ⟨fun p hp => hPQ _ (h.1 p hp), fun t ht => hPQ t (h.2 t ht)⟩

/-! ### Leaves -/

section
attribute [local simp] Among properties tableRefs optionProperties optionTableRefs listProperties listTableRefs

@[simp] theorem among_literal {value : Literal} : (literal value).Among P := by
  simp

@[simp] theorem among_int {n : Int64} : (int n).Among P :=
  among_literal

@[simp] theorem among_text {s : String} : (text s).Among P :=
  among_literal

@[simp] theorem among_bool {b : Bool} : (bool b).Among P :=
  among_literal

@[simp] theorem among_object {value : ObjectLiteral} :
    (object value).Among P ↔ ∀ p, value.property = some p → P p.table := by
  simp

@[simp] theorem among_property {p : PropertyRef} : (property p).Among P ↔ P p.table := by
  simp

@[simp] theorem among_prop {table : TableId} {name : String} : (prop table name).Among P ↔ P table :=
  among_property

@[simp] theorem among_allProperties {table : TableId} {extended : Bool} :
    (allProperties table extended).Among P ↔ P table := by
  simp

@[simp] theorem among_pattern {value : Pattern} : (pattern value).Among P := by
  simp

@[simp] theorem among_parameter {name : ParamName} {default : Option Expr} {raw : Bool} :
    (parameter name default raw).Among P ↔ ∀ e, default = some e → e.Among P := by
  cases default <;> simp

/-! ### Parts -/

/-- References of two parts in one list each. -/
theorem among_append {ps ps' : List PropertyRef} {ts ts' : List TableId} :
    ((∀ p ∈ ps ++ ps', P p.table) ∧ ∀ t ∈ ts ++ ts', P t) ↔
      ((∀ p ∈ ps, P p.table) ∧ ∀ t ∈ ts, P t) ∧ (∀ p ∈ ps', P p.table) ∧ ∀ t ∈ ts', P t := by
  simp only [List.mem_append, or_imp, forall_and]
  exact and_and_and_comm

theorem among_items {es : List Expr} :
    ((∀ p ∈ listProperties es, P p.table) ∧ ∀ t ∈ listTableRefs es, P t) ↔ ∀ e ∈ es, e.Among P := by
  induction es with
  | nil => simp
  | cons e es ih =>
    rw [listProperties, listTableRefs, among_append, ih, List.forall_mem_cons]
    rfl

@[simp] theorem among_list {es : List Expr} : (list es).Among P ↔ ∀ e ∈ es, e.Among P :=
  among_items

@[simp] theorem among_call {f : Function} {es : List Expr} : (call f es).Among P ↔ ∀ e ∈ es, e.Among P :=
  among_items

@[simp] theorem among_comparison {op : ComparisonOp} {l r : Expr} :
    (comparison op l r).Among P ↔ l.Among P ∧ r.Among P :=
  among_append

@[simp] theorem among_arithmetic {op : ArithmeticOp} {l r : Expr} :
    (arithmetic op l r).Among P ↔ l.Among P ∧ r.Among P :=
  among_append

@[simp] theorem among_logical {op : LogicalOp} {l r : Expr} :
    (logical op l r).Among P ↔ l.Among P ∧ r.Among P :=
  among_append

@[simp] theorem among_like {l p : Expr} {negated : Bool} : (like l p negated).Among P ↔ l.Among P ∧ p.Among P :=
  among_append

@[simp] theorem among_between {l low high : Expr} {negated : Bool} {table : Option TableId} :
    (between l low high negated table).Among P ↔ (l.Among P ∧ low.Among P) ∧ high.Among P :=
  among_append.trans (and_congr_left' among_append)

@[simp] theorem among_inList {l : Expr} {es : List Expr} {negated : Bool} {table : Option TableId} :
    (inList l es negated table).Among P ↔ l.Among P ∧ ∀ e ∈ es, e.Among P :=
  among_append.trans (and_congr_right' among_items)

@[simp] theorem among_is {l : Expr} {operand : IsOperand} : (is l operand).Among P ↔ l.Among P := by
  simp

@[simp] theorem among_negate {e : Expr} : (negate e).Among P ↔ e.Among P := by
  simp

@[simp] theorem among_not {e : Expr} : (not e).Among P ↔ e.Among P := by
  simp

end

/-! ### Chains -/

theorem among_foldl {op : LogicalOp} {e : Expr} {es : List Expr} :
    (es.foldl (logical op) e).Among P ↔ e.Among P ∧ ∀ e ∈ es, e.Among P := by
  induction es generalizing e with
  | nil => simp
  | cons x es ih => simp [ih, and_assoc]

theorem among_of_joinAll {op : LogicalOp} {es : List Expr} {e : Expr} (hes : ∀ e ∈ es, e.Among P)
    (h : joinAll op es = some e) : e.Among P := by
  cases es with
  | nil => cases h
  | cons x es =>
    cases h
    rw [List.forall_mem_cons] at hes
    exact among_foldl.mpr hes

/-! ### Tables in order -/

theorem mem_insertTable {t id : TableId} {ids : List TableId} : t ∈ insertTable id ids ↔ t = id ∨ t ∈ ids := by
  induction ids with
  | nil => simp [insertTable]
  | cons first rest ih =>
    unfold insertTable
    split
    next => simp
    next heq =>
      obtain ⟨hslot, hgeneration⟩ := Ordering.then_eq_eq.mp heq
      obtain rfl : id = first := by
        rw [TableId.mk.injEq]
        exact ⟨Std.LawfulEqOrd.eq_of_compare hslot, Std.LawfulEqOrd.eq_of_compare hgeneration⟩
      simp
    next => rw [List.mem_cons, ih, List.mem_cons, or_left_comm]

/-- The tables of a tree are those that its properties and stars name. -/
theorem mem_tables {t : TableId} {e : Expr} : t ∈ e.tables ↔ t ∈ e.tableRefs := by
  have hfold : ∀ refs ids : List TableId, t ∈ refs.foldl (fun acc id => insertTable id acc) ids ↔ t ∈ refs ∨ t ∈ ids := by
    intro refs
    induction refs with
    | nil => simp
    | cons ref refs ih =>
      intro ids
      rw [List.foldl_cons, ih, mem_insertTable, List.mem_cons, or_left_comm, or_assoc]
  rw [tables, hfold]
  simp

/-! ### Other tables -/

theorem listMapTables_eq_map (f : TableId → TableId) (es : List Expr) :
    listMapTables f es = es.map (mapTables f) := by
  induction es with
  | nil => rfl
  | cons e es ih => rw [listMapTables, ih, List.map_cons]

end ItemQuery.Expr
