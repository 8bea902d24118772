import ItemQuery.Expr.Basic
import Mathlib.Data.List.Induction

/-! Trees that differ only in what a text does not show: the tables that normalization has recorded, and how a
    chain of one connective, or of arithmetic operators of one level, is grouped where no parentheses are
    written. The canonical form of such a chain is grouped from the left. -/

namespace ItemQuery

/-! ### Levels -/

namespace Precedence

/-- Ranks tell levels apart. -/
theorem eq_of_rank {p q : Precedence} (h : p.rank = q.rank) : p = q := by
  cases p <;> cases q <;> first | rfl | cases h

theorem needsParens_left {p own : Precedence} {associative : Bool} :
    p.needsParens own false associative = false ↔ p.rank ≤ own.rank := by
  simp [needsParens, weaker]

theorem needsParens_right {p own : Precedence} :
    p.needsParens own true false = false ↔ p.rank < own.rank := by
  simp only [needsParens, weaker, Bool.true_and, Bool.not_false, Bool.and_true,
    Bool.or_eq_false_iff, decide_eq_false_iff_not, Nat.not_lt, beq_eq_false_iff_ne]
  constructor
  · rintro ⟨hle, hne⟩
    exact Nat.lt_of_le_of_ne hle fun heq => hne (eq_of_rank heq).symm
  · intro hlt
    refine ⟨Nat.le_of_lt hlt, ?_⟩
    rintro rfl
    exact Nat.lt_irrefl _ hlt

theorem needsParens_chain {p own : Precedence} :
    p.needsParens own true true = false ↔ p.rank ≤ own.rank := by
  simp [needsParens, weaker]

end Precedence

namespace Expr

/-! ### Recorded tables -/

mutual

/-- The expression without recorded tables. -/
@[simp] def withoutTables : Expr → Expr
  | parameter name default raw => parameter name (optionWithoutTables default) raw
  | list items => list (listWithoutTables items)
  | comparison op l r => comparison op l.withoutTables r.withoutTables
  | like l p negated => like l.withoutTables p.withoutTables negated
  | between l low high negated _ => between l.withoutTables low.withoutTables high.withoutTables negated none
  | inList l items negated _ => inList l.withoutTables (listWithoutTables items) negated none
  | is l operand => is l.withoutTables operand
  | arithmetic op l r => arithmetic op l.withoutTables r.withoutTables
  | negate e => negate e.withoutTables
  | not e => not e.withoutTables
  | logical op l r => logical op l.withoutTables r.withoutTables
  | call function args => call function (listWithoutTables args)
  | literal value => literal value
  | object value => object value
  | property p => property p
  | allProperties table extended => allProperties table extended
  | pattern value => pattern value

/-- An optional expression without recorded tables. -/
@[simp] def optionWithoutTables : Option Expr → Option Expr
  | none => none
  | some e => some e.withoutTables

/-- A list without recorded tables. -/
@[simp] def listWithoutTables : List Expr → List Expr
  | [] => []
  | e :: es => e.withoutTables :: listWithoutTables es

end

theorem listWithoutTables_eq_map (es : List Expr) : listWithoutTables es = es.map withoutTables := by
  induction es with
  | nil => rfl
  | cons e es ih => rw [listWithoutTables, ih, List.map_cons]

@[simp] theorem precedence_withoutTables (e : Expr) : e.withoutTables.precedence = e.precedence := by
  cases e <;> rfl

@[simp] theorem isPredicate_withoutTables (e : Expr) : e.withoutTables.isPredicate = e.isPredicate := by
  cases e <;> rfl

/-! ### Chains -/

/-- Both operands of a connective; a right one that is a chain of the same connective is taken apart. -/
@[simp] def attach (op : LogicalOp) (l : Expr) : Expr → Expr
  | logical inner m r => if inner = op then logical op (attach op l m) r else logical op l (logical inner m r)
  | e => logical op l e

/-- Both operands of an operator; a right one of the same level after an associative operator is taken apart. -/
@[simp] def attachArithmetic (op : ArithmeticOp) (l : Expr) : Expr → Expr
  | arithmetic inner m r =>
    if op.isAssociative = true ∧ inner.precedence = op.precedence then arithmetic inner (attachArithmetic op l m) r
    else arithmetic op l (arithmetic inner m r)
  | e => arithmetic op l e

mutual

/-- The expression with every chain of one connective grouped from the left, and every chain of arithmetic
    operators of one level as far as its text has no parentheses. -/
@[simp] def leftGrouped : Expr → Expr
  | parameter name default raw => parameter name (optionLeftGrouped default) raw
  | list items => list (listLeftGrouped items)
  | comparison op l r => comparison op l.leftGrouped r.leftGrouped
  | like l p negated => like l.leftGrouped p.leftGrouped negated
  | between l low high negated table => between l.leftGrouped low.leftGrouped high.leftGrouped negated table
  | inList l items negated table => inList l.leftGrouped (listLeftGrouped items) negated table
  | is l operand => is l.leftGrouped operand
  | arithmetic op l r => attachArithmetic op l.leftGrouped r.leftGrouped
  | negate e => negate e.leftGrouped
  | not e => not e.leftGrouped
  | logical op l r => attach op l.leftGrouped r.leftGrouped
  | call function args => call function (listLeftGrouped args)
  | literal value => literal value
  | object value => object value
  | property p => property p
  | allProperties table extended => allProperties table extended
  | pattern value => pattern value

/-- Groups the chains of an optional expression. -/
@[simp] def optionLeftGrouped : Option Expr → Option Expr
  | none => none
  | some e => some e.leftGrouped

/-- Groups the chains of a list. -/
@[simp] def listLeftGrouped : List Expr → List Expr
  | [] => []
  | e :: es => e.leftGrouped :: listLeftGrouped es

end

theorem listLeftGrouped_eq_map (es : List Expr) : listLeftGrouped es = es.map leftGrouped := by
  induction es with
  | nil => rfl
  | cons e es ih => rw [listLeftGrouped, ih, List.map_cons]

theorem attach_of_ne {op : LogicalOp} {l r : Expr} (h : ∀ m s, r ≠ logical op m s) : attach op l r = logical op l r := by
  unfold attach
  split
  · rename_i inner m s
    rw [if_neg]
    rintro rfl
    exact h m s rfl
  · rfl

/-- A chain on the right is taken apart down to its first operand. -/
theorem attach_eq_logical (op : LogicalOp) (l r : Expr) : ∃ m s, attach op l r = logical op m s := by
  unfold attach
  split
  · split <;> exact ⟨_, _, rfl⟩
  · exact ⟨_, _, rfl⟩

@[simp] theorem precedence_attach (op : LogicalOp) (l r : Expr) : (attach op l r).precedence = op.precedence := by
  obtain ⟨m, s, h⟩ := attach_eq_logical op l r
  rw [h, precedence]

@[simp] theorem isPredicate_attach (op : LogicalOp) (l r : Expr) : (attach op l r).isPredicate = true := by
  obtain ⟨m, s, h⟩ := attach_eq_logical op l r
  rw [h, isPredicate]

theorem attachArithmetic_eq_arithmetic (op : ArithmeticOp) (l r : Expr) :
    ∃ inner m s, attachArithmetic op l r = arithmetic inner m s ∧ inner.precedence = op.precedence := by
  unfold attachArithmetic
  split
  · split
    · rename_i h
      exact ⟨_, _, _, rfl, h.2⟩
    · exact ⟨_, _, _, rfl, rfl⟩
  · exact ⟨_, _, _, rfl, rfl⟩

@[simp] theorem precedence_attachArithmetic (op : ArithmeticOp) (l r : Expr) :
    (attachArithmetic op l r).precedence = op.precedence := by
  obtain ⟨inner, m, s, h, hinner⟩ := attachArithmetic_eq_arithmetic op l r
  rw [h, precedence, hinner]

@[simp] theorem precedence_leftGrouped (e : Expr) : e.leftGrouped.precedence = e.precedence := by
  cases e with
  | logical op l r => exact precedence_attach op _ _
  | arithmetic op l r => exact precedence_attachArithmetic op _ _
  | _ => rfl

@[simp] theorem isPredicate_leftGrouped (e : Expr) : e.leftGrouped.isPredicate = e.isPredicate := by
  cases e with
  | logical op l r => exact isPredicate_attach op _ _
  | arithmetic op l r =>
    obtain ⟨inner, m, s, h, -⟩ := attachArithmetic_eq_arithmetic op l.leftGrouped r.leftGrouped
    rw [leftGrouped, h]
    rfl
  | _ => rfl

/-- Only a connective has the level of one. -/
theorem precedence_eq_logical {e : Expr} {op : LogicalOp} (h : e.precedence = op.precedence) :
    ∃ l r, e = logical op l r := by
  cases e with
  | logical inner l r =>
    have hinner : inner = op := by
      cases inner <;> cases op <;> first | rfl | cases h
    exact ⟨l, r, by rw [hinner]⟩
  | arithmetic inner l r => cases inner <;> cases op <;> cases h
  | _ => cases op <;> cases h

/-- Only an arithmetic operator has the level of one. -/
theorem precedence_eq_arithmetic {e : Expr} {op : ArithmeticOp} (h : e.precedence = op.precedence) :
    ∃ inner l r, e = arithmetic inner l r := by
  cases e with
  | arithmetic inner l r => exact ⟨inner, l, r, rfl⟩
  | logical inner l r => cases inner <;> cases op <;> cases h
  | _ => cases op <;> cases h

/-! ### Operands of a chain -/

theorem flatten_of_ne {op : LogicalOp} {e : Expr} (h : ∀ l r, e ≠ logical op l r) : e.flatten op = [e] := by
  unfold flatten
  split
  · rename_i inner l r
    rw [if_neg]
    rintro rfl
    exact h l r rfl
  · rfl

theorem flatten_ne_nil (op : LogicalOp) (e : Expr) : e.flatten op ≠ [] := by
  induction e using flatten.induct op with
  | case1 l r ihl _ => simp [flatten, ihl]
  | case2 inner l r hne => simp [flatten, hne]
  | case3 e hne => rw [flatten_of_ne fun l r => hne op l r]; exact List.cons_ne_nil _ _

/-- No operand of a chain is a chain of the same connective. -/
theorem ne_logical_of_mem_flatten {op : LogicalOp} {e a : Expr} (ha : a ∈ e.flatten op) (l r : Expr) :
    a ≠ logical op l r := by
  induction e using flatten.induct op with
  | case1 m s ihm ihs =>
    simp only [flatten, if_true, List.mem_append] at ha
    rcases ha with ha | ha
    · exact ihm ha
    · exact ihs ha
  | case2 inner m s hne =>
    simp only [flatten, hne, if_false, List.mem_singleton] at ha
    rw [ha]
    rintro ⟨⟩
    exact hne rfl
  | case3 e hne =>
    rw [flatten_of_ne fun l r => hne op l r, List.mem_singleton] at ha
    rw [ha]
    exact hne op l r

theorem flatten_of_mem_flatten {op : LogicalOp} {e x : Expr} (hx : x ∈ e.flatten op) : x.flatten op = [x] :=
  flatten_of_ne (ne_logical_of_mem_flatten hx)

/-- Chains of the same operands are the same if they were joined from the left. -/
theorem flatten_joinAll {op : LogicalOp} {es : List Expr} {e : Expr} (hes : ∀ x ∈ es, x.flatten op = [x])
    (h : joinAll op es = some e) : e.flatten op = es := by
  match es with
  | [] => cases h
  | first :: rest =>
    obtain rfl : rest.foldl (logical op) first = e := Option.some.inj h
    clear h
    induction rest using List.reverseRecOn with
    | nil => exact hes first List.mem_cons_self
    | append_singleton rest last ih =>
      have hrest : (rest.foldl (logical op) first).flatten op = first :: rest :=
        ih fun x hx => hes x (by rw [← List.cons_append]; exact List.mem_append_left _ hx)
      rw [List.foldl_append, List.foldl_cons, List.foldl_nil, flatten, if_pos rfl, hrest, hes last (by simp),
        List.cons_append]

/-- Attaching a chain continues it operand by operand. -/
theorem attach_foldl (op : LogicalOp) (l first : Expr) (rest : List Expr) (h : ∀ m s, first ≠ logical op m s) :
    attach op l (rest.foldl (logical op) first) = rest.foldl (logical op) (logical op l first) := by
  induction rest using List.reverseRecOn with
  | nil => exact attach_of_ne h
  | append_singleton rest last ih =>
    rw [List.foldl_append, List.foldl_append, List.foldl_cons, List.foldl_nil, List.foldl_cons, List.foldl_nil, attach,
      if_pos rfl, ih]

/-- Grouping from the left joins the operands of a chain one after the other, each with its own chains grouped. -/
theorem joinAll_flatten (op : LogicalOp) (e : Expr) :
    joinAll op ((e.flatten op).map leftGrouped) = some e.leftGrouped := by
  induction e using flatten.induct op with
  | case1 l r ihl ihr =>
    obtain ⟨a, as, ha⟩ := List.exists_cons_of_ne_nil (flatten_ne_nil op l)
    obtain ⟨b, bs, hb⟩ := List.exists_cons_of_ne_nil (flatten_ne_nil op r)
    have hfirst : ∀ m s, b.leftGrouped ≠ logical op m s := by
      intro m s hlogical
      have hprec : b.precedence = op.precedence := by
        rw [← precedence_leftGrouped, hlogical, precedence]
      obtain ⟨m', s', hb'⟩ := precedence_eq_logical hprec
      exact ne_logical_of_mem_flatten (hb ▸ List.mem_cons_self) m' s' hb'
    rw [ha, List.map_cons, joinAll, Option.some.injEq] at ihl
    rw [hb, List.map_cons, joinAll, Option.some.injEq] at ihr
    rw [flatten, if_pos rfl, ha, hb, List.cons_append, List.map_cons, List.map_append, joinAll, List.foldl_append,
      List.map_cons, List.foldl_cons, ihl, leftGrouped, ← ihr, attach_foldl op _ _ _ hfirst]
  | case2 inner l r hne => rw [flatten, if_neg hne]; rfl
  | case3 e hne => rw [flatten_of_ne fun l r => hne op l r]; rfl

end Expr
end ItemQuery
