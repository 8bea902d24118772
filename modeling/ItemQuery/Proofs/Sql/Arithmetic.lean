import ItemQuery.Proofs.Expr.Value
import ItemQuery.Proofs.Sql.RoundTrip

/-! Arithmetic that is written as SQL and read again keeps its value. A text without parentheses is read from the
    left, so what matters is which operands on the right may be taken apart: a sum or a difference after a plus
    sign, and a product of products. -/

namespace ItemQuery

namespace Expr

/-! ### Expressions -/

/-- Sums, differences, products, quotients, remainders and opposites of properties of a table and of integers
    that are not negative. -/
inductive IsArithmetic (table : TableId) : Expr → Prop
  | property {name : String} (h : name ≠ "*") : IsArithmetic table (prop table name)
  | integer {n : Int64} (h : 0 ≤ n) : IsArithmetic table (int n)
  | operation (op : ArithmeticOp) {l r : Expr} (hop : op ≠ .concat) (hl : IsArithmetic table l)
      (hr : IsArithmetic table r) : IsArithmetic table (arithmetic op l r)
  | negate {e : Expr} (h : IsArithmetic table e) : IsArithmetic table (negate e)

/-- Whether the text of the expression, where it has no parentheses, multiplies but neither divides nor takes a
    remainder. -/
def isProduct : Expr → Bool
  | arithmetic .mul l r => l.isProduct && r.isProduct
  | arithmetic .div _ _ | arithmetic .mod _ _ => false
  | _ => true

/-- Whether no product has a right operand that divides or takes a remainder outside of parentheses. -/
def isRegular : Expr → Bool
  | arithmetic .mul l r => l.isRegular && r.isRegular && r.isProduct
  | arithmetic _ l r => l.isRegular && r.isRegular
  | negate e => e.isRegular
  | _ => true

/-! ### Values -/

/-- Every property has an integer. -/
def Integral (v : Valuation) : Prop :=
  ∀ p, ∃ n, v.property p = .integer n

/-- A number, or undefined. -/
def Numeric (a : Value) : Prop :=
  a = .null ∨ ∃ n, a = .integer n

theorem arithmetic_null_left (op : ArithmeticOp) (b : Value) : Value.arithmetic op .null b = .null := by
  cases op <;> rfl

theorem arithmetic_null_right (op : ArithmeticOp) (a : Value) : Value.arithmetic op a .null = .null := by
  cases op <;> cases a <;> rfl

theorem Numeric.arithmetic {a b : Value} (ha : Numeric a) (hb : Numeric b) (op : ArithmeticOp) :
    Numeric (.arithmetic op a b) := by
  rcases ha with rfl | ⟨m, rfl⟩
  · exact Or.inl (arithmetic_null_left op b)
  rcases hb with rfl | ⟨n, rfl⟩
  · exact Or.inl (arithmetic_null_right op _)
  cases op with
  | add => exact Or.inr ⟨m + n, rfl⟩
  | sub => exact Or.inr ⟨m - n, rfl⟩
  | mul => exact Or.inr ⟨m * n, rfl⟩
  | concat => exact Or.inl rfl
  | div =>
    by_cases hn : n = 0
    · exact Or.inl (if_pos hn)
    · exact Or.inr ⟨m.tdiv n, if_neg hn⟩
  | mod =>
    by_cases hn : n = 0
    · exact Or.inl (if_pos hn)
    · exact Or.inr ⟨m.tmod n, if_neg hn⟩

theorem IsArithmetic.numeric {table : TableId} {e : Expr} (h : IsArithmetic table e) (I : Interpretation)
    {v : Valuation} (hv : Integral v) : Numeric (e.eval I v) := by
  induction h with
  | property _ => exact Or.inr (hv _)
  | integer _ => exact Or.inr ⟨_, rfl⟩
  | operation _ _ _ _ ihl ihr => exact ihl.arithmetic ihr _
  | negate _ ih =>
    rw [eval]
    rcases ih with ih | ⟨n, ih⟩
    · exact Or.inl (by rw [ih]; rfl)
    · exact Or.inr ⟨-n, by rw [ih]; rfl⟩

/-- The operators that may be taken apart on the right of `op`. -/
def Regroups (op inner : ArithmeticOp) : Prop :=
  (op = .add ∧ (inner = .add ∨ inner = .sub)) ∨ (op = .mul ∧ inner = .mul)

theorem regroups_of {op inner : ArithmeticOp} (hassociative : op.isAssociative = true)
    (hlevel : inner.precedence = op.precedence) (hop : op ≠ .concat) (hinner : inner ≠ .concat)
    (hmul : op = .mul → inner = .mul) : Regroups op inner := by
  cases op <;> cases inner <;> simp_all [Regroups, ArithmeticOp.isAssociative, ArithmeticOp.precedence]

/-- Taking apart the right operand of such a pair of operators does not change the value. -/
theorem arithmetic_regroup {op inner : ArithmeticOp} (h : Regroups op inner) {a b c : Value} (ha : Numeric a)
    (hb : Numeric b) (hc : Numeric c) :
    Value.arithmetic inner (.arithmetic op a b) c = Value.arithmetic op a (.arithmetic inner b c) := by
  rcases ha with rfl | ⟨l, rfl⟩
  · simp only [arithmetic_null_left]
  rcases hb with rfl | ⟨m, rfl⟩
  · simp only [arithmetic_null_left, arithmetic_null_right]
  rcases hc with rfl | ⟨n, rfl⟩
  · simp only [arithmetic_null_right]
  rcases h with ⟨rfl, rfl | rfl⟩ | ⟨rfl, rfl⟩
  · exact congrArg Value.integer (Int.add_assoc l m n)
  · exact congrArg Value.integer (Int.add_sub_assoc l m n)
  · exact congrArg Value.integer (Int.mul_assoc l m n)

/-! ### Grouping -/

theorem IsArithmetic.attachArithmetic {table : TableId} {op : ArithmeticOp} (hop : op ≠ .concat) {l r : Expr}
    (hl : IsArithmetic table l) (hr : IsArithmetic table r) : IsArithmetic table (attachArithmetic op l r) := by
  induction r using attachArithmetic.induct op with
  | case1 inner m s h ih =>
    rw [Expr.attachArithmetic, if_pos h]
    cases hr with
    | operation _ hinner hm hs => exact .operation inner hinner (ih hm) hs
  | case2 inner m s h =>
    rw [Expr.attachArithmetic, if_neg h]
    exact .operation op hop hl hr
  | case3 e hne =>
    rw [Expr.attachArithmetic]
    · exact .operation op hop hl hr
    · exact hne

theorem IsArithmetic.leftGrouped {table : TableId} {e : Expr} (h : IsArithmetic table e) :
    IsArithmetic table e.leftGrouped := by
  induction h with
  | property h => exact .property h
  | integer h => exact .integer h
  | operation _ hop _ _ ihl ihr => exact ihl.attachArithmetic hop ihr
  | negate _ ih => exact .negate ih

theorem isProduct_attachArithmetic {l r : Expr} (hl : l.isProduct = true) (hr : r.isProduct = true) :
    (attachArithmetic .mul l r).isProduct = true := by
  induction r using attachArithmetic.induct .mul with
  | case1 inner m s h ih =>
    rw [attachArithmetic, if_pos h]
    cases inner <;> simp only [isProduct, Bool.and_eq_true, Bool.false_eq_true] at hr ⊢
    case mul => exact ⟨ih hr.1, hr.2⟩
  | case2 inner m s h =>
    rw [attachArithmetic, if_neg h, isProduct, hl, hr]
    rfl
  | case3 e hne =>
    rw [attachArithmetic]
    · rw [isProduct, hl, hr]
      rfl
    · exact hne

theorem eq_mul_of_isProduct {op : ArithmeticOp} {l r : Expr} (hlevel : op.precedence = .multiplicative)
    (h : (arithmetic op l r).isProduct = true) : op = .mul ∧ l.isProduct = true := by
  cases op <;> simp_all [isProduct, ArithmeticOp.precedence]

/-- What is weaker than a product stands in parentheses below one. -/
theorem isProduct_of_precedence {e : Expr} (h : e.precedence ≠ .multiplicative) : e.isProduct = true := by
  cases e with
  | arithmetic op l r => cases op <;> first | rfl | exact absurd rfl h
  | _ => rfl

theorem IsArithmetic.isProduct_leftGrouped {table : TableId} {e : Expr} (h : IsArithmetic table e)
    (hproduct : e.isProduct = true) : e.leftGrouped.isProduct = true := by
  induction h with
  | property _ | integer _ | negate _ => rfl
  | @operation op l r _ _ _ ihl ihr =>
    cases op with
    | mul =>
      simp only [isProduct, Bool.and_eq_true] at hproduct
      exact isProduct_attachArithmetic (ihl hproduct.1) (ihr hproduct.2)
    | div => cases hproduct
    | mod => cases hproduct
    | add | sub | concat => exact isProduct_of_precedence (by rw [precedence_leftGrouped]; nofun)

/-- Taking apart a right operand does not change the value, unless it is a quotient or a remainder below a
    product. -/
theorem eval_attachArithmetic {table : TableId} {op : ArithmeticOp} (hop : op ≠ .concat) {l r : Expr}
    (hl : IsArithmetic table l) (hr : IsArithmetic table r) (hproduct : op = .mul → r.isProduct = true)
    (I : Interpretation) {v : Valuation} (hv : Integral v) :
    (attachArithmetic op l r).eval I v = .arithmetic op (l.eval I v) (r.eval I v) := by
  induction r using attachArithmetic.induct op with
  | case1 inner m s h ih =>
    obtain ⟨hassociative, hlevel⟩ := h
    rw [attachArithmetic, if_pos ⟨hassociative, hlevel⟩]
    cases hr with
    | operation _ hinner hm hs =>
      have hparts : op = .mul → inner = .mul ∧ m.isProduct = true := by
        rintro rfl
        exact eq_mul_of_isProduct hlevel (hproduct rfl)
      have hregroups := regroups_of hassociative hlevel hop hinner fun hmul => (hparts hmul).1
      rw [eval, ih hm fun hmul => (hparts hmul).2, eval]
      exact arithmetic_regroup hregroups (hl.numeric I hv) (hm.numeric I hv) (hs.numeric I hv)
  | case2 inner m s h => rw [attachArithmetic, if_neg h, eval]
  | case3 e hne =>
    rw [attachArithmetic]
    · rw [eval]
    · exact hne

/-- Grouping from the left keeps the value of regular arithmetic. -/
theorem IsArithmetic.eval_leftGrouped {table : TableId} {e : Expr} (h : IsArithmetic table e)
    (hregular : e.isRegular = true) (I : Interpretation) {v : Valuation} (hv : Integral v) :
    e.leftGrouped.eval I v = e.eval I v := by
  induction h with
  | property _ => rfl
  | integer _ => rfl
  | @operation op l r hop hl hr ihl ihr =>
    have hparts : l.isRegular = true ∧ r.isRegular = true ∧ (op = .mul → r.isProduct = true) := by
      cases op <;> simp_all [isRegular]
    rw [Expr.leftGrouped, eval_attachArithmetic hop hl.leftGrouped hr.leftGrouped
      (fun hmul => hr.isProduct_leftGrouped (hparts.2.2 hmul)) I hv, ihl hparts.1, ihr hparts.2.1, eval]
  | negate _ ih =>
    rw [Expr.leftGrouped, eval, ih hregular, eval]

/-! ### Texts -/

theorem IsArithmetic.collapseIn {table : TableId} {e : Expr} (h : IsArithmetic table e) : e.collapseIn = e := by
  have hterms : e.orTerms = [e] := by
    induction h with
    | property _ | integer _ => rfl
    | operation _ _ _ _ ihl ihr => rw [orTerms, ihl, ihr, regroup_singleton, regroup_singleton]
    | negate _ ih => rw [orTerms, ih, regroup_singleton]
  rw [Expr.collapseIn, hterms, regroup_singleton]

theorem IsArithmetic.withoutTables {table : TableId} {e : Expr} (h : IsArithmetic table e) : e.withoutTables = e := by
  induction h with
  | property _ | integer _ => rfl
  | operation _ _ _ _ ihl ihr => rw [Expr.withoutTables, ihl, ihr]
  | negate _ ih => rw [Expr.withoutTables, ih]

theorem IsArithmetic.written {table : TableId} {e : Expr} (h : IsArithmetic table e) :
    Sql.Written table (fun _ => False) false e := by
  induction h with
  | property h => exact .property h
  | integer h => exact .integer h
  | operation _ hop _ _ ihl ihr => exact .arithmetic hop ihl ihr nofun
  | negate _ ih => exact .negate ih

end Expr

namespace Sql

/-- Arithmetic is read with its chains grouped from the left. -/
theorem parseWhere_arithmetic (ctx : Context) {q : Query} {called : String} {e : Expr} (hq : RootOnly q called)
    (he : e.IsArithmetic q.root) (hproperty : e.property? = none) :
    ∃ s, renderExpr ctx q .sqlServer e = .ok s ∧ parseWhere q q.root s = .ok e.leftGrouped := by
  obtain ⟨s, hs, hread⟩ := he.written.parseWhere (hq.agree ctx nofun nofun)
  have hcondition := he.written.asCondition hproperty ⟨ctx, q, .sqlServer, [(q.root, called)]⟩ s
  rw [he.withoutTables] at hread
  refine ⟨s, ?_, hread⟩
  rw [renderExpr, hq.make, he.collapseIn]
  simp only [bind, Except.bind, Writer.condition, he.written.oneBased, hs, Except.map, hcondition]

/-- Arithmetic that is more than a property is written and read again, and it keeps its value for every integer
    assignment if it is regular. -/
theorem eval_parseWhere_renderExpr (ctx : Context) {q : Query} {called : String} {e : Expr} (hq : RootOnly q called)
    (he : e.IsArithmetic q.root) (hproperty : e.property? = none) :
    ∃ s r, renderExpr ctx q .sqlServer e = .ok s ∧ parseWhere q q.root s = .ok r ∧
      (e.isRegular = true → ∀ (I : Interpretation) (v : Valuation), Expr.Integral v → r.eval I v = e.eval I v) := by
  obtain ⟨s, hs, hread⟩ := parseWhere_arithmetic ctx hq he hproperty
  exact ⟨s, e.leftGrouped, hs, hread, fun hregular I v hv => he.eval_leftGrouped hregular I hv⟩

/-- A difference after a plus sign, with a product of a product in it, is read from the left. -/
theorem eval_parseWhere_renderExpr_difference :
    ∃ s r, renderExpr {} parts .sqlServer
        (.arithmetic .add (.prop parts.root "a") (.arithmetic .sub (.negate (.prop parts.root "b"))
          (.arithmetic .mul (.int 2) (.arithmetic .mul (.prop parts.root "a") (.prop parts.root "b"))))) = .ok s ∧
      parseWhere parts parts.root s = .ok r ∧ ∀ (I : Interpretation) (v : Valuation), Expr.Integral v →
        r.eval I v = Expr.eval I v
          (.arithmetic .add (.prop parts.root "a") (.arithmetic .sub (.negate (.prop parts.root "b"))
            (.arithmetic .mul (.int 2) (.arithmetic .mul (.prop parts.root "a") (.prop parts.root "b"))))) := by
  have ha : (Expr.prop parts.root "a").IsArithmetic parts.root := .property (by decide)
  have hb : (Expr.prop parts.root "b").IsArithmetic parts.root := .property (by decide)
  have htwo : (Expr.int 2).IsArithmetic parts.root := .integer (by decide)
  have hproduct := Expr.IsArithmetic.operation .mul nofun htwo (.operation .mul nofun ha hb)
  obtain ⟨s, r, hs, hread, hvalue⟩ := eval_parseWhere_renderExpr {} rootOnly_parts
    (.operation .add nofun ha (.operation .sub nofun (.negate hb) hproduct)) rfl
  exact ⟨s, r, hs, hread, hvalue rfl⟩

/-- The properties `a`, `b` and `c` are 3, 1 and 2. -/
def threeOneTwo : Valuation where
  property p := .integer (if p.name = "a" then 3 else if p.name = "b" then 1 else 2)
  parameter _ := none

/-- A property by itself is written as a test, and a quotient below a product is read as a quotient of products. -/
theorem eval_parseWhere_renderExpr_ne :
    (∃ s r, renderExpr {} parts .sqlServer (.prop parts.root "a") = .ok s ∧ parseWhere parts parts.root s = .ok r ∧
      ∀ I : Interpretation, r.eval I threeOneTwo ≠ Expr.eval I threeOneTwo (.prop parts.root "a")) ∧
    ∃ s r, renderExpr {} parts .sqlServer (.arithmetic .mul (.prop parts.root "a")
        (.arithmetic .div (.prop parts.root "b") (.prop parts.root "c"))) = .ok s ∧
      parseWhere parts parts.root s = .ok r ∧
      ∀ I : Interpretation, r.eval I threeOneTwo ≠ Expr.eval I threeOneTwo (.arithmetic .mul (.prop parts.root "a")
        (.arithmetic .div (.prop parts.root "b") (.prop parts.root "c"))) := by
  have ha : (Expr.prop parts.root "a").IsArithmetic parts.root := .property (by decide)
  have hb : (Expr.prop parts.root "b").IsArithmetic parts.root := .property (by decide)
  have hc : (Expr.prop parts.root "c").IsArithmetic parts.root := .property (by decide)
  constructor
  · -- The text is that of a comparison with one.
    have htest : Written parts.root (fun _ => False) false (.comparison .eq (.prop parts.root "a") (.int 1)) :=
      .comparison ha.written (.integer (by decide))
    obtain ⟨s, hs, hread⟩ := htest.parseWhere (rootOnly_parts.agree {} (by simp) (by simp))
    refine ⟨s, _, ?_, hread, fun I => ?_⟩
    · rw [renderExpr, rootOnly_parts.make]
      exact hs
    · simp [threeOneTwo, Expr.prop, Expr.int, Value.ofTruth, Value.compare, Value.order?, Value.ofLiteral]
  · obtain ⟨s, hs, hread⟩ := parseWhere_arithmetic {} rootOnly_parts
      (.operation .mul (by simp) ha (.operation .div (by simp) hb hc)) rfl
    refine ⟨s, _, hs, hread, fun I => ?_⟩
    simp [threeOneTwo, Expr.prop, Value.arithmetic, ArithmeticOp.isAssociative, ArithmeticOp.precedence]

end Sql
end ItemQuery
