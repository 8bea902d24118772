import ItemQuery.Proofs.Expr.Tables
import ItemQuery.Proofs.Normalize.FixedPoint

/-! The shape of normal forms. Negations stand in front of what has no opposite of its own, truth values and bare
    properties are no operands of a connective, and ranges and lists record the one table that they are about. All of
    this is seen at single nodes that no rule applies to any more. The rules only move references or leave them out, so
    a normal form refers to nothing that the criterion did not refer to. -/

namespace ItemQuery.Expr

variable {P : Expr → Prop} {d e l r n : Expr}

/-! ### Nodes -/

/-- Whether a criterion has an opposite that is no negation of it. -/
def hasOpposite : Expr → Bool
  | literal (.bool _) | property _ | not _ | comparison _ _ _ | like _ _ _ | between _ _ _ _ _ | inList _ _ _ _
  | is _ _ | logical _ _ _ => true
  | _ => false

/-- The recorded table is the one that the operands refer to, and none is recorded if they refer to none. -/
structure Records (table : Option TableId) (operands : List Expr) : Prop where
  some : ∀ t, table = some t ↔ (∃ e ∈ operands, t ∈ e.tableRefs) ∧ ∀ e ∈ operands, ∀ u ∈ e.tableRefs, u = t
  none : table = none ↔ ∀ e ∈ operands, e.tableRefs = []

/-- A node of a normal form. -/
def Normal : Expr → Prop
  | not e => e.hasOpposite = false
  | logical _ l r => l.Standing ∧ r.Standing
  | between l low high _ table => Records table [l, low, high]
  | inList l items _ table => Records table (l :: items)
  | _ => True

theorem hasOpposite_eq_false (h : e.asCondition.opposite = not e) : e.hasOpposite = false := by
  cases e with
  | literal value => cases value <;> first | rfl | cases h
  | property | not | comparison | like | between | inList | is | logical => cases h
  | _ => rfl

theorem records_of_singleTable {operator : String} {operands : List Expr} {table : Option TableId}
    (h : singleTable operator operands = .ok table) : Records table operands := by
  have hmem : ∀ t, t ∈ operands.flatMap tables ↔ ∃ e ∈ operands, t ∈ e.tableRefs := by
    simp [mem_tables]
  unfold singleTable at h
  split at h
  next hnil =>
    cases h
    have hnone : ∀ e ∈ operands, e.tableRefs = [] := by
      intro e he
      refine List.eq_nil_iff_forall_not_mem.mpr fun t ht => ?_
      have ht := (hmem t).mpr ⟨e, he, ht⟩
      rw [hnil] at ht
      cases ht
    refine ⟨fun t => ⟨nofun, ?_⟩, ⟨fun _ => hnone, fun _ => rfl⟩⟩
    rintro ⟨⟨e, he, ht⟩, -⟩
    rw [hnone e he] at ht
    cases ht
  next first rest hrefs =>
    split at h
    next hrest =>
      cases h
      have hfirst : ∃ e ∈ operands, first ∈ e.tableRefs := (hmem first).mp (hrefs ▸ List.mem_cons_self)
      have hsame : ∀ e ∈ operands, ∀ u ∈ e.tableRefs, u = first := by
        intro e he u hu
        have hu : u ∈ first :: rest := hrefs ▸ (hmem u).mpr ⟨e, he, hu⟩
        rcases List.mem_cons.mp hu with rfl | hu
        · rfl
        · simpa using List.find?_eq_none.mp hrest u hu
      obtain ⟨e, he, ht⟩ := hfirst
      refine ⟨fun t => ⟨?_, fun ⟨_, hall⟩ => congrArg some (hall e he first ht)⟩, ⟨nofun, fun hnone => ?_⟩⟩
      · rintro ⟨⟩
        exact ⟨⟨e, he, ht⟩, hsame⟩
      · rw [hnone e he] at ht
        cases ht
    next => cases h

/-- A node that no rule applies to is a node of a normal form. -/
theorem Still.normal (h : e.Still) : e.Normal := by
  cases e with
  | not e => exact hasOpposite_eq_false h
  | logical op l r => exact h
  | between l low high negated table => exact records_of_singleTable h
  | inList l items negated table => exact records_of_singleTable h
  | _ => trivial

/-! ### References -/

/-- A reference to a property or to all properties, or a text whose type is that of a property. -/
def IsReference : Expr → Prop
  | property _ | allProperties _ _ | object _ => True
  | _ => False

/-- Of all references of the tree. -/
def Refers (P : Expr → Prop) (e : Expr) : Prop :=
  e.Everywhere fun d => d.IsReference → P d

theorem refers_iff : e.Refers P ↔ (e.IsReference → P e) ∧ ∀ d ∈ e.children, d.Refers P :=
  everywhere_iff

/-- A node that is no reference refers to what its parts refer to. -/
theorem refers_node (h : ¬e.IsReference) : e.Refers P ↔ ∀ d ∈ e.children, d.Refers P := by
  rw [refers_iff, and_iff_right fun href => absurd href h]

@[simp] theorem refers_literal (value : Literal) : (literal value).Refers P :=
  (refers_node id).mpr nofun

@[simp] theorem refers_pattern (value : Pattern) : (pattern value).Refers P :=
  (refers_node id).mpr nofun

@[simp] theorem refers_comparison {op : ComparisonOp} : (comparison op l r).Refers P ↔ l.Refers P ∧ r.Refers P := by
  simp [refers_node (e := comparison op l r) id, children]

@[simp] theorem refers_like {negated : Bool} : (like l r negated).Refers P ↔ l.Refers P ∧ r.Refers P := by
  simp [refers_node (e := like l r negated) id, children]

@[simp] theorem refers_arithmetic {op : ArithmeticOp} : (arithmetic op l r).Refers P ↔ l.Refers P ∧ r.Refers P := by
  simp [refers_node (e := arithmetic op l r) id, children]

@[simp] theorem refers_logical {op : LogicalOp} : (logical op l r).Refers P ↔ l.Refers P ∧ r.Refers P := by
  simp [refers_node (e := logical op l r) id, children]

@[simp] theorem refers_negate : (negate e).Refers P ↔ e.Refers P := by
  simp [refers_node (e := negate e) id, children]

@[simp] theorem refers_not : (not e).Refers P ↔ e.Refers P := by
  simp [refers_node (e := not e) id, children]

@[simp] theorem refers_call {f : Function} {args : List Expr} : (call f args).Refers P ↔ ∀ d ∈ args, d.Refers P :=
  refers_node (e := call f args) id

theorem Refers.asCondition (h : e.Refers P) : e.asCondition.Refers P := by
  unfold Expr.asCondition
  split
  next => exact refers_comparison.mpr ⟨h, refers_literal _⟩
  next => exact h

theorem Refers.opposite (h : e.Refers P) : e.opposite.Refers P := by
  fun_induction Expr.opposite e with
  | case1 b => exact refers_literal _
  | case2 e => exact refers_not.mp h
  | case3 op l r => exact refers_comparison.mpr (refers_comparison.mp h)
  | case4 l p negated => exact refers_like.mpr (refers_like.mp h)
  | case5 | case6 | case7 =>
    obtain ⟨-, hparts⟩ := refers_iff.mp h
    exact (refers_node id).mpr hparts
  | case8 op l r ihl ihr => exact refers_logical.mpr ((refers_logical.mp h).imp ihl ihr)
  | case9 e => exact refers_not.mpr h.asCondition

theorem Refers.connect (op : LogicalOp) (hl : l.Refers P) (hr : r.Refers P) : (connect op l r).Refers P := by
  fun_cases Expr.connect op l r with
  | case1 | case5 => exact hr
  | case2 | case6 => exact hl
  | case3 | case4 | case7 | case8 => exact refers_literal _
  | case9 => exact refers_logical.mpr ⟨hl, hr⟩

theorem Refers.foldArithmetic (op : ArithmeticOp) (hl : l.Refers P) (hr : r.Refers P) :
    (foldArithmetic op l r).Refers P := by
  unfold Expr.foldArithmetic
  split
  next a b => cases foldLiterals op a b <;> simp
  next => exact refers_arithmetic.mpr ⟨hl, hr⟩

theorem Refers.foldNegate (h : e.Refers P) : e.foldNegate.Refers P := by
  unfold Expr.foldNegate
  split
  next n => cases Number.neg? n <;> simp [int]
  next => exact refers_literal _
  next => exact refers_negate.mp h
  next => exact refers_negate.mpr h

theorem Refers.placeTest (op : ComparisonOp) {args : List Expr} (h : ∀ d ∈ args, d.Refers P) (place : Int64) :
    (placeTest op args place).Refers P := by
  have hcall : ∀ f, (call f args).Refers P := fun f => refers_call.mpr h
  fun_cases Expr.placeTest op args place with
  | case1 | case3 | case4 | case5 => exact hcall _
  | case2 => exact refers_not.mpr (hcall _)
  | case6 | case7 => exact refers_comparison.mpr ⟨hcall _, refers_literal _⟩

theorem Refers.simplifyOrdered (op : ComparisonOp) (hl : l.Refers P) (hr : r.Refers P) :
    (simplifyOrdered op l r).Refers P := by
  fun_cases Expr.simplifyOrdered op l r with
  | case1 => exact hl
  | case2 => exact hl.opposite
  | case4 args k c shifted => exact .placeTest op (refers_call.mp (refers_arithmetic.mp hl).1) shifted
  | case6 args c => exact .placeTest op (refers_call.mp hl) c
  | case3 | case5 | case7 => exact refers_comparison.mpr ⟨hl, hr⟩

theorem Refers.simplifyComparison (op : ComparisonOp) (hl : l.Refers P) (hr : r.Refers P) :
    (simplifyComparison op l r).Refers P := by
  fun_cases Expr.simplifyComparison op l r with
  | case1 => exact refers_literal _
  | case2 => exact hl.simplifyOrdered op hr
  | case3 l r hliterals hswaps =>
    rw [if_pos hswaps]
    exact hr.simplifyOrdered op.flip hl
  | case4 l r hliterals hswaps =>
    rw [if_neg hswaps]
    exact hl.simplifyOrdered op hr

theorem Refers.simplifyLike (negated : Bool) (hl : l.Refers P) (hr : r.Refers P) :
    (simplifyLike l r negated).Refers P := by
  fun_cases Expr.simplifyLike l r negated with
  | case1 => exact refers_comparison.mpr ⟨hl, refers_literal _⟩
  | case2 => exact refers_like.mpr ⟨hl, refers_pattern _⟩
  | case3 => exact refers_like.mpr ⟨hl, hr⟩

/-- The rules bring in no reference. -/
theorem Becomes.refers (h : e.Becomes n) (he : e.Refers P) : n.Refers P := by
  induction h with
  | leaf => exact he
  | parameter _ ih =>
    rw [refers_node id] at he ⊢
    exact List.forall_mem_singleton.mpr (ih (List.forall_mem_singleton.mp he))
  | list hns _ ih =>
    rw [refers_node id] at he ⊢
    exact forall_mem_normalizeList hns fun d hd m hm => ih d hd m hm (he d hd)
  | call hns _ ih =>
    rw [refers_call] at he ⊢
    exact forall_mem_normalizeList hns fun d hd m hm => ih d hd m hm (he d hd)
  | comparison _ _ ihl ihr =>
    obtain ⟨hl, hr⟩ := refers_comparison.mp he
    exact (ihl hl).simplifyComparison _ (ihr hr)
  | like _ _ ihl ihp =>
    obtain ⟨hl, hp⟩ := refers_like.mp he
    exact (ihl hl).simplifyLike _ (ihp hp)
  | between _ _ _ _ ihl ihlow ihhigh =>
    rw [refers_node id] at he ⊢
    simp only [children, List.forall_mem_cons] at he ⊢
    obtain ⟨hl, hlow, hhigh, hnil⟩ := he
    exact ⟨ihl hl, ihlow hlow, ihhigh hhigh, hnil⟩
  | inList _ hns _ _ ihl ih =>
    rw [refers_node id] at he ⊢
    obtain ⟨hl, hitems⟩ := List.forall_mem_cons.mp he
    exact List.forall_mem_cons.mpr
      ⟨ihl hl, forall_mem_normalizeList hns fun d hd m hm => ih d hd m hm (hitems d hd)⟩
  | is _ ih =>
    rw [refers_node id] at he ⊢
    exact List.forall_mem_singleton.mpr (ih (List.forall_mem_singleton.mp he))
  | arithmetic _ _ ihl ihr =>
    obtain ⟨hl, hr⟩ := refers_arithmetic.mp he
    exact (ihl hl).foldArithmetic _ (ihr hr)
  | negate _ ih => exact (ih (refers_negate.mp he)).foldNegate
  | not _ ih => exact (ih (refers_not.mp he)).asCondition.opposite
  | logical _ _ ihl ihr =>
    obtain ⟨hl, hr⟩ := refers_logical.mp he
    exact (ihl hl).asCondition.connect _ (ihr hr).asCondition

/-! ### Normal forms -/

/-- A normal form is no bare property, all of its nodes are normal, and its references are references of the criterion. -/
theorem normal_of_normalize (h : e.normalize = .ok n) :
    n.Everywhere Normal ∧ (∀ p, n ≠ property p) ∧ ∀ d : Expr, d.IsReference → d.Within n → d.Within e := by
  obtain ⟨m, hm, rfl⟩ := Result.map_eq_ok.mp h
  have hreduced : m.asCondition.Reduced := (becomes_of_normalizeTree e m hm).reduced.asCondition
  have hown : e.Refers (·.Within e) := fun d hd _ => hd
  have hrefers : m.asCondition.Refers (·.Within e) := ((becomes_of_normalizeTree e m hm).refers hown).asCondition
  exact ⟨fun d hd => (hreduced d hd).normal, asCondition_ne_property m, fun d href hd => hrefers d hd href⟩

/-- A negated alternative of a range, a flag, a place and a call that is no test. -/
theorem normal_of_normalize_not_or :
    let t : TableId := ⟨0, 0⟩
    let range : Expr := .between (.prop t "cost") (.int 1) (.prop t "limit") false none
    let call : Expr := .call (.other "is_open") [.prop t "name"]
    let e : Expr := .not (.or (.or range (.prop t "locked")) (.and (.bool true) call))
    let n : Expr := .and (.and (.between (.prop t "cost") (.int 1) (.prop t "limit") true (some t))
      (.comparison .ne (.prop t "locked") (.bool true))) (.not call)
    e.normalize = .ok n ∧
      n.Everywhere Normal ∧ (∀ p, n ≠ property p) ∧ ∀ d : Expr, d.IsReference → d.Within n → d.Within e := by
  intro t range call e n
  have hn : e.normalize = .ok n := by rfl
  exact ⟨hn, normal_of_normalize hn⟩

end ItemQuery.Expr
