import ItemQuery.Normalize
import ItemQuery.Proofs.Expr.Nodes
import ItemQuery.Proofs.Result

/-! What trees become. The parts of a node are simplified first, then the rule of the node is applied to them. What each
    rule keeps is kept for whole trees by induction on this. -/

namespace ItemQuery.Expr

/-- What a tree becomes: the parts change first, then the rule of the node is applied. -/
inductive Becomes : Expr → Expr → Prop
  | leaf {e : Expr} (h : e.children = []) : Becomes e e
  | parameter {name : ParamName} {raw : Bool} {d d' : Expr} (h : Becomes d d') :
      Becomes (parameter name (some d) raw) (parameter name (some d') raw)
  | list {items ns : List Expr} (hns : normalizeList items = .ok ns)
      (h : ∀ e ∈ items, ∀ n, e.normalizeTree = .ok n → Becomes e n) : Becomes (list items) (list ns)
  | comparison {op : ComparisonOp} {l r l' r' : Expr} (hl : Becomes l l') (hr : Becomes r r') :
      Becomes (comparison op l r) (simplifyComparison op l' r')
  | like {l p l' p' : Expr} {negated : Bool} (hl : Becomes l l') (hp : Becomes p p') :
      Becomes (like l p negated) (simplifyLike l' p' negated)
  | between {l low high l' low' high' : Expr} {negated : Bool} {table table' : Option TableId} (hl : Becomes l l')
      (hlow : Becomes low low') (hhigh : Becomes high high')
      (htable : singleTable "between" [l', low', high'] = .ok table') :
      Becomes (between l low high negated table) (between l' low' high' negated table')
  | inList {l l' : Expr} {items ns : List Expr} {negated : Bool} {table table' : Option TableId} (hl : Becomes l l')
      (hns : normalizeList items = .ok ns) (h : ∀ e ∈ items, ∀ n, e.normalizeTree = .ok n → Becomes e n)
      (htable : singleTable "in" (l' :: ns) = .ok table') :
      Becomes (inList l items negated table) (inList l' ns negated table')
  | is {l l' : Expr} {operand : IsOperand} (hl : Becomes l l') : Becomes (is l operand) (is l' operand)
  | arithmetic {op : ArithmeticOp} {l r l' r' : Expr} (hl : Becomes l l') (hr : Becomes r r') :
      Becomes (arithmetic op l r) (foldArithmetic op l' r')
  | negate {e e' : Expr} (h : Becomes e e') : Becomes (negate e) e'.foldNegate
  | not {e e' : Expr} (h : Becomes e e') : Becomes (not e) e'.asCondition.opposite
  | logical {op : LogicalOp} {l r l' r' : Expr} (hl : Becomes l l') (hr : Becomes r r') :
      Becomes (logical op l r) (connect op l'.asCondition r'.asCondition)
  | call {function : Function} {args ns : List Expr} (hns : normalizeList args = .ok ns)
      (h : ∀ e ∈ args, ∀ n, e.normalizeTree = .ok n → Becomes e n) : Becomes (call function args) (call function ns)

theorem becomes_of_normalizeTree (e : Expr) : ∀ n, e.normalizeTree = .ok n → e.Becomes n := by
  induction e using induction_children with
  | h e ih =>
  intro n hn
  cases e with
  | literal | object | property | allProperties | pattern =>
    cases hn
    exact .leaf rfl
  | parameter name default raw =>
    obtain ⟨d, hd, hn⟩ := Result.bind_eq_ok.mp hn
    cases Result.pure_eq_ok.mp hn
    cases default with
    | none =>
      cases hd
      exact .leaf rfl
    | some e =>
      obtain ⟨m, hm, hd⟩ := Result.bind_eq_ok.mp hd
      cases Result.pure_eq_ok.mp hd
      exact .parameter (ih e (by simp [children]) m hm)
  | list items =>
    obtain ⟨ns, hns, hn⟩ := Result.bind_eq_ok.mp hn
    cases Result.pure_eq_ok.mp hn
    exact .list hns ih
  | comparison op l r =>
    obtain ⟨l', hl, hn⟩ := Result.bind_eq_ok.mp hn
    obtain ⟨r', hr, hn⟩ := Result.bind_eq_ok.mp hn
    cases Result.pure_eq_ok.mp hn
    exact .comparison (ih l (by simp [children]) l' hl) (ih r (by simp [children]) r' hr)
  | like l p negated =>
    obtain ⟨l', hl, hn⟩ := Result.bind_eq_ok.mp hn
    obtain ⟨p', hp, hn⟩ := Result.bind_eq_ok.mp hn
    cases Result.pure_eq_ok.mp hn
    exact .like (ih l (by simp [children]) l' hl) (ih p (by simp [children]) p' hp)
  | between l low high negated table =>
    obtain ⟨l', hl, hn⟩ := Result.bind_eq_ok.mp hn
    obtain ⟨low', hlow, hn⟩ := Result.bind_eq_ok.mp hn
    obtain ⟨high', hhigh, hn⟩ := Result.bind_eq_ok.mp hn
    obtain ⟨table', htable, hn⟩ := Result.bind_eq_ok.mp hn
    cases Result.pure_eq_ok.mp hn
    exact .between (ih l (by simp [children]) l' hl) (ih low (by simp [children]) low' hlow)
      (ih high (by simp [children]) high' hhigh) htable
  | inList l items negated table =>
    obtain ⟨l', hl, hn⟩ := Result.bind_eq_ok.mp hn
    obtain ⟨ns, hns, hn⟩ := Result.bind_eq_ok.mp hn
    obtain ⟨table', htable, hn⟩ := Result.bind_eq_ok.mp hn
    cases Result.pure_eq_ok.mp hn
    exact .inList (ih l List.mem_cons_self l' hl) hns (fun e he => ih e (List.mem_cons_of_mem l he)) htable
  | is l operand =>
    obtain ⟨l', hl, hn⟩ := Result.bind_eq_ok.mp hn
    cases Result.pure_eq_ok.mp hn
    exact .is (ih l (by simp [children]) l' hl)
  | arithmetic op l r =>
    obtain ⟨l', hl, hn⟩ := Result.bind_eq_ok.mp hn
    obtain ⟨r', hr, hn⟩ := Result.bind_eq_ok.mp hn
    cases Result.pure_eq_ok.mp hn
    exact .arithmetic (ih l (by simp [children]) l' hl) (ih r (by simp [children]) r' hr)
  | negate e =>
    obtain ⟨e', he, hn⟩ := Result.bind_eq_ok.mp hn
    cases Result.pure_eq_ok.mp hn
    exact .negate (ih e (by simp [children]) e' he)
  | not e =>
    obtain ⟨e', he, hn⟩ := Result.bind_eq_ok.mp hn
    cases Result.pure_eq_ok.mp hn
    exact .not (ih e (by simp [children]) e' he)
  | logical op l r =>
    obtain ⟨l', hl, hn⟩ := Result.bind_eq_ok.mp hn
    obtain ⟨r', hr, hn⟩ := Result.bind_eq_ok.mp hn
    cases Result.pure_eq_ok.mp hn
    exact .logical (ih l (by simp [children]) l' hl) (ih r (by simp [children]) r' hr)
  | call function args =>
    obtain ⟨ns, hns, hn⟩ := Result.bind_eq_ok.mp hn
    cases Result.pure_eq_ok.mp hn
    exact .call hns ih

/-! ### Lists -/

theorem mem_of_normalizeList {es ns : List Expr} (h : normalizeList es = .ok ns) {n : Expr} (hn : n ∈ ns) :
    ∃ e ∈ es, e.normalizeTree = .ok n := by
  induction es generalizing ns with
  | nil =>
    cases h
    cases hn
  | cons e es ih =>
    obtain ⟨m, hm, h⟩ := Result.bind_eq_ok.mp h
    obtain ⟨ms, hms, h⟩ := Result.bind_eq_ok.mp h
    cases Result.pure_eq_ok.mp h
    rcases List.mem_cons.mp hn with rfl | hn
    · exact ⟨e, List.mem_cons_self, hm⟩
    · obtain ⟨d, hd, hdn⟩ := ih hms hn
      exact ⟨d, List.mem_cons_of_mem e hd, hdn⟩

/-- What holds of whatever the members become holds of the members of the normalized list. -/
theorem forall_mem_normalizeList {P : Expr → Prop} {es ns : List Expr} (hns : normalizeList es = .ok ns)
    (h : ∀ e ∈ es, ∀ n, e.normalizeTree = .ok n → P n) : ∀ n ∈ ns, P n := by
  intro n hn
  obtain ⟨e, he, hen⟩ := mem_of_normalizeList hns hn
  exact h e he n hen

end ItemQuery.Expr
