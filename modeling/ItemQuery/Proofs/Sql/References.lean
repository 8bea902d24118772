import ItemQuery.Proofs.Expr.Tables
import ItemQuery.Proofs.Result
import ItemQuery.Sql.Where

/-! A fragment speaks of its own table only, whatever its text says: names are properties of that table or are
    refused, and what the machine makes of its operands is about no more tables than they are. Reading looks up no
    handle, so it cannot fail on a dead one. -/

namespace ItemQuery

/-! ### Tokens and patterns -/

theorem Pattern.safe_wildcardPieces (s : WildcardSyntax) (position : Nat) (cs : List Char) :
    (wildcardPieces s position cs).Safe fun _ => True := by
  fun_induction wildcardPieces s position cs <;> simp_all

theorem Pattern.safe_ofWildcard (s : WildcardSyntax) (value : String) : (ofWildcard s value).Safe fun _ => True := by
  simpa [ofWildcard, ofWildcardRaw] using safe_wildcardPieces s 0 value.toList

namespace Sql

theorem safe_scanAll (fuel offset : Nat) (cs : List Char) : (scanAll fuel offset cs).Safe fun _ => True := by
  fun_induction scanAll fuel offset cs <;> simp_all

theorem safe_tokenize (sql : String) : (tokenize sql).Safe fun _ => True := by
  simpa [tokenize] using safe_scanAll (sql.toList.length + 1) 0 sql.toList

variable {P : TableId → Prop}

/-! ### Names and functions -/

theorem safe_numberValue (t : Token) : (numberValue t).Safe (Expr.Among P) := by
  unfold numberValue
  dsimp only
  split
  next => simp
  next => split <;> simp

theorem Scope.among_property {scope : Scope} (hscope : P scope.table) (name : String) :
    (scope.property name).Among P := by
  unfold Scope.property
  split <;> simpa

theorem Scope.safe_value {scope : Scope} (hscope : P scope.table) (t : Token) :
    (scope.value t).Safe (Expr.Among P) := by
  unfold Scope.value
  split
  next => simp
  next => simp
  next =>
    split
    next => simp
    split
    next => simp
    dsimp only
    split
    next name _ => exact .ok (scope.among_property hscope name)
    next owner name _ =>
      split
      next => exact .ok (scope.among_property hscope name)
      next => simp
    next => simp

theorem safe_datePart {args : List Expr} (hargs : ∀ e ∈ args, e.Among P) (name : String) :
    (datePart name args).Safe fun part => ∀ e ∈ part.2, e.Among P := by
  unfold datePart
  split <;> simp_all

theorem safe_partCall {args : List Expr} (hargs : ∀ e ∈ args, e.Among P) (name shown : String)
    (select : String → Option Function) {order : List Expr → List Expr} (horder : ∀ es, ∀ e ∈ order es, e ∈ es) :
    (partCall name shown select order args).Safe (Expr.Among P) := by
  have hpart := safe_datePart hargs name
  unfold partCall
  split
  next err herr => exact hpart.of_eq_error herr
  next part rest hrest =>
    split
    next f _ => exact .ok (Expr.among_call.mpr fun e he => hpart.of_eq_ok hrest e (horder rest e he))
    next => simp

theorem safe_callValue {args : List Expr} (hargs : ∀ e ∈ args, e.Among P) (name : String) :
    (callValue name args).Safe (Expr.Among P) := by
  unfold callValue
  -- All but five names make a call of the arguments as they are.
  split <;> try exact .ok (Expr.among_call.mpr hargs)
  · split <;> simp_all
  · split <;> simp_all
  · exact safe_partCall hargs _ _ _ fun _ _ he => he
  · exact safe_partCall hargs _ _ _ fun _ _ he => List.mem_reverse.mp he
  · exact safe_partCall hargs _ _ _ fun _ _ he => he

/-! ### Operators -/

/-- All tables that the operand is about satisfy `P`. -/
def Operand.Among (P : TableId → Prop) : Operand → Prop
  | expr e => e.Among P
  | null => True
  | list items => ∀ e ∈ items, e.Among P
  | range low high => low.Among P ∧ high.Among P

@[simp] theorem Operand.among_expr {e : Expr} : (expr e).Among P ↔ e.Among P :=
  .rfl

@[simp] theorem Operand.among_null : null.Among P :=
  trivial

@[simp] theorem Operand.among_list {items : List Expr} : (list items).Among P ↔ ∀ e ∈ items, e.Among P :=
  .rfl

@[simp] theorem Operand.among_range {low high : Expr} : (range low high).Among P ↔ low.Among P ∧ high.Among P :=
  .rfl

theorem Operand.Among.safe_toExpr {operand : Operand} (h : operand.Among P) (offset : Nat) :
    (operand.toExpr offset).Safe (Expr.Among P) := by
  cases operand with
  | expr e => exact .ok h
  | null => simp [toExpr]
  | list items => exact .ok (Expr.among_list.mpr h)
  | range low high => simp [toExpr]

theorem safe_likePattern {e : Expr} (h : e.Among P) : (likePattern e).Safe (Expr.Among P) := by
  unfold likePattern
  split
  next s => exact (Pattern.safe_ofWildcard _ s).map fun _ _ => Expr.among_pattern
  next => exact .ok h

theorem safe_combine {left : Expr} {right : Operand} (hleft : left.Among P) (hright : right.Among P) (op : BinaryOp)
    (offset : Nat) : (combine op left right offset).Safe (Expr.Among P) := by
  have hexpr := hright.safe_toExpr offset
  cases op with
  | logical op => exact hexpr.map fun e he => Expr.among_logical.mpr ⟨hleft, he⟩
  | comparison op =>
    cases right with
    | null => simp [combine]
    | range low high => simp [combine, Operand.toExpr]
    | expr | list => exact hexpr.map fun e he => Expr.among_comparison.mpr ⟨hleft, he⟩
  | arithmetic op => exact hexpr.map fun e he => Expr.among_arithmetic.mpr ⟨hleft, he⟩
  | like negated =>
    refine hexpr.bind fun e he => (safe_likePattern he).bind fun pattern hpattern => ?_
    exact .ok (Expr.among_like.mpr ⟨hleft, hpattern⟩)
  | inList negated =>
    unfold combine
    dsimp only
    split <;> simp_all
  | between negated =>
    unfold combine
    dsimp only
    split <;> simp_all
  | is negated =>
    unfold combine
    dsimp only
    split <;> simp_all
  | betweenAnd => simp [combine]

theorem safe_apply {operands : List Operand} (h : ∀ o ∈ operands, o.Among P) (op : Pending) :
    (op.apply operands).Safe fun left => ∀ o ∈ left, o.Among P := by
  fun_cases Pending.apply op operands with
  | case1 => simp
  | case2 op offset operand rest =>
    rw [List.forall_mem_cons] at h
    refine (h.1.safe_toExpr offset).bind fun e he => .ok (List.forall_mem_cons.mpr ⟨?_, h.2⟩)
    cases op <;> simpa using he
  | case3 offset right left rest =>
    simp only [List.forall_mem_cons] at h
    obtain ⟨hright, hleft, hrest⟩ := h
    refine (hleft.safe_toExpr offset).bind fun low hlow => (hright.safe_toExpr offset).bind fun high hhigh => ?_
    exact .ok (List.forall_mem_cons.mpr ⟨⟨hlow, hhigh⟩, hrest⟩)
  | case4 op offset right left rest _ =>
    simp only [List.forall_mem_cons] at h
    obtain ⟨hright, hleft, hrest⟩ := h
    refine (hleft.safe_toExpr offset).bind fun l hl => (safe_combine hl hright op offset).bind fun e he => ?_
    exact .ok (List.forall_mem_cons.mpr ⟨he, hrest⟩)
  | case5 => simp
  | case6 => simp

theorem safe_applyWhile (p : Pending → Bool) {operands : List Operand} (h : ∀ o ∈ operands, o.Among P)
    (operators : List Pending) :
    (applyWhile p operands operators).Safe fun left => ∀ o ∈ left.1, o.Among P := by
  induction operators generalizing operands with
  | nil => exact .ok h
  | cons op rest ih =>
    have happly := safe_apply h op
    rw [applyWhile]
    split
    next =>
      split
      next err herr => exact happly.of_eq_error herr
      next left hleft => exact ih (happly.of_eq_ok hleft)
    next => exact .ok h

/-! ### The machine -/

namespace Machine

variable {m : Machine} {scope : Scope}

/-- All tables that the operands are about satisfy `P`. -/
def Among (P : TableId → Prop) (m : Machine) : Prop :=
  ∀ o ∈ m.operands, o.Among P

theorem Among.safe_reduceWhile (h : m.Among P) (p : Pending → Bool) : (m.reduceWhile p).Safe (Among P) :=
  (safe_applyWhile p h m.operators).map fun _ hleft => hleft

theorem Among.safe_reduceToBracket (h : m.Among P) (offset : Nat) : (m.reduceToBracket offset).Safe (Among P) := by
  refine (h.safe_reduceWhile _).bind fun m' hm' => ?_
  split
  next => simp
  next => exact .ok hm'

theorem safe_requireValue (t : Token) : (m.requireValue t).Safe fun _ => True := by
  unfold requireValue
  split <;> simp

theorem safe_requireOperator (t : Token) : (m.requireOperator t).Safe fun _ => True := by
  unfold requireOperator
  split <;> simp

theorem Among.safe_pushValue (h : m.Among P) (value : Operand) (hvalue : value.Among P) (t : Token) :
    (m.pushValue value t).Safe (Among P) :=
  (safe_requireValue t).bind fun _ _ => .ok (List.forall_mem_cons.mpr ⟨hvalue, h⟩)

theorem safe_bracketValue {items : List Operand} (h : ∀ o ∈ items, o.Among P) (bracket : Bracket) (offset : Nat) :
    (bracketValue bracket items offset).Safe (Operand.Among P) := by
  have hitems : (items.mapM (Operand.toExpr offset)).Safe fun es => ∀ e ∈ es, e.Among P :=
    .mapM fun o ho => (h o ho).safe_toExpr offset
  cases bracket with
  | group =>
    unfold bracketValue
    dsimp only
    split
    next single => exact .ok (h single List.mem_cons_self)
    next => simp
  | inList => exact hitems.map fun _ hes => hes
  | call name => exact hitems.bind fun args hargs => (safe_callValue hargs name).bind fun _ he => .ok he

theorem Among.safe_closeBracket (h : m.Among P) (offset : Nat) : (m.closeBracket offset).Safe (Among P) := by
  unfold closeBracket
  extract_lets collapse
  have hcollapse : ∀ m, m.Among P → (collapse m).Safe (Among P) := by
    intro m hm
    simp only [collapse]
    split
    next bracket height _ operators _ =>
      refine (safe_bracketValue (fun o ho => hm o ?_) bracket offset).bind fun value hvalue => ?_
      · exact List.mem_of_mem_take (List.mem_reverse.mp ho)
      · exact .ok (List.forall_mem_cons.mpr ⟨hvalue, fun o ho => hm o (List.mem_of_mem_drop ho)⟩)
    next => simp
  split
  next => exact hcollapse m h
  split
  next => exact Result.safe_error.mpr nofun
  next => exact (h.safe_reduceToBracket offset).bind hcollapse

theorem Among.safe_pushBinary (h : m.Among P) (op : BinaryOp) (t : Token) : (m.pushBinary op t).Safe (Among P) :=
  (safe_requireOperator t).bind fun _ _ => (h.safe_reduceWhile _).bind fun _ hm => .ok hm

theorem Among.safe_pushKeyword (h : m.Among P) (word : Keyword) (t : Token) : (m.pushKeyword word t).Safe (Among P) := by
  unfold pushKeyword
  split
  next => exact h.safe_pushValue .null trivial t
  next => exact (safe_requireValue t).bind fun _ _ => .ok h
  next =>
    split
    next op _ => exact h.safe_pushBinary op t
    next => exact .ok h

theorem Among.safe_pushComma (h : m.Among P) (t : Token) : (m.pushComma t).Safe (Among P) := by
  refine (safe_requireOperator t).bind fun _ _ => (h.safe_reduceToBracket _).bind fun m hm => ?_
  split
  next => exact .ok hm
  next => exact .ok hm
  next => simp

theorem Among.safe_pushSymbol (h : m.Among P) (hscope : P scope.table) (t : Token) :
    (m.pushSymbol scope t).Safe (Among P) := by
  unfold pushSymbol
  split
  next => exact (safe_requireValue t).bind fun _ _ => .ok h
  split
  next => exact h.safe_closeBracket _
  split
  next => exact h.safe_pushComma t
  split
  next => simp
  split
  next => exact .ok h
  split
  next => exact .ok h
  split
  next => exact h.safe_pushValue (.expr _) (Expr.among_allProperties.mpr hscope) t
  split
  next op _ => exact h.safe_pushBinary op t
  next => simp

theorem Among.safe_push (h : m.Among P) (hscope : P scope.table) (t : Token) : (m.push scope t).Safe (Among P) := by
  unfold push
  split
  next => exact .ok h
  next => exact h.safe_pushValue (.expr _) Expr.among_text t
  next => exact (safe_numberValue t).bind fun e he => h.safe_pushValue (.expr e) he t
  next => exact (Scope.safe_value hscope t).bind fun e he => h.safe_pushValue (.expr e) he t
  next word _ => exact h.safe_pushKeyword word t
  next => exact h.safe_pushSymbol hscope t

theorem Among.safe_feed (h : m.Among P) (hscope : P scope.table) (tokens : List Token) :
    (m.feed scope tokens).Safe (Among P) := by
  fun_induction feed scope m tokens with
  | case1 => exact .ok h
  | case2 m t => exact h.safe_push hscope t
  | case3 m t u rest _ err herr =>
    have hcall : (m.pushCall t).Safe (Among P) := (safe_requireValue t).bind fun _ _ => .ok h
    exact hcall.of_eq_error herr
  | case4 m t u rest _ m' hm' ih =>
    have hcall : (m.pushCall t).Safe (Among P) := (safe_requireValue t).bind fun _ _ => .ok h
    exact ih (hcall.of_eq_ok hm')
  | case5 m t u rest _ err herr =>
    have hpush := h.safe_push hscope t
    exact hpush.of_eq_error herr
  | case6 m t u rest _ m' hm' ih => exact ih ((h.safe_push hscope t).of_eq_ok hm')

theorem Among.safe_finish (h : m.Among P) (stop : Nat) : (m.finish stop).Safe (Operand.Among P) := by
  have happly := safe_applyWhile (fun _ => true) h m.operators
  unfold finish
  split
  next => simp
  split
  next err herr => exact happly.of_eq_error herr
  next => simp
  next operand _ hleft =>
    exact .ok (happly.of_eq_ok hleft operand List.mem_cons_self)
  next => simp

end Machine

/-! ### Fragments -/

theorem safe_parseTokens {scope : Scope} (hscope : P scope.table) (tokens : List Token) (stop : Nat) :
    (parseTokens scope tokens stop).Safe (Expr.Among P) := by
  have hstart : Machine.Among P {} := nofun
  refine (hstart.safe_feed hscope _).bind fun m hm => (hm.safe_finish stop).bind fun operand hoperand => ?_
  exact hoperand.safe_toExpr stop

theorem safe_parseWhere (q : Query) {table : TableId} (htable : P table) (sql : String) :
    (parseWhere q table sql).Safe (Expr.Among P) :=
  (safe_tokenize sql).bind fun tokens _ => safe_parseTokens htable tokens _

theorem safe_parseInList (q : Query) {table : TableId} (htable : P table) (body : String) :
    (parseInList q table body).Safe fun items => ∀ e ∈ items, e.Among P := by
  have hstart : (Machine.openBracket {} .inList 0).Among P := nofun
  refine (safe_tokenize body).bind fun tokens _ => (hstart.safe_feed htable _).bind fun m hm => ?_
  refine (hm.safe_closeBracket _).bind fun m hm => (hm.safe_finish _).bind fun operand hoperand => ?_
  split
  next items => exact .ok hoperand
  next => simp

theorem safe_parseBetween (q : Query) {table : TableId} (htable : P table) (sql : String) :
    (parseBetween q table sql).Safe fun bounds => bounds.1.Among P ∧ bounds.2.Among P := by
  refine (safe_tokenize sql).bind fun tokens _ => ?_
  split
  next => simp
  next before mark after _ =>
    refine (safe_parseTokens htable before _).bind fun low hlow => ?_
    exact (safe_parseTokens htable after _).bind fun high hhigh => .ok ⟨hlow, hhigh⟩

end Sql
end ItemQuery
