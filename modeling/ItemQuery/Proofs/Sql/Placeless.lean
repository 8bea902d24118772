import Mathlib.Data.Nat.Init
import ItemQuery.Proofs.Sql.Chunks
import ItemQuery.Sql.Where

/-! Places do not matter. The offsets of tokens are told in complaints only: tokens at no place give the same expression. -/

namespace ItemQuery
namespace Result

variable {α α' β β' : Type} {x : Result α} {y : Result α'} {g : α → α'} {g' : β → β'}

theorem Agrees.trans {x y z : Result α} (h : Agrees x y) (h' : Agrees y z) : Agrees x z :=
  Eq.trans h h'

theorem agrees_error (err err' : QueryError) : Agrees (.error err : Result α) (.error err') :=
  rfl

/-- Two computations that take corresponding steps. -/
theorem Agrees.bind_map {f : α → Result β} {f' : α' → Result β'} (h : Agrees (x.map g) y)
    (hf : ∀ a, Agrees ((f a).map g') (f' (g a))) : Agrees ((x >>= f).map g') (y >>= f') := by
  cases x with
  | error err =>
    cases y with
    | error err' => exact agrees_error _ _
    | ok b => cases h
  | ok a =>
    cases y with
    | error err' => cases h
    | ok b =>
      cases h
      exact hf a

theorem Agrees.map {x y : Result α} (h : Agrees x y) (f : α → β) : Agrees (x.map f) (y.map f) := by
  cases x with
  | error err =>
    cases y with
    | error err' => exact agrees_error _ _
    | ok b => cases h
  | ok a =>
    cases y with
    | error err' => cases h
    | ok b =>
      cases h
      rfl

theorem Agrees.eq_ok_iff {x y : Result α} (h : Agrees x y) {a : α} : x = .ok a ↔ y = .ok a := by
  rw [← toOption_eq_some, h, toOption_eq_some]

end Result

namespace Sql

open Result

variable {scope : Scope} {m : Machine} {t : Token} {ts : List Token}

/-! ### Operators -/

/-- The operator at no place. -/
def Pending.unplaced : Pending → Pending
  | unary op _ => unary op 0
  | binary op _ => binary op 0
  | opened bracket height _ => opened bracket height 0

/-- The machine without places. -/
def Machine.unplaced (m : Machine) : Machine :=
  { m with operators := m.operators.map Pending.unplaced }

theorem Operand.agrees_toExpr (offset offset' : Nat) (x : Operand) : Agrees (x.toExpr offset) (x.toExpr offset') := by
  cases x <;> rfl

theorem agrees_combine (op : BinaryOp) (left : Expr) (right : Operand) (offset offset' : Nat) :
    Agrees (combine op left right offset) (combine op left right offset') := by
  cases op with
  | like negated => exact (Operand.agrees_toExpr _ _ right).bind fun _ _ => rfl
  | _ => cases right with
    | expr e => cases e <;> rfl
    | _ => rfl

theorem Pending.agrees_apply (op : Pending) (operands : List Operand) :
    Agrees (op.apply operands) (op.unplaced.apply operands) := by
  cases op with
  | opened => exact agrees_error _ _
  | unary op offset =>
    cases operands with
    | nil => exact agrees_error _ _
    | cons x operands => exact (Operand.agrees_toExpr _ _ x).bind fun _ _ => rfl
  | binary op offset =>
    rcases operands with _ | ⟨right, _ | ⟨left, operands⟩⟩
    · exact agrees_error _ _
    · exact agrees_error _ _
    · have hother : Agrees
          (left.toExpr offset >>= fun left => combine op left right offset >>= fun e => pure (Operand.expr e :: operands))
          (left.toExpr 0 >>= fun left => combine op left right 0 >>= fun e => pure (Operand.expr e :: operands)) :=
        (Operand.agrees_toExpr _ _ left).bind fun _ _ => (agrees_combine op _ right _ _).bind fun _ _ => rfl
      cases op with
      | betweenAnd =>
        exact (Operand.agrees_toExpr _ _ left).bind fun _ _ => (Operand.agrees_toExpr _ _ right).bind fun _ _ => rfl
      | _ => exact hother

theorem agrees_applyWhile {p : Pending → Bool} (hp : ∀ op, p op.unplaced = p op) (operands : List Operand)
    (operators : List Pending) :
    Agrees ((applyWhile p operands operators).map fun left => (left.1, left.2.map Pending.unplaced))
      (applyWhile p operands (operators.map Pending.unplaced)) := by
  induction operators generalizing operands with
  | nil => rfl
  | cons op operators ih =>
    simp only [List.map_cons, applyWhile, hp]
    cases p op with
    | false => rfl
    | true =>
      have happly := op.agrees_apply operands
      rw [if_pos rfl, if_pos rfl]
      cases hleft : op.apply operands with
      | error err =>
        rw [hleft] at happly
        cases hright : op.unplaced.apply operands with
        | error err' => exact agrees_error _ _
        | ok operands' =>
          rw [hright] at happly
          cases happly
      | ok operands' =>
        rw [happly.eq_ok_iff.mp hleft]
        exact ih operands'

namespace Machine

theorem agrees_reduceWhile {p : Pending → Bool} (hp : ∀ op, p op.unplaced = p op) (m : Machine) :
    Agrees ((m.reduceWhile p).map unplaced) (m.unplaced.reduceWhile p) := by
  have h := agrees_applyWhile hp m.operands m.operators
  rw [reduceWhile, reduceWhile]
  change Agrees _ ((applyWhile p m.operands (m.operators.map Pending.unplaced)).map _)
  cases hleft : applyWhile p m.operands m.operators with
  | error err =>
    rw [hleft] at h
    cases hright : applyWhile p m.operands (m.operators.map Pending.unplaced) with
    | error err' => exact agrees_error _ _
    | ok left' =>
      rw [hright] at h
      cases h
  | ok left =>
    rw [hleft] at h
    have hright : applyWhile p m.operands (m.operators.map Pending.unplaced) = .ok (left.1, left.2.map Pending.unplaced) :=
      h.eq_ok_iff.mp rfl
    rw [hright]
    rfl

theorem isEmpty_unplaced (m : Machine) : m.unplaced.operators.isEmpty = m.operators.isEmpty := by
  cases h : m.operators <;> simp [unplaced, h]

theorem agrees_reduceToBracket (m : Machine) (offset offset' : Nat) :
    Agrees ((m.reduceToBracket offset).map unplaced) (m.unplaced.reduceToBracket offset') := by
  refine (agrees_reduceWhile (fun op => by cases op <;> rfl) m).bind_map fun m => ?_
  rw [isEmpty_unplaced]
  cases m.operators.isEmpty with
  | true => exact agrees_error _ _
  | false => rfl

theorem agrees_requireValue (m : Machine) (t : Token) : Agrees (m.requireValue t) (m.unplaced.requireValue t.unplaced) := by
  rw [requireValue, requireValue]
  change Agrees _ (if m.wantsValue then _ else _)
  cases m.wantsValue with
  | true => rfl
  | false => exact agrees_error _ _

theorem agrees_requireOperator (m : Machine) (t : Token) :
    Agrees (m.requireOperator t) (m.unplaced.requireOperator t.unplaced) := by
  rw [requireOperator, requireOperator]
  change Agrees _ (if m.wantsValue then _ else _)
  cases m.wantsValue with
  | true => exact agrees_error _ _
  | false => rfl

/-- A step after a check. -/
theorem Agrees.after_check {x y : Result Unit} {k l : Result Machine} (h : Agrees x y) (hk : Agrees (k.map unplaced) l) :
    Agrees ((x >>= fun _ => k).map unplaced) (y >>= fun _ => l) := by
  cases x with
  | error err =>
    cases y with
    | error err' => exact agrees_error _ _
    | ok b => cases h
  | ok a =>
    cases y with
    | error err' => cases h
    | ok b => exact hk

theorem agrees_pushValue (m : Machine) (value : Operand) (t : Token) :
    Agrees ((m.pushValue value t).map unplaced) (m.unplaced.pushValue value t.unplaced) :=
  Agrees.after_check (agrees_requireValue m t) rfl

theorem agrees_bracketValue (bracket : Bracket) (items : List Operand) (offset offset' : Nat) :
    Agrees (bracketValue bracket items offset) (bracketValue bracket items offset') := by
  have hitems : Agrees (items.mapM (Operand.toExpr offset)) (items.mapM (Operand.toExpr offset')) := by
    have h : Agrees ((items.map id).mapM (Operand.toExpr offset)) (items.mapM (Operand.toExpr offset')) :=
      Agrees.mapM fun x _ => Operand.agrees_toExpr _ _ x
    rwa [List.map_id] at h
  cases bracket with
  | group => rcases items with _ | ⟨x, _ | ⟨y, items⟩⟩ <;> rfl
  | inList => exact hitems.map _
  | call name => exact hitems.bind fun _ _ => rfl

theorem isFreshlyOpened_unplaced (m : Machine) : m.unplaced.isFreshlyOpened = m.isFreshlyOpened := by
  obtain ⟨operands, operators, wantsValue⟩ := m
  rcases operators with _ | ⟨op, operators⟩
  · rfl
  · cases op <;> rfl

/-- The machine with the innermost parenthesis replaced by its value. -/
def collapse (m : Machine) (offset : Nat) : Result Machine :=
  match m.operators with
  | .opened bracket height _ :: operators =>
    let count := m.operands.length - height
    (bracketValue bracket (m.operands.take count).reverse offset).map fun value =>
      { operands := value :: m.operands.drop count, operators, wantsValue := false }
  | _ => .error (.parse offset "unbalanced ')'")

/-- The machine with nothing above the innermost parenthesis. -/
def settle (m : Machine) (offset : Nat) : Result Machine :=
  if m.isFreshlyOpened then .ok m
  else if m.wantsValue then .error (.parse offset "unexpected ')'")
  else m.reduceToBracket offset

theorem closeBracket_eq (m : Machine) (offset : Nat) :
    m.closeBracket offset = m.settle offset >>= fun m => m.collapse offset := by
  rw [settle, closeBracket]
  cases m.isFreshlyOpened with
  | true => rfl
  | false =>
    cases m.wantsValue with
    | true => rfl
    | false => rfl

theorem agrees_settle (m : Machine) (offset offset' : Nat) :
    Agrees ((m.settle offset).map unplaced) (m.unplaced.settle offset') := by
  rw [settle, settle, isFreshlyOpened_unplaced]
  change Agrees _ (if _ then _ else if m.wantsValue then _ else _)
  cases m.isFreshlyOpened with
  | true => rfl
  | false =>
    cases m.wantsValue with
    | true => exact agrees_error _ _
    | false => exact agrees_reduceToBracket m offset offset'

theorem agrees_collapse (m : Machine) (offset offset' : Nat) :
    Agrees ((m.collapse offset).map unplaced) (m.unplaced.collapse offset') := by
  obtain ⟨operands, operators, wantsValue⟩ := m
  rcases operators with _ | ⟨op, operators⟩
  · exact agrees_error _ _
  · cases op with
    | opened bracket height opened =>
      have hvalue := agrees_bracketValue bracket (operands.take (operands.length - height)).reverse offset offset'
      have hmap := hvalue.map fun value =>
        (⟨value :: operands.drop (operands.length - height), operators.map Pending.unplaced, false⟩ : Machine)
      refine Agrees.trans ?_ hmap
      change Agrees (((bracketValue bracket _ offset).map _).map unplaced) _
      cases bracketValue bracket (operands.take (operands.length - height)).reverse offset <;> rfl
    | unary => exact agrees_error _ _
    | binary => exact agrees_error _ _

theorem agrees_closeBracket (m : Machine) (offset offset' : Nat) :
    Agrees ((m.closeBracket offset).map unplaced) (m.unplaced.closeBracket offset') := by
  rw [closeBracket_eq, closeBracket_eq]
  exact (agrees_settle m offset offset').bind_map fun m => agrees_collapse m offset offset'

theorem bindsBefore_unplaced (p : Precedence) (op : Pending) : op.unplaced.bindsBefore p = op.bindsBefore p := by
  cases op with
  | unary op offset => cases op <;> rfl
  | _ => rfl

theorem agrees_pushBinary (m : Machine) (op : BinaryOp) (t : Token) :
    Agrees ((m.pushBinary op t).map unplaced) (m.unplaced.pushBinary op t.unplaced) := by
  refine Agrees.after_check (agrees_requireOperator m t) ?_
  exact (agrees_reduceWhile (bindsBefore_unplaced op.precedence) m).bind_map fun _ => rfl

theorem agrees_pushKeyword (m : Machine) (word : Keyword) (t : Token) :
    Agrees ((m.pushKeyword word t).map unplaced) (m.unplaced.pushKeyword word t.unplaced) := by
  cases word with
  | null => exact agrees_pushValue m .null t
  | not => exact Agrees.after_check (agrees_requireValue m t) rfl
  | _ => exact agrees_pushBinary m _ t

theorem agrees_pushComma (m : Machine) (t : Token) :
    Agrees ((m.pushComma t).map unplaced) (m.unplaced.pushComma t.unplaced) := by
  refine Agrees.after_check (agrees_requireOperator m t) ?_
  refine (agrees_reduceToBracket m _ _).bind_map fun m => ?_
  obtain ⟨operands, operators, wantsValue⟩ := m
  rcases operators with _ | ⟨op, operators⟩
  · exact agrees_error _ _
  · cases op with
    | opened bracket height opened => cases bracket <;> rfl
    | unary => exact agrees_error _ _
    | binary => exact agrees_error _ _

theorem bracketHere_unplaced (m : Machine) : m.unplaced.bracketHere = m.bracketHere := by
  obtain ⟨operands, operators, wantsValue⟩ := m
  rcases operators with _ | ⟨op, operators⟩
  · rfl
  · cases op with
    | binary op offset => cases op <;> rfl
    | _ => rfl

theorem agrees_pushSymbol (scope : Scope) (m : Machine) (t : Token) :
    Agrees ((m.pushSymbol scope t).map unplaced) (m.unplaced.pushSymbol scope t.unplaced) := by
  rw [pushSymbol, pushSymbol, bracketHere_unplaced]
  change Agrees _ (if t.text = "(" then _ else if t.text = ")" then _ else if t.text = "," then _ else
    if t.text = ";" then _ else if t.text = "-" ∧ m.wantsValue then _ else if t.text = "+" ∧ m.wantsValue then _ else
    if t.text = "*" ∧ m.wantsValue then _ else _)
  split
  · exact Agrees.after_check (agrees_requireValue m t) rfl
  split
  · exact agrees_closeBracket m _ _
  split
  · exact agrees_pushComma m t
  split
  · exact agrees_error _ _
  split
  · rfl
  split
  · rfl
  split
  · exact agrees_pushValue m _ t
  · have htext : t.unplaced.text = t.text := rfl
    rw [htext]
    cases BinaryOp.ofSymbol? t.text with
    | some op => exact agrees_pushBinary m op t
    | none => exact agrees_error _ _

theorem agrees_numberValue (t : Token) : Agrees (numberValue t) (numberValue t.unplaced) := by
  obtain ⟨kind, text, offset⟩ := t
  change Agrees _ (numberValue ⟨kind, text, 0⟩)
  simp only [numberValue]
  split
  · rfl
  · split
    · rfl
    · exact agrees_error _ _

theorem agrees_push (scope : Scope) (m : Machine) (t : Token) :
    Agrees ((m.push scope t).map unplaced) (m.unplaced.push scope t.unplaced) := by
  obtain ⟨kind, text, offset⟩ := t
  cases kind with
  | comment => rfl
  | string => exact agrees_pushValue m _ _
  | number =>
    exact Agrees.bind_map (g := id) (by simpa using agrees_numberValue ⟨.number, text, offset⟩) fun _ =>
      agrees_pushValue m _ ⟨.number, text, offset⟩
  | identifier =>
    have hvalue : Agrees ((scope.value ⟨.identifier, text, offset⟩).map id) (scope.value ⟨.identifier, text, 0⟩) := by
      rw [Except.map_id]
      exact agrees_of_eq rfl
    exact hvalue.bind_map fun _ => agrees_pushValue m _ ⟨.identifier, text, offset⟩
  | keyword word => exact agrees_pushKeyword m word _
  | operator => exact agrees_pushSymbol scope m _

theorem agrees_pushCall (m : Machine) (t : Token) :
    Agrees ((m.pushCall t).map unplaced) (m.unplaced.pushCall t.unplaced) :=
  Agrees.after_check (agrees_requireValue m t) rfl

theorem feed_call {u : Token} (h : (t.kind == .identifier && u.isOp "(") = true) (m : Machine) (ts : List Token) :
    m.feed scope (t :: u :: ts) = m.pushCall t >>= fun m => m.feed scope ts := by
  rw [feed, if_pos h]
  cases m.pushCall t <;> rfl

theorem feed_push (h : ∀ u, ts.head? = some u → (t.kind == .identifier && u.isOp "(") = false) (m : Machine) :
    m.feed scope (t :: ts) = m.push scope t >>= fun m => m.feed scope ts := by
  cases ts with
  | nil =>
    rw [feed]
    cases m.push scope t <;> rfl
  | cons u ts =>
    rw [feed, if_neg (by rw [h u rfl]; decide)]
    cases m.push scope t <;> rfl

theorem agrees_feed (scope : Scope) (m : Machine) (ts : List Token) :
    Agrees ((m.feed scope ts).map unplaced) (m.unplaced.feed scope (ts.map Token.unplaced)) := by
  -- A call takes two tokens at once, so the induction is on the number of tokens.
  induction hn : ts.length using Nat.strong_induction_on generalizing m ts with
  | _ n ih =>
    subst hn
    rcases ts with _ | ⟨t, ts⟩
    · rfl
    · by_cases hcall : ∃ u, ts.head? = some u ∧ (t.kind == .identifier && u.isOp "(") = true
      · obtain ⟨u, hu, hcall⟩ := hcall
        obtain ⟨ts, rfl⟩ := List.head?_eq_some_iff.mp hu
        rw [feed_call hcall, List.map_cons, List.map_cons, feed_call (t := t.unplaced) (u := u.unplaced) hcall]
        refine (agrees_pushCall m t).bind_map fun m => ih ts.length ?_ m ts rfl
        simp only [List.length_cons]
        omega
      · simp only [not_exists, not_and, Bool.not_eq_true] at hcall
        rw [feed_push hcall, List.map_cons, feed_push (t := t.unplaced)]
        · exact (agrees_push scope m t).bind_map fun m => ih ts.length (Nat.lt_succ_self _) m ts rfl
        · intro u hu
          rw [List.head?_map, Option.map_eq_some_iff] at hu
          obtain ⟨u, hu, rfl⟩ := hu
          exact hcall u hu

theorem agrees_finish (m : Machine) (stop stop' : Nat) : Agrees (m.finish stop) (m.unplaced.finish stop') := by
  have h : Agrees ((applyWhile (fun _ => true) m.operands m.operators).map
        fun left => (left.1, left.2.map Pending.unplaced))
      (applyWhile (fun _ => true) m.unplaced.operands m.unplaced.operators) :=
    agrees_applyWhile (fun _ => rfl) m.operands m.operators
  rw [finish, finish, isEmpty_unplaced]
  change Agrees _ (if m.wantsValue && !m.operators.isEmpty then _ else _)
  split
  · exact agrees_error _ _
  · cases hleft : applyWhile (fun _ => true) m.operands m.operators with
    | error err =>
      rw [hleft] at h
      cases hright : applyWhile (fun _ => true) m.unplaced.operands m.unplaced.operators with
      | error err' => exact agrees_error _ _
      | ok left' =>
        rw [hright] at h
        cases h
    | ok left =>
      rw [hleft] at h
      rw [h.eq_ok_iff.mp rfl]
      obtain ⟨operands, operators⟩ := left
      rcases operands with _ | ⟨x, _ | ⟨y, operands⟩⟩ <;> rfl

end Machine

/-- Tokens say the same at no place. -/
theorem agrees_parseTokens (scope : Scope) (ts : List Token) (stop : Nat) :
    Agrees (parseTokens scope ts stop) (parseTokens scope (spoken ts) 0) := by
  rw [parseTokens, parseTokens, filter_spoken, spoken]
  let read := fun (stop : Nat) (m : Machine) => m.finish stop >>= fun x => x.toExpr stop
  have hread : ∀ m : Machine, Agrees ((read stop m).map id) (read 0 m.unplaced) := by
    intro m
    rw [Except.map_id]
    exact (m.agrees_finish stop 0).bind fun x _ => Operand.agrees_toExpr _ _ x
  have hall := (Machine.agrees_feed scope {} (ts.filter (!·.isComment))).bind_map hread
  rwa [Except.map_id] at hall

end Sql
end ItemQuery
