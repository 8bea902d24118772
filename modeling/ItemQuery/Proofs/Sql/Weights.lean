import Mathlib.Algebra.BigOperators.Group.List.Lemmas
import Mathlib.Algebra.Ring.Int.Defs
import ItemQuery.Proofs.Sql.Stacks

/-! Two accounts of a run. Parentheses that are open are pending operators, and the bounds of a `between` that are still
    to come, or have come and wait for their `between`, are operators and operands. What the tokens add up to is what
    lies on the stacks. -/

namespace ItemQuery.Sql

variable {f : Token → Int} {n : Int} {t : Token} {ts us : List Token} {p : Pending → Bool} {b : Pending}
  {ops ops' : List Pending} {os os' : List Operand} {offset : Nat} {m m' : Machine} {a : Action} {scope : Scope}
  {v : Operand} {wants : Bool}

/-! ### Accounts -/

/-- The sum of a count over tokens. -/
def total (f : Token → Int) (ts : List Token) : Int :=
  (ts.map f).sum

/-- An account that starts with `n` is never overdrawn. -/
def Solvent (f : Token → Int) (n : Int) (ts : List Token) : Prop :=
  ∀ front, front <+: ts → 0 ≤ n + total f front

@[simp] theorem total_nil : total f [] = 0 :=
  rfl

@[simp] theorem total_cons : total f (t :: ts) = f t + total f ts := by
  rw [total, List.map_cons, List.sum_cons, total]

@[simp] theorem total_append : total f (ts ++ us) = total f ts + total f us := by
  rw [total, List.map_append, List.sum_append, total, total]

theorem solvent_nil : Solvent f n [] ↔ 0 ≤ n := by
  simp [Solvent]

theorem solvent_cons : Solvent f n (t :: ts) ↔ 0 ≤ n ∧ Solvent f (n + f t) ts := by
  constructor
  · intro h
    refine ⟨by simpa using h [] (List.nil_prefix), fun front hfront => ?_⟩
    have ht := h (t :: front) (List.cons_prefix_cons.mpr ⟨rfl, hfront⟩)
    rwa [total_cons, ← Int.add_assoc] at ht
  · rintro ⟨hn, h⟩ front hfront
    cases front with
    | nil => simpa using hn
    | cons u front =>
      obtain ⟨rfl, hmore⟩ := List.cons_prefix_cons.mp hfront
      rw [total_cons, ← Int.add_assoc]
      exact h front hmore

theorem Solvent.nonneg (h : Solvent f n ts) : 0 ≤ n := by
  simpa using h [] List.nil_prefix

theorem solvent_append : Solvent f n (ts ++ us) ↔ Solvent f n ts ∧ Solvent f (n + total f ts) us := by
  induction ts generalizing n with
  | nil =>
    rw [List.nil_append, total_nil, Int.add_zero, solvent_nil]
    exact ⟨fun h => ⟨h.nonneg, h⟩, And.right⟩
  | cons t ts ih => rw [List.cons_append, solvent_cons, solvent_cons, ih, total_cons, Int.add_assoc, and_assoc]

/-! ### Parentheses -/

/-- A parenthesis opens or closes. -/
def Token.turn (t : Token) : Int :=
  if t.isOp "(" then 1 else if t.isOp ")" then -1 else 0

/-- The open parentheses of a stack. -/
def openings (ops : List Pending) : Int :=
  ops.countP Pending.isOpened

def Action.turn : Action → Int
  | opening _ => 1
  | close => -1
  | _ => 0

/-! ### Bounds of ranges -/

def Operand.weight : Operand → Int
  | range _ _ => -1
  | _ => 0

def BinaryOp.weight : BinaryOp → Int
  | between _ => 1
  | betweenAnd => -1
  | _ => 0

def Pending.weight : Pending → Int
  | binary op _ => op.weight
  | _ => 0

def Action.weight : Action → Int
  | binary op => op.weight
  | _ => 0

/-- A `between` asks for bounds, and its `and` brings them. -/
def Token.weight (t : Token) : Int :=
  match t.kind with
  | .keyword .between => 1
  | .keyword .notBetween => 1
  | .keyword .betweenAnd => -1
  | _ => 0

/-- The ranges that the stacks wait for, less those that they hold. -/
def Machine.weight (m : Machine) : Int :=
  (m.operands.map Operand.weight).sum + (m.operators.map Pending.weight).sum

@[simp] theorem Operand.weight_expr (e : Expr) : (expr e).weight = 0 :=
  rfl

@[simp] theorem Operand.weight_range (low high : Expr) : (range low high).weight = -1 :=
  rfl

@[simp] theorem Pending.weight_unary (op : UnaryOp) : (unary op offset).weight = 0 :=
  rfl

@[simp] theorem Pending.weight_binary (op : BinaryOp) : (binary op offset).weight = op.weight :=
  rfl

@[simp] theorem Pending.weight_opened (bracket : Bracket) (height : Nat) : (opened bracket height offset).weight = 0 :=
  rfl

/-! ### What tokens count -/

theorem weight_of_ofSymbol? {symbol : String} {op : BinaryOp} (h : BinaryOp.ofSymbol? symbol = some op) :
    op.weight = 0 := by
  rw [BinaryOp.ofSymbol?] at h
  split at h
  · cases h
    rfl
  · obtain ⟨op, -, rfl⟩ := Option.map_eq_some_iff.mp h
    rfl

/-- A token counts as much as its action. -/
theorem counts_of_action? (h : t.action? scope wants = some a) :
    a.turn = t.turn ∧ a.weight = t.weight ∧ ∀ v, a = .value v → v.weight = 0 := by
  have hexpr : ∀ e v, Action.value (.expr e) = .value v → v.weight = 0 := by
    rintro e v ⟨⟩
    rfl
  obtain ⟨kind, text, offset⟩ := t
  cases kind with
  | comment =>
    cases h
    exact ⟨rfl, rfl, by rintro v ⟨⟩⟩
  | string =>
    cases h
    exact ⟨rfl, rfl, hexpr _⟩
  | number =>
    obtain ⟨e, -, rfl⟩ := Option.map_eq_some_iff.mp h
    exact ⟨rfl, rfl, hexpr _⟩
  | identifier =>
    obtain ⟨e, -, rfl⟩ := Option.map_eq_some_iff.mp h
    exact ⟨rfl, rfl, hexpr _⟩
  | keyword word =>
    cases word with
    | null =>
      cases h
      refine ⟨rfl, rfl, ?_⟩
      rintro v ⟨⟩
      rfl
    | _ =>
      cases h
      exact ⟨rfl, rfl, by rintro v ⟨⟩⟩
  | operator =>
    have hturn : Token.turn ⟨.operator, text, offset⟩ = if text = "(" then 1 else if text = ")" then -1 else 0 := by
      simp [Token.turn, Token.isOp]
    rw [hturn]
    simp only [Token.action?] at h
    split at h
    next hopen =>
      cases h
      exact ⟨(if_pos hopen).symm, rfl, by rintro v ⟨⟩⟩
    next hopen =>
      rw [if_neg hopen]
      split at h
      next hclose =>
        cases h
        exact ⟨(if_pos hclose).symm, rfl, by rintro v ⟨⟩⟩
      next hclose =>
        rw [if_neg hclose]
        split at h
        · cases h
          exact ⟨rfl, rfl, by rintro v ⟨⟩⟩
        split at h
        · cases h
        split at h
        · cases h
          exact ⟨rfl, rfl, by rintro v ⟨⟩⟩
        split at h
        · cases h
          exact ⟨rfl, rfl, by rintro v ⟨⟩⟩
        split at h
        · cases h
          exact ⟨rfl, rfl, hexpr _⟩
        · obtain ⟨op, hop, rfl⟩ := Option.map_eq_some_iff.mp h
          exact ⟨rfl, weight_of_ofSymbol? hop, by rintro v ⟨⟩⟩

theorem kind_of_isOp {symbol : String} (h : t.isOp symbol = true) : t.kind = .operator :=
  beq_iff_eq.mp (Bool.and_eq_true_iff.mp h).1

theorem text_of_isOp {symbol : String} (h : t.isOp symbol = true) : t.text = symbol :=
  beq_iff_eq.mp (Bool.and_eq_true_iff.mp h).2

theorem isOp_open_of_close (h : t.isOp ")" = true) : t.isOp "(" = false := by
  simp [Token.isOp, text_of_isOp h]

theorem turn_of_isOp_close (h : t.isOp ")" = true) : t.turn = -1 := by
  rw [Token.turn, isOp_open_of_close h, h]
  rfl

/-- The tokens that start a call count as their parenthesis. -/
theorem counts_of_call {u : Token} (h : (t.kind == .identifier && u.isOp "(") = true) :
    t.turn = 0 ∧ t.weight = 0 ∧ u.turn = 1 ∧ u.weight = 0 := by
  obtain ⟨hkind, hopen⟩ := Bool.and_eq_true_iff.mp h
  have ht : t.kind = .identifier := beq_iff_eq.mp hkind
  have hu : u.kind = .operator := kind_of_isOp hopen
  refine ⟨?_, ?_, ?_, ?_⟩
  · simp [Token.turn, Token.isOp, ht]
  · rw [Token.weight, ht]
  · rw [Token.turn, if_pos hopen]
  · rw [Token.weight, hu]

/-! ### What lies on the stacks -/

theorem openings_of_applyWhile (h : applyWhile p os ops = .ok (os', ops')) : openings ops' = openings ops := by
  obtain ⟨front, rfl, hfront, -⟩ := exists_of_applyWhile h
  have hnone : front.countP Pending.isOpened = 0 := List.countP_eq_zero.mpr fun b hb => by simp [(hfront b hb).2]
  rw [openings, openings, List.countP_append, hnone, Nat.zero_add]

theorem openings_cons_opened {bracket : Bracket} {height : Nat} :
    openings (.opened bracket height offset :: ops) = openings ops + 1 := by
  rw [openings, List.countP_cons_of_pos rfl, Nat.cast_add, openings]
  rfl

theorem openings_cons (h : b.isOpened = false) : openings (b :: ops) = openings ops := by
  rw [openings, List.countP_cons_of_neg (by simp [h]), openings]

theorem Machine.Performs.openings (h : m.Performs offset a m') : openings m'.operators = openings m.operators + a.turn := by
  cases h with
  | value => exact (Int.add_zero _).symm
  | skip => exact (Int.add_zero _).symm
  | unary => rw [openings_cons rfl]; exact (Int.add_zero _).symm
  | binary _ happly => rw [openings_cons rfl, openings_of_applyWhile happly]; exact (Int.add_zero _).symm
  | opening => exact openings_cons_opened
  | comma _ happly => rw [openings_of_applyWhile happly]; exact (Int.add_zero _).symm
  | empty _ hoperators => rw [hoperators, openings_cons_opened, Action.turn, Int.add_neg_cancel_right]
  | close _ happly => rw [← openings_of_applyWhile happly, openings_cons_opened, Action.turn, Int.add_neg_cancel_right]

theorem Machine.Runs.openings (h : Runs scope m ts m') :
    openings m'.operators = openings m.operators + total Token.turn ts ∧ Solvent Token.turn (openings m.operators) ts := by
  have hnonneg : ∀ m : Machine, 0 ≤ Sql.openings m.operators := fun m => Int.natCast_nonneg _
  induction h with
  | nil => exact ⟨(Int.add_zero _).symm, solvent_nil.mpr (hnonneg _)⟩
  | push _ ha hperforms _ ih =>
    rw [hperforms.openings, (counts_of_action? ha).1] at ih
    exact ⟨by rw [ih.1, total_cons, Int.add_assoc], solvent_cons.mpr ⟨hnonneg _, ih.2⟩⟩
  | @call m _ _ t u ts hcall hperforms _ ih =>
    obtain ⟨ht, -, hu, -⟩ := counts_of_call hcall
    rw [hperforms.openings, Action.turn] at ih
    refine ⟨by rw [ih.1, total_cons, total_cons, ht, hu, Int.zero_add, Int.add_assoc], ?_⟩
    rw [solvent_cons, solvent_cons, ht, hu, Int.add_zero]
    exact ⟨hnonneg _, hnonneg _, ih.2⟩

theorem weight_of_toExpr {e : Expr} (h : v.toExpr offset = .ok e) : v.weight = 0 := by
  cases v with
  | range => cases h
  | _ => rfl

theorem weight_of_mapM {es : List Expr} (h : os.mapM (Operand.toExpr offset) = .ok es) :
    (os.map Operand.weight).sum = 0 := by
  refine List.sum_eq_zero fun w hw => ?_
  obtain ⟨x, hx, rfl⟩ := List.mem_map.mp hw
  obtain ⟨e, -, he⟩ := Result.exists_mem_of_mapM h hx
  exact weight_of_toExpr he

/-- Only a `between` takes a range. -/
theorem weight_of_combine {op : BinaryOp} {l e : Expr} (h : combine op l v offset = .ok e) : op.weight + v.weight = 0 := by
  cases op with
  | between =>
    cases v with
    | range => rfl
    | _ => cases h
  | is =>
    cases v with
    | null => rfl
    | _ => cases h
  | inList =>
    cases v with
    | expr => rfl
    | list => rfl
    | null => cases h
    | range => cases h
  | betweenAnd => cases h
  | like =>
    obtain ⟨e, he, -⟩ := Result.bind_eq_ok.mp h
    rw [weight_of_toExpr he]
    rfl
  | comparison =>
    cases v with
    | range => cases h
    | _ => rfl
  | logical =>
    obtain ⟨e, he, -⟩ := Result.map_eq_ok.mp h
    rw [weight_of_toExpr he]
    rfl
  | arithmetic =>
    obtain ⟨e, he, -⟩ := Result.map_eq_ok.mp h
    rw [weight_of_toExpr he]
    rfl

theorem Pending.Applies.weight (h : b.Applies os os') :
    (os'.map Operand.weight).sum = (os.map Operand.weight).sum + b.weight := by
  cases h with
  | unary hx => simp [weight_of_toExpr hx]
  | range hlow hhigh =>
    simp only [List.map_cons, List.sum_cons, weight_of_toExpr hlow, weight_of_toExpr hhigh, Operand.weight_range,
      weight_binary, BinaryOp.weight]
    omega
  | binary hop hleft hcombine =>
    have hsum := weight_of_combine hcombine
    simp only [List.map_cons, List.sum_cons, weight_of_toExpr hleft, Operand.weight_expr, weight_binary]
    omega

theorem weight_of_applyWhile (h : applyWhile p os ops = .ok (os', ops')) :
    (os'.map Operand.weight).sum + (ops'.map Pending.weight).sum =
      (os.map Operand.weight).sum + (ops.map Pending.weight).sum := by
  induction ops generalizing os with
  | nil =>
    cases h
    rfl
  | cons b ops ih =>
    rw [applyWhile] at h
    split at h
    · split at h
      next => cases h
      next happly =>
        rw [ih h, (Pending.apply_eq_ok_iff.mp happly).weight, List.map_cons, List.sum_cons, Int.add_assoc]
    · cases h
      rfl

theorem weight_of_bracketValue {bracket : Bracket} (h : Machine.bracketValue bracket os offset = .ok v) :
    v.weight = (os.map Operand.weight).sum := by
  cases bracket with
  | group =>
    rcases os with _ | ⟨x, _ | ⟨y, os⟩⟩
    · cases h
    · cases h
      simp
    · cases h
  | inList =>
    obtain ⟨es, hes, rfl⟩ := Result.map_eq_ok.mp h
    rw [weight_of_mapM hes]
    rfl
  | call name =>
    obtain ⟨es, hes, h⟩ := Result.bind_eq_ok.mp h
    obtain ⟨e, -, h⟩ := Result.bind_eq_ok.mp h
    cases h
    rw [weight_of_mapM hes]
    rfl

theorem Machine.Performs.weight (h : m.Performs offset a m') (hvalue : ∀ v, a = .value v → v.weight = 0) :
    m'.weight = m.weight + a.weight := by
  cases h with
  | value => simp [Machine.weight, hvalue _ rfl, Action.weight]
  | skip => exact (Int.add_zero _).symm
  | unary => simp [Machine.weight, Action.weight]
  | binary _ happly =>
    have hsum := weight_of_applyWhile happly
    simp only [Machine.weight, Action.weight, List.map_cons, List.sum_cons, Pending.weight_binary]
    omega
  | opening => simp [Machine.weight, Action.weight]
  | comma _ happly => exact (weight_of_applyWhile happly).trans (Int.add_zero _).symm
  | empty _ hoperators hbracket => simp [Machine.weight, weight_of_bracketValue hbracket, hoperators, Action.weight]
  | @close bracket height _ operands _ v _ happly hbracket =>
    have hsum := weight_of_applyWhile happly
    have hsplit : (operands.map Operand.weight).sum =
        ((operands.take (operands.length - height)).map Operand.weight).sum +
          ((operands.drop (operands.length - height)).map Operand.weight).sum := by
      rw [← List.sum_append, ← List.map_append, List.take_append_drop]
    have hv := weight_of_bracketValue hbracket
    rw [List.map_reverse, List.sum_reverse] at hv
    simp only [Machine.weight, Action.weight, List.map_cons, List.sum_cons, Pending.weight_opened] at hsum ⊢
    omega

theorem Machine.Runs.weight (h : Runs scope m ts m') : m'.weight = m.weight + total Token.weight ts := by
  induction h with
  | nil => exact (Int.add_zero _).symm
  | push _ ha hperforms _ ih =>
    obtain ⟨-, hweight, hvalue⟩ := counts_of_action? ha
    rw [ih, hperforms.weight hvalue, hweight, total_cons, Int.add_assoc]
  | call hcall hperforms _ ih =>
    obtain ⟨-, ht, -, hu⟩ := counts_of_call hcall
    have hsame := (hperforms.weight nofun).trans (Int.add_zero _)
    rw [ih, hsame, total_cons, total_cons, ht, hu, Int.zero_add, Int.zero_add]

end ItemQuery.Sql
