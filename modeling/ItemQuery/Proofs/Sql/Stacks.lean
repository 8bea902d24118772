import ItemQuery.Proofs.Sql.Actions

/-! Stacks above other stacks. Operators find the operands that they wait for, so that what lies further below does not
    change what they do, until an operator is so weak that it asks for what lies below. -/

namespace ItemQuery.Sql

variable {p : Pending → Bool} {b : Pending} {ops ops' : List Pending} {os os' base : List Operand}
  {k n offset stop : Nat} {x : Operand}
  {m m' c : Machine} {a : Action} {scope : Scope} {ts : List Token}

/-! ### Operators that were applied -/

/-- The expression of an operator before its operand. -/
def UnaryOp.on : UnaryOp → Expr → Expr
  | not, e => .not e
  | negate, e => .negate e

/-- What an operator makes of the operands on top. -/
inductive Pending.Applies : Pending → List Operand → List Operand → Prop
  | unary {op : UnaryOp} {offset : Nat} {x : Operand} {e : Expr} {os : List Operand} (hx : x.toExpr offset = .ok e) :
      Applies (unary op offset) (x :: os) (.expr (op.on e) :: os)
  | range {offset : Nat} {left right : Operand} {low high : Expr} {os : List Operand}
      (hlow : left.toExpr offset = .ok low) (hhigh : right.toExpr offset = .ok high) :
      Applies (binary .betweenAnd offset) (right :: left :: os) (.range low high :: os)
  | binary {op : BinaryOp} {offset : Nat} {left right : Operand} {l e : Expr} {os : List Operand} (hop : op ≠ .betweenAnd)
      (hleft : left.toExpr offset = .ok l) (hcombine : combine op l right offset = .ok e) :
      Applies (binary op offset) (right :: left :: os) (.expr e :: os)

theorem Pending.apply_eq_ok_iff : b.apply os = .ok os' ↔ b.Applies os os' := by
  constructor
  · intro h
    cases b with
    | opened => cases h
    | unary op offset =>
      cases os with
      | nil => cases h
      | cons x os =>
        obtain ⟨e, he, h⟩ := Result.bind_eq_ok.mp h
        cases op <;>
        · cases h
          exact .unary he
    | binary op offset =>
      rcases os with _ | ⟨right, _ | ⟨left, os⟩⟩
      · cases h
      · cases h
      · by_cases hop : op = .betweenAnd
        · subst hop
          obtain ⟨low, hlow, h⟩ := Result.bind_eq_ok.mp h
          obtain ⟨high, hhigh, h⟩ := Result.bind_eq_ok.mp h
          cases h
          exact .range hlow hhigh
        · simp only [apply] at h
          obtain ⟨l, hl, h⟩ := Result.bind_eq_ok.mp h
          obtain ⟨e, he, h⟩ := Result.bind_eq_ok.mp h
          cases h
          exact .binary hop hl he
  · intro h
    cases h with
    | @unary op _ _ _ _ hx =>
      rw [apply, hx]
      cases op <;> rfl
    | range hlow hhigh =>
      simp only [apply, hlow, hhigh]
      rfl
    | binary hop hleft hcombine =>
      simp only [apply, hleft, Result.ok_bind, hcombine]
      rfl

theorem exists_of_applyWhile (h : applyWhile p os ops = .ok (os', ops')) : ∃ front, ops = front ++ ops' ∧
    (∀ b ∈ front, p b = true ∧ b.isOpened = false) ∧ ∀ b, ops'.head? = some b → p b = false := by
  induction ops generalizing os with
  | nil =>
    cases h
    exact ⟨[], rfl, List.forall_mem_nil _, nofun⟩
  | cons b ops ih =>
    rw [applyWhile] at h
    split at h
    next hb =>
      split at h
      next => cases h
      next happly =>
        obtain ⟨front, rfl, hfront, hstop⟩ := ih h
        have hopened : b.isOpened = false := by
          cases b with
          | opened => cases happly
          | _ => rfl
        exact ⟨b :: front, rfl, List.forall_mem_cons.mpr ⟨⟨hb, hopened⟩, hfront⟩, hstop⟩
    next hb =>
      cases h
      refine ⟨[], rfl, List.forall_mem_nil _, fun b' hb' => ?_⟩
      cases hb'
      exact Bool.eq_false_of_not_eq_true hb

theorem eq_nil_of_applyWhile (h : applyWhile (fun _ => true) os ops = .ok (os', ops')) : ops' = [] := by
  obtain ⟨-, -, -, hstop⟩ := exists_of_applyWhile h
  cases ops' with
  | nil => rfl
  | cons b ops' => cases hstop b rfl

theorem Machine.finish_eq_ok_iff : m.finish stop = .ok x ↔ (m.wantsValue = true → m.operators = []) ∧
    applyWhile (fun _ => true) m.operands m.operators = .ok ([x], []) := by
  have hwants : (m.wantsValue && !m.operators.isEmpty) = true ↔ ¬(m.wantsValue = true → m.operators = []) := by
    simp
  rw [finish]
  split
  next h => exact ⟨by rintro ⟨⟩, fun hleft => absurd hleft.1 (hwants.mp h)⟩
  next h =>
    have hended : m.wantsValue = true → m.operators = [] := of_not_not fun hnot => h (hwants.mpr hnot)
    cases happly : applyWhile (fun _ => true) m.operands m.operators with
    | error err => simp
    | ok left =>
      obtain ⟨operands, operators⟩ := left
      obtain rfl := eq_nil_of_applyWhile happly
      rcases operands with _ | ⟨y, _ | ⟨z, operands⟩⟩
      · simp
      · constructor
        · intro h
          cases h
          exact ⟨hended, rfl⟩
        · rintro ⟨-, h⟩
          cases h
          rfl
      · simp

/-! ### Operands for operators -/

/-- So many operands lie below the next one. An open parenthesis keeps those below it. -/
inductive Holds : List Pending → Nat → Prop
  | nil : Holds [] 0
  | unary {op : UnaryOp} {offset n : Nat} {ops : List Pending} (h : Holds ops n) : Holds (.unary op offset :: ops) n
  | binary {op : BinaryOp} {offset n : Nat} {ops : List Pending} (h : Holds ops n) :
    Holds (.binary op offset :: ops) (n + 1)
  | opened {bracket : Bracket} {height offset n : Nat} {ops : List Pending} (h : Holds ops height) (hle : height ≤ n) :
      Holds (.opened bracket height offset :: ops) n

/-- Each operator finds its operands. -/
def Machine.Stocked (m : Machine) : Prop :=
  ∃ n, Holds m.operators n ∧ m.operands.length = n + if m.wantsValue then 0 else 1

theorem Holds.apply (h : Holds (b :: ops) n) (hlen : os.length = n + 1) (happly : b.apply os = .ok os') :
    ∃ n', Holds ops n' ∧ os'.length = n' + 1 := by
  have happlies := Pending.apply_eq_ok_iff.mp happly
  cases h with
  | unary h =>
    cases happlies
    exact ⟨n, h, hlen⟩
  | binary h =>
    cases happlies <;> exact ⟨_, h, Nat.succ.inj hlen⟩
  | opened => cases happlies

theorem Holds.applyWhile (h : Holds ops n) (hlen : os.length = n + 1) (happly : applyWhile p os ops = .ok (os', ops')) :
    ∃ n', Holds ops' n' ∧ os'.length = n' + 1 := by
  induction ops generalizing os n with
  | nil =>
    cases happly
    exact ⟨n, h, hlen⟩
  | cons b ops ih =>
    rw [Sql.applyWhile] at happly
    split at happly
    · split at happly
      next => cases happly
      next hb =>
        obtain ⟨n', h', hlen'⟩ := h.apply hlen hb
        exact ih h' hlen' happly
    · cases happly
      exact ⟨n, h, hlen⟩

/-- One operand is left if all operators were applied. -/
theorem Holds.singleton (h : Holds ops n) (hlen : os.length = n + 1) (happly : Sql.applyWhile p os ops = .ok (os', [])) :
    ∃ v, os' = [v] := by
  obtain ⟨n', h', hlen'⟩ := h.applyWhile hlen happly
  cases h'
  exact List.length_eq_one_iff.mp hlen'

theorem Machine.Stocked.opened (hm : m.Stocked) (hwants : m.wantsValue = true) (bracket : Bracket) (offset : Nat) :
    Stocked ⟨m.operands, .opened bracket m.operands.length offset :: m.operators, true⟩ := by
  obtain ⟨n, hholds, hlen⟩ := hm
  rw [hwants, if_pos rfl, Nat.add_zero] at hlen
  exact ⟨n, .opened (hlen ▸ hholds) (Nat.le_of_eq hlen), hlen⟩

theorem Machine.Performs.stocked (h : m.Performs offset a m') (hm : m.Stocked) : m'.Stocked := by
  have hstocked := hm
  obtain ⟨n, hholds, hlen⟩ := hm
  cases h with
  | skip => exact ⟨n, hholds, hlen⟩
  | value hwants =>
    rw [hwants, if_pos rfl, Nat.add_zero] at hlen
    exact ⟨n, hholds, congrArg (· + 1) hlen⟩
  | unary hwants =>
    rw [hwants] at hlen
    exact ⟨n, .unary hholds, hlen⟩
  | binary hwants happly =>
    rw [hwants] at hlen
    obtain ⟨n', h', hlen'⟩ := hholds.applyWhile hlen happly
    exact ⟨n' + 1, .binary h', hlen'⟩
  | opening hwants => exact hstocked.opened hwants _ _
  | comma hwants happly =>
    rw [hwants] at hlen
    obtain ⟨n', h', hlen'⟩ := hholds.applyWhile hlen happly
    cases h' with
    | opened h' hle => exact ⟨n' + 1, .opened h' (Nat.le_succ_of_le hle), hlen'⟩
  | empty hwants hoperators =>
    rw [hoperators] at hholds
    cases hholds with
    | opened h' => exact ⟨_, h', rfl⟩
  | @close bracket height opened operands operators v hwants happly =>
    rw [hwants] at hlen
    obtain ⟨n', h', hlen'⟩ := hholds.applyWhile hlen happly
    cases h' with
    | opened h' hle =>
      refine ⟨height, h', ?_⟩
      simp only [List.length_cons, List.length_drop, Bool.false_eq_true, if_false]
      omega

/-! ### Above other stacks -/

/-- The operator above `k` more operands. -/
def Pending.raise (k : Nat) : Pending → Pending
  | opened bracket height offset => opened bracket (height + k) offset
  | b => b

/-- The stacks above those of `base`. -/
def Machine.onto (m base : Machine) : Machine where
  operands := m.operands ++ base.operands
  operators := m.operators.map (Pending.raise base.operands.length) ++ base.operators
  wantsValue := m.wantsValue

theorem Pending.isOpened_raise (k : Nat) (b : Pending) : (b.raise k).isOpened = b.isOpened := by
  cases b <;> rfl

theorem Pending.bindsBefore_raise (k : Nat) (p : Precedence) (b : Pending) :
    (b.raise k).bindsBefore p = b.bindsBefore p := by
  cases b <;> rfl

theorem Pending.applies_raise (h : Holds (b :: ops) n) (hlen : os.length = n + 1) :
    (b.raise k).Applies (os ++ base) os' ↔ ∃ left, b.Applies os left ∧ os' = left ++ base := by
  cases h with
  | unary =>
    obtain ⟨x, os, rfl⟩ := List.exists_cons_of_length_eq_add_one hlen
    constructor
    · rintro ⟨hx⟩
      exact ⟨_, .unary hx, rfl⟩
    · rintro ⟨_, ⟨hx⟩, rfl⟩
      exact .unary hx
  | binary =>
    obtain ⟨x, os, rfl⟩ := List.exists_cons_of_length_eq_add_one hlen
    obtain ⟨y, os, rfl⟩ := List.exists_cons_of_length_eq_add_one (Nat.succ.inj hlen)
    constructor
    · intro h
      cases h with
      | range hlow hhigh => exact ⟨_, .range hlow hhigh, rfl⟩
      | binary hop hleft hcombine => exact ⟨_, .binary hop hleft hcombine, rfl⟩
    · rintro ⟨_, h, rfl⟩
      cases h with
      | range hlow hhigh => exact .range hlow hhigh
      | binary hop hleft hcombine => exact .binary hop hleft hcombine
  | opened =>
    constructor
    · nofun
    · rintro ⟨_, h, -⟩
      cases h

/-- Operators are applied above other stacks as they are applied alone, and then those below follow. -/
theorem applyWhile_onto {bs : List Pending} {left : List Operand × List Pending} (hp : ∀ b, p (b.raise k) = p b)
    (h : Holds ops n) (hlen : os.length = n + 1) :
    applyWhile p (os ++ base) (ops.map (Pending.raise k) ++ bs) = .ok left ↔
      (∃ os' ops', applyWhile p os ops = .ok (os', ops') ∧ ops' ≠ [] ∧
        left = (os' ++ base, ops'.map (Pending.raise k) ++ bs)) ∨
      ∃ v, applyWhile p os ops = .ok ([v], []) ∧ applyWhile p (v :: base) bs = .ok left := by
  induction ops generalizing os n with
  | nil =>
    cases h
    obtain ⟨v, rfl⟩ := List.length_eq_one_iff.mp hlen
    constructor
    · intro h
      exact .inr ⟨v, rfl, h⟩
    · rintro (⟨os', ops', h, hne, -⟩ | ⟨v', h, hleft⟩)
      · cases h
        exact absurd rfl hne
      · cases h
        exact hleft
  | cons b ops ih =>
    rw [List.map_cons, List.cons_append, applyWhile, applyWhile, hp b]
    by_cases hb : p b = true
    · rw [if_pos hb, if_pos hb]
      cases happly : b.apply os with
      | ok os₁ =>
        have happlies := Pending.apply_eq_ok_iff.mp happly
        have hraised : (b.raise k).apply (os ++ base) = .ok (os₁ ++ base) :=
          Pending.apply_eq_ok_iff.mpr ((Pending.applies_raise h hlen).mpr ⟨os₁, happlies, rfl⟩)
        obtain ⟨n', h', hlen'⟩ := h.apply hlen happly
        rw [hraised]
        exact ih h' hlen'
      | error err =>
        have herror : ∀ os₁, (b.raise k).apply (os ++ base) ≠ .ok os₁ := by
          intro os₁ hraised
          obtain ⟨os₂, happlies, -⟩ := (Pending.applies_raise h hlen).mp (Pending.apply_eq_ok_iff.mp hraised)
          rw [Pending.apply_eq_ok_iff.mpr happlies] at happly
          cases happly
        cases hraised : (b.raise k).apply (os ++ base) with
        | ok os₁ => exact absurd hraised (herror os₁)
        | error err' => simp
    · rw [if_neg hb, if_neg hb]
      constructor
      · intro h
        cases h
        exact .inl ⟨os, b :: ops, rfl, List.cons_ne_nil _ _, rfl⟩
      · rintro (⟨os', ops', h, -, rfl⟩ | ⟨v, h, -⟩)
        · cases h
          rfl
        · cases h

/-- What an action does above other stacks: what it does alone, unless an operator binds weaker than the one below. -/
inductive Machine.Over (offset : Nat) (c base : Machine) : Action → Machine → Prop
  | above {a : Action} {c' : Machine} (hstocked : c'.Stocked)
      (h : c.operators ≠ [] ∨ base.bracketHere = .group → c.Performs offset a c') : Over offset c base a (c'.onto base)
  | through {op : BinaryOp} {v : Operand} {b : Pending} {bs : List Pending} {operands : List Operand}
      {left : List Operand × List Pending} (hm : c.wantsValue = false)
      (h : applyWhile (Pending.bindsBefore op.precedence) c.operands c.operators = .ok ([v], []))
      (hbase : base.operators = b :: bs) (hb : b.bindsBefore op.precedence = true)
      (happlies : b.Applies (v :: base.operands) operands)
      (hleft : applyWhile (Pending.bindsBefore op.precedence) operands bs = .ok left) :
      Over offset c base (.binary op) ⟨left.1, .binary op offset :: left.2, true⟩

theorem Pending.raise_eq_opened {bracket : Bracket} {height : Nat} (h : b.raise k = .opened bracket height offset) :
    ∃ height', b = .opened bracket height' offset ∧ height = height' + k := by
  cases b with
  | opened =>
    cases h
    exact ⟨_, rfl, rfl⟩
  | unary => cases h
  | binary => cases h

/-- The innermost parenthesis lies above the other stacks if there is none in them. -/
theorem Machine.Stocked.exists_bracket {base : Machine} {bracket : Bracket} {height : Nat} {operands : List Operand}
    {operators : List Pending} (hc : c.Stocked) (hwants : c.wantsValue = false)
    (hbase : ∀ b ∈ base.operators, b.isOpened = false)
    (h : Sql.applyWhile (!·.isOpened) (c.onto base).operands (c.onto base).operators =
      .ok (operands, .opened bracket height offset :: operators)) :
    ∃ os ops height', Sql.applyWhile (!·.isOpened) c.operands c.operators =
        .ok (os, .opened bracket height' offset :: ops) ∧
      operands = os ++ base.operands ∧ height = height' + base.operands.length ∧
      operators = ops.map (Pending.raise base.operands.length) ++ base.operators := by
  obtain ⟨n, hholds, hlen⟩ := hc
  rw [hwants] at hlen
  rcases (applyWhile_onto (fun b => by rw [Pending.isOpened_raise]) hholds hlen).mp h with
    ⟨os, ops, happly, hne, hleft⟩ | ⟨v, -, happly⟩
  · obtain ⟨b, ops, rfl⟩ := List.exists_cons_of_ne_nil hne
    obtain ⟨hos, hops⟩ := Prod.mk.inj hleft
    rw [List.map_cons, List.cons_append] at hops
    obtain ⟨hb, hrest⟩ := List.cons.inj hops
    obtain ⟨height', rfl, hheight⟩ := Pending.raise_eq_opened hb.symm
    exact ⟨os, ops, height', happly, hos, hheight, hrest⟩
  · obtain ⟨front, hfront, -⟩ := exists_of_applyWhile happly
    have hopened := hbase (.opened bracket height offset) (by rw [hfront]; exact List.mem_append_right _ List.mem_cons_self)
    cases hopened

theorem Machine.bracketHere_onto {base : Machine} (h : c.operators ≠ [] ∨ base.bracketHere = .group) :
    (c.onto base).bracketHere = c.bracketHere := by
  obtain ⟨operands, operators, wantsValue⟩ := c
  cases operators with
  | nil => exact h.resolve_left fun hne => hne rfl
  | cons b operators =>
    cases b with
    | binary op offset => cases op <;> rfl
    | _ => rfl

theorem Machine.Performs.over {base : Machine} (hc : c.Stocked) (hbase : ∀ b ∈ base.operators, b.isOpened = false)
    (h : (c.onto base).Performs offset a m') : c.Over offset base a m' := by
  have halone : ∀ {c' : Machine}, c.Performs offset a c' → m' = c'.onto base → c.Over offset base a m' := by
    rintro c' hperforms rfl
    exact .above (hperforms.stocked hc) fun _ => hperforms
  have hlen : (c.onto base).operands.length = c.operands.length + base.operands.length := List.length_append
  cases h with
  | value hwants => exact halone (.value hwants) rfl
  | skip => exact halone .skip rfl
  | unary hwants => exact halone (.unary hwants) rfl
  | @binary op operands operators hwants happly =>
    replace hwants : c.wantsValue = false := hwants
    obtain ⟨n, hholds, hcount⟩ := hc
    rw [hwants] at hcount
    rcases (applyWhile_onto (Pending.bindsBefore_raise _ op.precedence) hholds hcount).mp happly with
      ⟨os, ops, happly', -, hleft⟩ | ⟨v, happly', hbelow⟩
    · cases hleft
      exact halone (.binary hwants happly') rfl
    · cases hops : base.operators with
      | nil =>
        rw [hops] at hbelow
        cases hbelow
        exact halone (.binary hwants happly') (by rw [onto, hops]; rfl)
      | cons b bs =>
        rw [hops, applyWhile] at hbelow
        split at hbelow
        next hb =>
          split at hbelow
          next => cases hbelow
          next hb' => exact .through hwants happly' hops hb (Pending.apply_eq_ok_iff.mp hb') hbelow
        next =>
          cases hbelow
          exact halone (.binary hwants happly') (by rw [onto, hops]; rfl)
  | @opening name hwants =>
    replace hwants : c.wantsValue = true := hwants
    rw [hlen]
    have hopened := hc.opened hwants (name.elim (c.onto base).bracketHere .call) offset
    refine @Over.above offset c base (.opening name) _ hopened fun hbracket => ?_
    rw [bracketHere_onto hbracket]
    exact .opening hwants
  | comma hwants happly hbracket =>
    obtain ⟨os, ops, height', happly', rfl, rfl, rfl⟩ := hc.exists_bracket hwants hbase happly
    exact halone (.comma hwants happly' hbracket) rfl
  | @empty bracket opened operators v hwants hoperators hvalue =>
    cases hops : c.operators with
    | nil =>
      rw [onto, hops, List.map_nil, List.nil_append] at hoperators
      have hopened := hbase _ (by rw [hoperators]; exact List.mem_cons_self)
      cases hopened
    | cons b ops =>
      rw [hlen, onto, hops, List.map_cons, List.cons_append] at hoperators
      obtain ⟨hb, rfl⟩ := List.cons.inj hoperators
      obtain ⟨height, rfl, hheight⟩ := Pending.raise_eq_opened hb
      obtain rfl := Nat.add_right_cancel hheight
      exact halone (.empty hwants hops hvalue) rfl
  | @close bracket _ opened _ _ v hwants happly hvalue =>
    obtain ⟨os, ops, height, happly', rfl, rfl, rfl⟩ := hc.exists_bracket hwants hbase happly
    have hcount : (os ++ base.operands).length - (height + base.operands.length) = os.length - height := by
      rw [List.length_append, Nat.add_sub_add_right]
    rw [hcount, List.take_append_of_le_length (Nat.sub_le _ _)] at hvalue
    refine halone (.close hwants happly' hvalue) ?_
    rw [hcount, List.drop_append_of_le_length (Nat.sub_le _ _)]
    rfl

end ItemQuery.Sql
