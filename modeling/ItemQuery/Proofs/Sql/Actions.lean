import Mathlib.Data.Bool.Basic
import ItemQuery.Proofs.Sql.Placeless

/-! What tokens do to the machine, apart from complaints: each token asks for an action, and an action changes the
    stacks in one way only. The tokens of a text are a run of actions. -/

namespace ItemQuery.Sql

open Machine

/-! ### Actions -/

/-- What a token asks for. -/
inductive Action where
  | value (v : Operand)
  | skip
  | unary (op : UnaryOp)
  | binary (op : BinaryOp)
  /-- Opens a parenthesis, maybe of a call. -/
  | opening (name : Option String)
  | comma
  | close

/-- What a token that does not start a call asks for. Some symbols are signs where a value has to come. -/
def Token.action? (scope : Scope) (t : Token) (wantsValue : Bool) : Option Action :=
  match t.kind with
  | .comment => some .skip
  | .string => some (.value (.expr (.text t.stringValue)))
  | .number => (numberValue t).toOption.map fun e => .value (.expr e)
  | .identifier => (scope.value t).toOption.map fun e => .value (.expr e)
  | .keyword .null => some (.value .null)
  | .keyword .not => some (.unary .not)
  | .keyword word => (BinaryOp.ofKeyword? word).map .binary
  | .operator =>
    if t.text = "(" then some (.opening none)
    else if t.text = ")" then some .close
    else if t.text = "," then some .comma
    else if t.text = ";" then none
    else if t.text = "-" ∧ wantsValue then some (.unary .negate)
    else if t.text = "+" ∧ wantsValue then some .skip
    else if t.text = "*" ∧ wantsValue then some (.value (.expr (.allProperties scope.table false)))
    else (BinaryOp.ofSymbol? t.text).map .binary

/-- The machine after an action. -/
inductive Machine.Performs (offset : Nat) (m : Machine) : Action → Machine → Prop
  | value {v : Operand} (hm : m.wantsValue = true) :
      Performs offset m (.value v) ⟨v :: m.operands, m.operators, false⟩
  | skip : Performs offset m .skip m
  | unary {op : UnaryOp} (hm : m.wantsValue = true) :
      Performs offset m (.unary op) ⟨m.operands, .unary op offset :: m.operators, true⟩
  | binary {op : BinaryOp} {operands : List Operand} {operators : List Pending} (hm : m.wantsValue = false)
      (h : applyWhile (Pending.bindsBefore op.precedence) m.operands m.operators = .ok (operands, operators)) :
      Performs offset m (.binary op) ⟨operands, .binary op offset :: operators, true⟩
  | opening {name : Option String} (hm : m.wantsValue = true) :
      Performs offset m (.opening name)
        ⟨m.operands, .opened (name.elim m.bracketHere .call) m.operands.length offset :: m.operators, true⟩
  | comma {bracket : Bracket} {height opened : Nat} {operands : List Operand} {operators : List Pending}
      (hm : m.wantsValue = false)
      (h : applyWhile (!·.isOpened) m.operands m.operators = .ok (operands, .opened bracket height opened :: operators))
      (hbracket : bracket ≠ .group) :
      Performs offset m .comma ⟨operands, .opened bracket height opened :: operators, true⟩
  | empty {bracket : Bracket} {opened : Nat} {operators : List Pending} {v : Operand} (hm : m.wantsValue = true)
      (h : m.operators = .opened bracket m.operands.length opened :: operators)
      (hvalue : bracketValue bracket [] offset = .ok v) :
      Performs offset m .close ⟨v :: m.operands, operators, false⟩
  | close {bracket : Bracket} {height opened : Nat} {operands : List Operand} {operators : List Pending} {v : Operand}
      (hm : m.wantsValue = false)
      (h : applyWhile (!·.isOpened) m.operands m.operators = .ok (operands, .opened bracket height opened :: operators))
      (hvalue : bracketValue bracket (operands.take (operands.length - height)).reverse offset = .ok v) :
      Performs offset m .close ⟨v :: operands.drop (operands.length - height), operators, false⟩

variable {scope : Scope} {m m' m'' : Machine} {t u : Token} {ts us : List Token} {a : Action} {offset : Nat} {v : Operand}

namespace Machine

theorem requireValue_eq_ok_iff : m.requireValue t = .ok () ↔ m.wantsValue = true := by
  rw [requireValue]
  cases m.wantsValue <;> simp

theorem requireOperator_eq_ok_iff : m.requireOperator t = .ok () ↔ m.wantsValue = false := by
  rw [requireOperator]
  cases m.wantsValue <;> simp

theorem pushValue_eq_ok_iff : m.pushValue v t = .ok m' ↔ m.Performs offset (.value v) m' := by
  rw [pushValue, Result.bind_eq_ok]
  constructor
  · rintro ⟨⟨⟩, hm, h⟩
    cases h
    exact .value (requireValue_eq_ok_iff.mp hm)
  · rintro ⟨hm⟩
    exact ⟨(), requireValue_eq_ok_iff.mpr hm, rfl⟩

theorem pushUnary_eq_ok_iff {op : UnaryOp} (hm : m.wantsValue = true) :
    .ok (m.pushUnary op offset) = (.ok m' : Result Machine) ↔ m.Performs offset (.unary op) m' := by
  obtain ⟨operands, operators, wantsValue⟩ := m
  cases hm
  constructor
  · intro h
    cases h
    exact .unary rfl
  · rintro ⟨-⟩
    rfl

theorem pushBinary_eq_ok_iff {op : BinaryOp} : m.pushBinary op t = .ok m' ↔ m.Performs t.offset (.binary op) m' := by
  rw [pushBinary, Result.bind_eq_ok]
  constructor
  · rintro ⟨⟨⟩, hm, h⟩
    obtain ⟨left, hleft, h⟩ := Result.bind_eq_ok.mp h
    obtain ⟨⟨operands, operators⟩, happly, rfl⟩ := Result.map_eq_ok.mp hleft
    cases h
    exact .binary (requireOperator_eq_ok_iff.mp hm) happly
  · intro h
    cases h with
    | binary hm h => exact ⟨(), requireOperator_eq_ok_iff.mpr hm, by rw [reduceWhile, h]; rfl⟩

theorem openBracket_eq_ok_iff {name : Option String} :
    (m.requireValue t >>= fun _ => .ok (m.openBracket (name.elim m.bracketHere .call) offset)) = .ok m' ↔
      m.Performs offset (.opening name) m' := by
  rw [Result.bind_eq_ok]
  constructor
  · rintro ⟨⟨⟩, hm, h⟩
    cases h
    exact .opening (requireValue_eq_ok_iff.mp hm)
  · intro h
    cases h with
    | opening hm => exact ⟨(), requireValue_eq_ok_iff.mpr hm, rfl⟩

theorem reduceToBracket_eq_ok_iff : m.reduceToBracket offset = .ok m' ↔ ∃ operands operators, operators ≠ [] ∧
    applyWhile (!·.isOpened) m.operands m.operators = .ok (operands, operators) ∧ m' = { m with operands, operators } := by
  rw [reduceToBracket, Result.bind_eq_ok]
  constructor
  · rintro ⟨left, hleft, h⟩
    obtain ⟨⟨operands, operators⟩, happly, rfl⟩ := Result.map_eq_ok.mp hleft
    cases operators with
    | nil => cases h
    | cons b operators =>
      cases h
      exact ⟨operands, b :: operators, List.cons_ne_nil _ _, happly, rfl⟩
  · rintro ⟨operands, operators, hne, h, rfl⟩
    refine ⟨{ m with operands, operators }, by rw [reduceWhile, h]; rfl, ?_⟩
    cases operators with
    | nil => exact absurd rfl hne
    | cons b operators => rfl

theorem pushComma_eq_ok_iff : m.pushComma t = .ok m' ↔ m.Performs offset .comma m' := by
  rw [pushComma, Result.bind_eq_ok]
  constructor
  · rintro ⟨⟨⟩, hm, h⟩
    obtain ⟨left, hleft, h⟩ := Result.bind_eq_ok.mp h
    obtain ⟨operands, operators, -, happly, rfl⟩ := reduceToBracket_eq_ok_iff.mp hleft
    rcases operators with _ | ⟨_ | _ | ⟨bracket, height, opened⟩, operators⟩
    · cases h
    · cases h
    · cases h
    · cases bracket with
      | group => cases h
      | call => cases h; exact .comma (requireOperator_eq_ok_iff.mp hm) happly nofun
      | inList => cases h; exact .comma (requireOperator_eq_ok_iff.mp hm) happly nofun
  · intro h
    cases h with
    | @comma bracket height opened operands operators hm h hbracket =>
      refine ⟨(), requireOperator_eq_ok_iff.mpr hm, ?_⟩
      rw [reduceToBracket_eq_ok_iff.mpr ⟨_, _, List.cons_ne_nil _ _, h, rfl⟩, Result.ok_bind]
      cases bracket with
      | group => exact absurd rfl hbracket
      | call => rfl
      | inList => rfl

theorem collapse_eq_ok_iff : m.collapse offset = .ok m' ↔ ∃ bracket height opened operators v,
    m.operators = .opened bracket height opened :: operators ∧
    bracketValue bracket (m.operands.take (m.operands.length - height)).reverse offset = .ok v ∧
    m' = ⟨v :: m.operands.drop (m.operands.length - height), operators, false⟩ := by
  obtain ⟨operands, operators, wantsValue⟩ := m
  rcases operators with _ | ⟨_ | _ | ⟨bracket, height, opened⟩, operators⟩
  · simp [collapse]
  · simp [collapse]
  · simp [collapse]
  · simp only [collapse, Result.map_eq_ok]
    constructor
    · rintro ⟨v, hv, rfl⟩
      exact ⟨bracket, height, opened, operators, v, rfl, hv, rfl⟩
    · rintro ⟨_, _, _, _, v, ⟨⟩, hv, rfl⟩
      exact ⟨v, hv, rfl⟩

theorem isFreshlyOpened_iff : m.isFreshlyOpened = true ↔ m.wantsValue = true ∧
    ∃ bracket opened operators, m.operators = .opened bracket m.operands.length opened :: operators := by
  obtain ⟨operands, operators, wantsValue⟩ := m
  rcases operators with _ | ⟨_ | _ | ⟨bracket, height, opened⟩, operators⟩
  · simp [isFreshlyOpened]
  · simp [isFreshlyOpened]
  · simp [isFreshlyOpened]
  · simp [isFreshlyOpened]

theorem closeBracket_eq_ok_iff : m.closeBracket offset = .ok m' ↔ m.Performs offset .close m' := by
  rw [closeBracket_eq, Result.bind_eq_ok]
  constructor
  · rintro ⟨left, hleft, h⟩
    obtain ⟨bracket, height, opened, operators, v, hoperators, hv, rfl⟩ := collapse_eq_ok_iff.mp h
    rw [settle] at hleft
    split at hleft
    next hfresh =>
      cases hleft
      obtain ⟨hm, bracket', opened', operators', hoperators'⟩ := isFreshlyOpened_iff.mp hfresh
      rw [hoperators'] at hoperators
      cases hoperators
      rw [Nat.sub_self, List.take_zero, List.reverse_nil] at hv
      rw [Nat.sub_self, List.drop_zero]
      exact .empty hm hoperators' hv
    next =>
      split at hleft
      next => cases hleft
      next hm =>
        obtain ⟨operands, operators', -, happly, rfl⟩ := reduceToBracket_eq_ok_iff.mp hleft
        cases hoperators
        exact .close (Bool.eq_false_of_not_eq_true hm) happly hv
  · intro h
    cases h with
    | empty hm h hvalue =>
      refine ⟨m, by rw [settle, if_pos (isFreshlyOpened_iff.mpr ⟨hm, _, _, _, h⟩)], collapse_eq_ok_iff.mpr ?_⟩
      refine ⟨_, _, _, _, _, h, ?_, by rw [Nat.sub_self, List.drop_zero]⟩
      rwa [Nat.sub_self]
    | @close bracket height opened operands operators v hm h hvalue =>
      refine ⟨{ m with operands, operators := .opened bracket height opened :: operators }, ?_,
        collapse_eq_ok_iff.mpr ⟨_, _, _, _, _, rfl, hvalue, rfl⟩⟩
      have hfresh : ¬m.isFreshlyOpened = true := fun hfresh => by
        rw [(isFreshlyOpened_iff.mp hfresh).1] at hm
        cases hm
      rw [settle, if_neg hfresh, if_neg (by rw [hm]; decide)]
      exact reduceToBracket_eq_ok_iff.mpr ⟨_, _, List.cons_ne_nil _ _, h, rfl⟩

theorem pushSymbol_eq_ok_iff (hkind : t.kind = .operator) :
    m.pushSymbol scope t = .ok m' ↔ ∃ a, t.action? scope m.wantsValue = some a ∧ m.Performs t.offset a m' := by
  have hone : ∀ {x : Result Machine} {a : Action}, (x = .ok m' ↔ m.Performs t.offset a m') →
      (x = .ok m' ↔ ∃ b, some a = some b ∧ m.Performs t.offset b m') := by
    intro x a h
    simp [h]
  have hnone : ∀ err : QueryError, (.error err : Result Machine) = .ok m' ↔
      ∃ b, none = some b ∧ m.Performs t.offset b m' := by
    intro err
    simp
  rw [pushSymbol, Token.action?, hkind]
  simp only
  split
  · exact hone (@openBracket_eq_ok_iff m m' t t.offset none)
  split
  · exact hone closeBracket_eq_ok_iff
  split
  · exact hone pushComma_eq_ok_iff
  split
  · exact hnone _
  split
  next hminus => exact hone (pushUnary_eq_ok_iff hminus.2)
  split
  · refine hone ⟨fun h => ?_, fun h => ?_⟩
    · cases h
      exact .skip
    · cases h
      rfl
  split
  · exact hone pushValue_eq_ok_iff
  · cases BinaryOp.ofSymbol? t.text with
    | none => exact hnone _
    | some op => exact hone pushBinary_eq_ok_iff

theorem push_eq_ok_iff :
    m.push scope t = .ok m' ↔ ∃ a, t.action? scope m.wantsValue = some a ∧ m.Performs t.offset a m' := by
  have hvalue : ∀ x : Result Expr, (x >>= fun e => m.pushValue (.expr e) t) = .ok m' ↔
      ∃ a, x.toOption.map (fun e => Action.value (.expr e)) = some a ∧ m.Performs t.offset a m' := by
    intro x
    cases x with
    | error err => simp [Except.toOption, Result.error_bind]
    | ok e =>
      have hpush : m.pushValue (.expr e) t = .ok m' ↔ m.Performs t.offset (.value (.expr e)) m' := pushValue_eq_ok_iff
      simp [Except.toOption, Result.ok_bind, hpush]
  cases hkind : t.kind with
  | comment =>
    simp only [push, Token.action?, hkind, Option.some.injEq, exists_eq_left']
    refine ⟨fun h => ?_, fun h => ?_⟩
    · cases h
      exact .skip
    · cases h
      rfl
  | string =>
    simp only [push, Token.action?, hkind, Option.some.injEq, exists_eq_left']
    exact pushValue_eq_ok_iff
  | number =>
    simp only [push, Token.action?, hkind]
    exact hvalue _
  | identifier =>
    simp only [push, Token.action?, hkind]
    exact hvalue _
  | operator =>
    simp only [push, hkind]
    exact pushSymbol_eq_ok_iff hkind
  | keyword word =>
    cases word with
    | null =>
      simp only [push, Token.action?, hkind, pushKeyword, Option.some.injEq, exists_eq_left']
      exact pushValue_eq_ok_iff
    | not =>
      simp only [push, Token.action?, hkind, pushKeyword, Option.some.injEq, exists_eq_left', Result.bind_eq_ok]
      constructor
      · rintro ⟨⟨⟩, hm, h⟩
        exact (pushUnary_eq_ok_iff (requireValue_eq_ok_iff.mp hm)).mp h
      · intro h
        have hm : m.wantsValue = true := by
          cases h
          assumption
        exact ⟨(), requireValue_eq_ok_iff.mpr hm, (pushUnary_eq_ok_iff hm).mpr h⟩
    | _ =>
      simp only [push, Token.action?, hkind, pushKeyword, BinaryOp.ofKeyword?, Option.map_some, Option.some.injEq,
        exists_eq_left']
      exact pushBinary_eq_ok_iff

theorem pushCall_eq_ok_iff : m.pushCall t = .ok m' ↔ m.Performs t.offset (.opening (some t.text)) m' :=
  @openBracket_eq_ok_iff m m' t t.offset (some t.text)

/-! ### Runs -/

/-- The machine after all tokens; the name of a call is taken together with its parenthesis. -/
inductive Runs (scope : Scope) : Machine → List Token → Machine → Prop
  | nil {m : Machine} : Runs scope m [] m
  | push {m m' m'' : Machine} {t : Token} {ts : List Token} {a : Action}
      (hcall : ∀ u, ts.head? = some u → (t.kind == .identifier && u.isOp "(") = false)
      (ha : t.action? scope m.wantsValue = some a) (h : m.Performs t.offset a m') (hrest : Runs scope m' ts m'') :
      Runs scope m (t :: ts) m''
  | call {m m' m'' : Machine} {t u : Token} {ts : List Token} (hcall : (t.kind == .identifier && u.isOp "(") = true)
      (h : m.Performs t.offset (.opening (some t.text)) m') (hrest : Runs scope m' ts m'') :
      Runs scope m (t :: u :: ts) m''

theorem feed_eq_ok_iff : m.feed scope ts = .ok m' ↔ Runs scope m ts m' := by
  constructor
  · intro h
    induction hn : ts.length using Nat.strong_induction_on generalizing m ts with
    | _ n ih =>
      subst hn
      rcases ts with _ | ⟨t, ts⟩
      · cases h
        exact .nil
      · by_cases hcall : ∃ u, ts.head? = some u ∧ (t.kind == .identifier && u.isOp "(") = true
        · obtain ⟨u, hu, hcall⟩ := hcall
          obtain ⟨ts, rfl⟩ := List.head?_eq_some_iff.mp hu
          rw [feed_call hcall, Result.bind_eq_ok] at h
          obtain ⟨m₁, hm₁, h⟩ := h
          have hless : ts.length < (t :: u :: ts).length := by
            rw [List.length_cons, List.length_cons]
            omega
          exact .call hcall (pushCall_eq_ok_iff.mp hm₁) (ih ts.length hless h rfl)
        · simp only [not_exists, not_and, Bool.not_eq_true] at hcall
          rw [feed_push hcall, Result.bind_eq_ok] at h
          obtain ⟨m₁, hm₁, h⟩ := h
          obtain ⟨a, ha, hperforms⟩ := push_eq_ok_iff.mp hm₁
          exact .push hcall ha hperforms (ih ts.length (Nat.lt_succ_self _) h rfl)
  · intro h
    induction h with
    | nil => rfl
    | push hcall ha h _ ih => rw [feed_push hcall, push_eq_ok_iff.mpr ⟨_, ha, h⟩, Result.ok_bind, ih]
    | call hcall h _ ih => rw [feed_call hcall, pushCall_eq_ok_iff.mpr h, Result.ok_bind, ih]

/-- A run stops between two tokens, unless they start a call. -/
theorem Runs.split (h : Runs scope m (ts ++ us) m')
    (hbetween : ∀ t u, ts.getLast? = some t → us.head? = some u → (t.kind == .identifier && u.isOp "(") = false) :
    ∃ m₁, Runs scope m ts m₁ ∧ Runs scope m₁ us m' := by
  generalize hall : ts ++ us = all at h
  induction h generalizing ts with
  | nil =>
    obtain ⟨rfl, rfl⟩ := List.append_eq_nil_iff.mp hall
    exact ⟨_, .nil, .nil⟩
  | @push m m₁ m' t rest a hcall ha hperforms hrest ih =>
    cases ts with
    | nil =>
      rw [List.nil_append] at hall
      exact ⟨m, .nil, hall ▸ .push hcall ha hperforms hrest⟩
    | cons t' ts =>
      rw [List.cons_append] at hall
      cases hall
      have hlast : ∀ t', ts.getLast? = some t' → (t :: ts).getLast? = some t' := by
        intro t' ht'
        rw [List.getLast?_cons, ht', Option.getD_some]
      obtain ⟨m₂, hfront, hback⟩ := ih (fun t' u ht' => hbetween t' u (hlast t' ht')) rfl
      refine ⟨m₂, .push (fun u hu => hcall u ?_) ha hperforms hfront, hback⟩
      rw [List.head?_append, hu, Option.some_or]
  | @call m m₁ m' t u rest hcall hperforms hrest ih =>
    rcases ts with _ | ⟨t', _ | ⟨u', ts⟩⟩
    · rw [List.nil_append] at hall
      exact ⟨m, .nil, hall ▸ .call hcall hperforms hrest⟩
    · rw [List.singleton_append] at hall
      cases hall
      rw [hbetween t u rfl rfl] at hcall
      cases hcall
    · rw [List.cons_append, List.cons_append] at hall
      cases hall
      have hlast : ∀ t', ts.getLast? = some t' → (t :: u :: ts).getLast? = some t' := by
        intro t' ht'
        rw [List.getLast?_cons, List.getLast?_cons, ht', Option.getD_some, Option.getD_some]
      obtain ⟨m₂, hfront, hback⟩ := ih (fun t' u ht' => hbetween t' u (hlast t' ht')) rfl
      exact ⟨m₂, .call hcall hperforms hfront, hback⟩

end Machine
end ItemQuery.Sql
