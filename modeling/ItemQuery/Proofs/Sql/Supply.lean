import ItemQuery.Proofs.Sql.References
import ItemQuery.Proofs.Sql.Stacks

/-! Operators are supplied with operands. In whatever order tokens come, and whether they make sense or not, each operator
    finds its operands above the innermost open parenthesis when it is applied, and one operand is left when all operators
    are. No fragment is refused because an operator lacks an operand or an operand an operator. -/

namespace ItemQuery

/-! ### Complaints that do not arise -/

namespace Result

variable {α β : Type} {P : QueryError → Prop} {x : Result α}

/-- The outcome is none of these complaints. -/
def Spares (P : QueryError → Prop) (x : Result α) : Prop :=
  ∀ err, x = .error err → ¬P err

@[simp] theorem spares_ok {a : α} : Spares P (.ok a) :=
  nofun

@[simp] theorem spares_pure {a : α} : Spares P (pure a : Result α) :=
  nofun

@[simp] theorem spares_error {err : QueryError} : Spares P (.error err : Result α) ↔ ¬P err :=
  ⟨fun h => h err rfl, fun h _ heq => Except.error.inj heq ▸ h⟩

theorem Spares.bind {f : α → Result β} (h : Spares P x) (hf : ∀ a, x = .ok a → Spares P (f a)) : Spares P (x >>= f) := by
  cases x with
  | error err => exact spares_error.mpr (spares_error.mp h)
  | ok a => exact hf a rfl

theorem Spares.map (h : Spares P x) (f : α → β) : Spares P (x.map f) := by
  cases x with
  | error err => exact spares_error.mpr (spares_error.mp h)
  | ok a => exact spares_ok

theorem Spares.mapM {f : α → Result β} {as : List α} (hf : ∀ a ∈ as, Spares P (f a)) : Spares P (as.mapM f) := by
  induction as with
  | nil => exact spares_pure
  | cons a as ih =>
    rw [List.forall_mem_cons] at hf
    rw [List.mapM_cons]
    exact hf.1.bind fun b _ => (ih hf.2).bind fun bs _ => spares_pure

end Result

namespace Sql

open Result

/-- The complaints about an operator without an operand and about an operand without an operator. -/
inductive Starved : QueryError → Prop
  | operator (offset : Nat) : Starved (.parse offset "missing operand")
  | operand (offset : Nat) : Starved (.parse offset "expected an operator")

theorem not_starved_of_ne {offset : Nat} {reason : String} (hmissing : reason ≠ "missing operand")
    (hexpected : reason ≠ "expected an operator") : ¬Starved (.parse offset reason) := by
  intro h
  cases h with
  | operator => exact hmissing rfl
  | operand => exact hexpected rfl

variable {p : Pending → Bool} {b : Pending} {ops ops' : List Pending} {os os' : List Operand} {n offset : Nat}
  {m m' : Machine} {scope : Scope} {t : Token} {ts : List Token}

/-! ### Values -/

theorem not_starved_unsupported (reason : String) : ¬Starved (.unsupported reason) :=
  nofun

theorem not_starved_lex (offset : Nat) (reason : String) : ¬Starved (.lex offset reason) :=
  nofun

/-- A complaint that quotes its token first says so. -/
theorem not_starved_append {front back : String} (hlen : 2 ≤ front.toList.length) (h : front.toList.take 2 ≠ ['m', 'i'])
    (h' : front.toList.take 2 ≠ ['e', 'x']) : ¬Starved (.parse offset (front ++ back)) := by
  have htake : (front ++ back).toList.take 2 = front.toList.take 2 := by
    rw [String.toList_append, List.take_append_of_le_length hlen]
  refine not_starved_of_ne (fun heq => h ?_) fun heq => h' ?_ <;>
  · rw [← htake, heq]
    rfl

theorem spares_toExpr (offset : Nat) (x : Operand) : (x.toExpr offset).Spares Starved := by
  cases x with
  | expr => exact spares_ok
  | list => exact spares_ok
  | null => exact spares_error.mpr (not_starved_unsupported _)
  | range => exact spares_error.mpr (not_starved_of_ne (by decide) (by decide))

theorem spares_wildcardPieces (s : WildcardSyntax) (position : Nat) (cs : List Char) :
    (Pattern.wildcardPieces s position cs).Spares Starved := by
  have hclass : ∀ position, ¬Starved (.parse position "unterminated character class") := fun _ =>
    not_starved_of_ne (by decide) (by decide)
  fun_induction Pattern.wildcardPieces s position cs <;> simp_all [Spares.map]

theorem spares_likePattern (e : Expr) : (likePattern e).Spares Starved := by
  unfold likePattern
  split
  next s => exact ((spares_wildcardPieces _ 0 s.toList).map _ |>.map _).map _
  next => exact spares_ok

theorem spares_combine (op : BinaryOp) (left : Expr) (right : Operand) (offset : Nat) :
    (combine op left right offset).Spares Starved := by
  have hexpr := spares_toExpr offset right
  cases op with
  | logical op => exact hexpr.map _
  | comparison op =>
    cases right with
    | null => exact spares_error.mpr (not_starved_unsupported _)
    | range => exact spares_error.mpr (not_starved_of_ne (by decide) (by decide))
    | expr | list => exact hexpr.map _
  | arithmetic op => exact hexpr.map _
  | like negated => exact hexpr.bind fun e _ => (spares_likePattern e).bind fun _ _ => spares_pure
  | inList negated =>
    unfold combine
    dsimp only
    split
    next => exact spares_ok
    next => exact spares_ok
    next => exact spares_ok
    next => exact spares_error.mpr (not_starved_of_ne (by decide) (by decide))
  | between negated =>
    unfold combine
    dsimp only
    split
    next => exact spares_ok
    next => exact spares_error.mpr (not_starved_of_ne (by decide) (by decide))
  | is negated =>
    unfold combine
    dsimp only
    split
    next => exact spares_ok
    next => exact spares_error.mpr (not_starved_unsupported _)
  | betweenAnd => exact spares_error.mpr (not_starved_of_ne (by decide) (by decide))

theorem spares_numberValue (t : Token) : (numberValue t).Spares Starved := by
  unfold numberValue
  dsimp only
  split
  next => exact spares_ok
  next =>
    split
    next => exact spares_ok
    next =>
      rw [String.append_assoc]
      exact spares_error.mpr (not_starved_append (by decide) (by decide) (by decide))

theorem spares_value (scope : Scope) (t : Token) : (scope.value t).Spares Starved := by
  unfold Scope.value
  split
  next => exact spares_ok
  next => exact spares_ok
  next =>
    split
    next => exact spares_ok
    split
    next => exact spares_ok
    dsimp only
    split
    next => exact spares_ok
    next =>
      split
      next => exact spares_ok
      next => exact spares_error.mpr (not_starved_unsupported _)
    next => exact spares_error.mpr (not_starved_unsupported _)

theorem spares_partCall (name shown : String) (select : String → Option Function) (order : List Expr → List Expr)
    (args : List Expr) : (partCall name shown select order args).Spares Starved := by
  unfold partCall
  split
  next err herr =>
    unfold datePart at herr
    split at herr <;> cases herr <;> exact spares_error.mpr (not_starved_unsupported _)
  next =>
    split
    next => exact spares_ok
    next => exact spares_error.mpr (not_starved_unsupported _)

theorem spares_callValue (name : String) (args : List Expr) : (callValue name args).Spares Starved := by
  unfold callValue
  -- All but five names make a call of the arguments as they are.
  split <;> try exact spares_ok
  · split <;> exact spares_ok
  · split
    · exact spares_ok
    · exact spares_error.mpr (not_starved_unsupported _)
  · exact spares_partCall _ _ _ _ _
  · exact spares_partCall _ _ _ _ _
  · exact spares_partCall _ _ _ _ _

theorem spares_bracketValue (bracket : Bracket) (items : List Operand) (offset : Nat) :
    (Machine.bracketValue bracket items offset).Spares Starved := by
  have hitems : (items.mapM (Operand.toExpr offset)).Spares Starved := .mapM fun x _ => spares_toExpr offset x
  cases bracket with
  | group =>
    unfold Machine.bracketValue
    dsimp only
    split
    next => exact spares_ok
    next => exact spares_error.mpr (not_starved_of_ne (by decide) (by decide))
  | inList => exact hitems.map _
  | call name => exact hitems.bind fun args _ => (spares_callValue name args).bind fun _ _ => spares_pure

/-! ### Operands above the innermost parenthesis -/

/-- How many operands the operator takes. -/
def Pending.arity : Pending → Nat
  | unary _ _ => 1
  | binary _ _ => 2
  | opened _ _ _ => 0

/-- How many operands lie below the innermost open parenthesis. -/
def floor : List Pending → Nat
  | [] => 0
  | .opened _ height _ :: _ => height
  | _ :: ops => floor ops

/-- The operands below the innermost open parenthesis, the lowest first. -/
def Machine.sunken (m : Machine) : List Operand :=
  m.operands.reverse.take (floor m.operators)

/-- Each open parenthesis has the operands below it that it knows of, the operator on top finds its operands above the
    innermost of them, and without operators there is one operand, or none before the first value. -/
structure Machine.Supplied (m : Machine) : Prop where
  heights : ∀ bracket height offset, .opened bracket height offset ∈ m.operators → height ≤ m.operands.length
  operands : m.wantsValue = false → ∀ b ops, m.operators = b :: ops → floor m.operators + b.arity ≤ m.operands.length
  alone : m.operators = [] → m.operands.length = if m.wantsValue then 0 else 1

theorem Holds.floor_le (h : Holds ops n) : floor ops ≤ n := by
  induction h with
  | nil => exact Nat.le_refl 0
  | unary _ ih => exact ih
  | binary _ ih => exact Nat.le_succ_of_le ih
  | opened _ hle => exact hle

theorem Holds.height_le (h : Holds ops n) {bracket : Bracket} {height offset : Nat}
    (hmem : .opened bracket height offset ∈ ops) : height ≤ n := by
  induction h with
  | nil => cases hmem
  | unary _ ih =>
    obtain hmem | hmem := List.mem_cons.mp hmem
    · cases hmem
    · exact ih hmem
  | binary _ ih =>
    obtain hmem | hmem := List.mem_cons.mp hmem
    · cases hmem
    · exact Nat.le_succ_of_le (ih hmem)
  | opened _ hle ih =>
    obtain hmem | hmem := List.mem_cons.mp hmem
    · cases hmem
      exact hle
    · exact (ih hmem).trans hle

/-- The operator on top takes operands above the innermost parenthesis only. -/
theorem Holds.floor_add_arity_le (h : Holds (b :: ops) n) : floor (b :: ops) + b.arity ≤ n + 1 := by
  cases h with
  | unary h => exact Nat.succ_le_succ h.floor_le
  | binary h => exact Nat.succ_le_succ (Nat.succ_le_succ h.floor_le)
  | opened _ hle => exact Nat.le_succ_of_le hle

theorem Machine.Stocked.supplied (hm : m.Stocked) : m.Supplied := by
  obtain ⟨n, hholds, hlen⟩ := hm
  refine ⟨fun bracket height offset hmem => ?_, fun hwants b ops hops => ?_, fun hops => ?_⟩
  · have hle := hholds.height_le hmem
    omega
  · rw [hwants] at hlen
    rw [hlen, hops]
    rw [hops] at hholds
    exact hholds.floor_add_arity_le
  · rw [hops] at hholds
    cases hholds
    rw [hlen, Nat.zero_add]

/-! ### Operators are applied -/

/-- The operator on top is applied. -/
def Machine.Reduces (m m' : Machine) : Prop :=
  m.wantsValue = false ∧
    ∃ b ops os, m.operators = b :: ops ∧ b.apply m.operands = .ok os ∧ m' = ⟨os, ops, false⟩

/-- An operator replaces its operands by one. -/
theorem Pending.Applies.exists_rest (h : b.Applies os os') :
    ∃ front v rest, os = front ++ rest ∧ front.length = b.arity ∧ os' = v :: rest := by
  cases h with
  | unary => exact ⟨[_], _, _, rfl, rfl, rfl⟩
  | range => exact ⟨[_, _], _, _, rfl, rfl, rfl⟩
  | binary => exact ⟨[_, _], _, _, rfl, rfl, rfl⟩

theorem Pending.Applies.floor_cons (h : b.Applies os os') : floor (b :: ops) = floor ops := by
  cases h <;> rfl

theorem Machine.Reduces.stocked (h : m.Reduces m') (hm : m.Stocked) : m'.Stocked := by
  obtain ⟨hwants, b, ops, os, hops, happly, rfl⟩ := h
  obtain ⟨n, hholds, hlen⟩ := hm
  rw [hwants] at hlen
  rw [hops] at hholds
  exact hholds.apply hlen happly

/-- What lies below the innermost parenthesis stays. -/
theorem Machine.Reduces.sunken (h : m.Reduces m') (hm : m.Stocked) : m'.sunken = m.sunken := by
  obtain ⟨hwants, b, ops, os, hops, happly, rfl⟩ := h
  have happlies := Pending.apply_eq_ok_iff.mp happly
  have hsame : floor (b :: ops) = floor ops := happlies.floor_cons
  have hfloor := hm.supplied.operands hwants b ops hops
  obtain ⟨front, v, rest, hos, hfront, rfl⟩ := happlies.exists_rest
  rw [hos, hops, hsame, List.length_append, hfront] at hfloor
  have hle : floor ops ≤ rest.reverse.length := by
    rw [List.length_reverse]
    omega
  rw [Machine.sunken, Machine.sunken, hops, hsame, hos, List.reverse_append, List.reverse_cons,
    List.take_append_of_le_length hle, List.take_append_of_le_length hle]

theorem Holds.spares_apply (h : Holds (b :: ops) n) (hlen : os.length = n + 1) : (b.apply os).Spares Starved := by
  cases h with
  | unary =>
    obtain ⟨x, os, rfl⟩ := List.exists_cons_of_length_eq_add_one hlen
    exact (spares_toExpr _ x).bind fun _ _ => spares_pure
  | @binary op offset =>
    obtain ⟨right, os, rfl⟩ := List.exists_cons_of_length_eq_add_one hlen
    obtain ⟨left, os, rfl⟩ := List.exists_cons_of_length_eq_add_one (Nat.succ.inj hlen)
    have hleft := spares_toExpr offset left
    cases op with
    | betweenAnd => exact hleft.bind fun _ _ => (spares_toExpr _ right).bind fun _ _ => spares_pure
    | _ => exact hleft.bind fun l _ => (spares_combine _ l right _).bind fun _ _ => spares_pure
  | opened => exact spares_error.mpr (not_starved_of_ne (by decide) (by decide))

theorem Holds.spares_applyWhile (h : Holds ops n) (hlen : os.length = n + 1) :
    (Sql.applyWhile p os ops).Spares Starved := by
  induction ops generalizing os n with
  | nil => exact spares_ok
  | cons b ops ih =>
    have happly := h.spares_apply hlen
    rw [Sql.applyWhile]
    split
    next =>
      split
      next err herr => exact spares_error.mpr (happly err herr)
      next os' hos' =>
        obtain ⟨n', h', hlen'⟩ := h.apply hlen hos'
        exact ih h' hlen'
    next => exact spares_ok

/-! ### Tokens are taken -/

namespace Machine

theorem requireValue_spares (t : Token) : (m.requireValue t).Spares Starved := by
  unfold requireValue
  split
  next => exact spares_ok
  next =>
    rw [String.append_assoc]
    exact spares_error.mpr (not_starved_append (by decide) (by decide) (by decide))

theorem requireOperator_spares (t : Token) : (m.requireOperator t).Spares Starved := by
  unfold requireOperator
  split
  next =>
    rw [String.append_assoc]
    exact spares_error.mpr (not_starved_append (by decide) (by decide) (by decide))
  next => exact spares_ok

theorem pushValue_spares (v : Operand) (t : Token) : (m.pushValue v t).Spares Starved :=
  (requireValue_spares t).bind fun _ _ => spares_pure

theorem Stocked.spares_reduceWhile (hm : m.Stocked) (hwants : m.wantsValue = false) : (m.reduceWhile p).Spares Starved := by
  obtain ⟨n, hholds, hlen⟩ := hm
  rw [hwants] at hlen
  exact (hholds.spares_applyWhile hlen).map _

theorem Stocked.spares_reduceToBracket (hm : m.Stocked) (hwants : m.wantsValue = false) (offset : Nat) :
    (m.reduceToBracket offset).Spares Starved := by
  refine (hm.spares_reduceWhile hwants).bind fun m' _ => ?_
  split
  next => exact spares_error.mpr (not_starved_of_ne (by decide) (by decide))
  next => exact spares_pure

theorem collapse_spares (m : Machine) (offset : Nat) : (m.collapse offset).Spares Starved := by
  unfold collapse
  split
  next => exact (spares_bracketValue _ _ _).map _
  next => exact spares_error.mpr (not_starved_of_ne (by decide) (by decide))

theorem Stocked.spares_closeBracket (hm : m.Stocked) (offset : Nat) : (m.closeBracket offset).Spares Starved := by
  have hsettle : (m.settle offset).Spares Starved := by
    unfold settle
    split
    next => exact spares_ok
    split
    next => exact spares_error.mpr (not_starved_of_ne (by decide) (by decide))
    next hwants => exact hm.spares_reduceToBracket (Bool.eq_false_of_not_eq_true hwants) offset
  rw [closeBracket_eq]
  exact hsettle.bind fun m _ => m.collapse_spares offset

theorem Stocked.spares_pushBinary (hm : m.Stocked) (op : BinaryOp) (t : Token) : (m.pushBinary op t).Spares Starved :=
  (requireOperator_spares t).bind fun _ hwants =>
    (hm.spares_reduceWhile (requireOperator_eq_ok_iff.mp hwants)).bind fun _ _ => spares_pure

theorem Stocked.spares_pushComma (hm : m.Stocked) (t : Token) : (m.pushComma t).Spares Starved := by
  refine (requireOperator_spares t).bind fun _ hwants => ?_
  refine (hm.spares_reduceToBracket (requireOperator_eq_ok_iff.mp hwants) _).bind fun m' _ => ?_
  split
  next => exact spares_pure
  next => exact spares_pure
  next => exact spares_error.mpr (not_starved_of_ne (by decide) (by decide))

theorem Stocked.spares_pushSymbol (hm : m.Stocked) (scope : Scope) (t : Token) : (m.pushSymbol scope t).Spares Starved := by
  unfold pushSymbol
  split
  next => exact (requireValue_spares t).bind fun _ _ => spares_pure
  split
  next => exact hm.spares_closeBracket _
  split
  next => exact hm.spares_pushComma t
  split
  next => exact spares_error.mpr (not_starved_unsupported _)
  split
  next => exact spares_ok
  split
  next => exact spares_ok
  split
  next => exact pushValue_spares _ t
  split
  next op _ => exact hm.spares_pushBinary op t
  next =>
    rw [String.append_assoc]
    exact spares_error.mpr (not_starved_append (by decide) (by decide) (by decide))

theorem Stocked.spares_pushKeyword (hm : m.Stocked) (word : Keyword) (t : Token) :
    (m.pushKeyword word t).Spares Starved := by
  unfold pushKeyword
  split
  next => exact pushValue_spares .null t
  next => exact (requireValue_spares t).bind fun _ _ => spares_pure
  next =>
    split
    next op _ => exact hm.spares_pushBinary op t
    next => exact spares_ok

theorem Stocked.spares_push (hm : m.Stocked) (scope : Scope) (t : Token) : (m.push scope t).Spares Starved := by
  unfold push
  split
  next => exact spares_ok
  next => exact pushValue_spares _ t
  next => exact (spares_numberValue t).bind fun e _ => pushValue_spares (.expr e) t
  next => exact (spares_value scope t).bind fun e _ => pushValue_spares (.expr e) t
  next word _ => exact hm.spares_pushKeyword word t
  next => exact hm.spares_pushSymbol scope t

theorem pushCall_spares (t : Token) : (m.pushCall t).Spares Starved :=
  (requireValue_spares t).bind fun _ _ => spares_pure

/-! ### Machines that come up -/

/-- The machines that come up, in whatever order tokens come: after tokens, and between two operators that are applied. -/
inductive Reaches (scope : Scope) (start : Machine) : Machine → Prop
  | start : Reaches scope start start
  | push {m m' : Machine} {t : Token} (h : Reaches scope start m) (hpush : m.push scope t = .ok m') :
      Reaches scope start m'
  | call {m m' : Machine} {t : Token} (h : Reaches scope start m) (hcall : m.pushCall t = .ok m') : Reaches scope start m'
  | close {m m' : Machine} {offset : Nat} (h : Reaches scope start m) (hclose : m.closeBracket offset = .ok m') :
      Reaches scope start m'
  | reduce {m m' : Machine} (h : Reaches scope start m) (hreduce : m.Reduces m') : Reaches scope start m'

variable {start : Machine}

theorem Reaches.stocked (h : Reaches scope start m) (hstart : start.Stocked) : m.Stocked := by
  induction h with
  | start => exact hstart
  | push _ hpush ih =>
    obtain ⟨a, -, hperforms⟩ := push_eq_ok_iff.mp hpush
    exact hperforms.stocked ih
  | call _ hcall ih => exact (pushCall_eq_ok_iff.mp hcall).stocked ih
  | close _ hclose ih => exact (closeBracket_eq_ok_iff.mp hclose).stocked ih
  | reduce _ hreduce ih => exact hreduce.stocked ih

theorem Reaches.feed (h : Reaches scope start m) (hfeed : m.feed scope ts = .ok m') : Reaches scope start m' := by
  replace hfeed := feed_eq_ok_iff.mp hfeed
  induction hfeed with
  | nil => exact h
  | push _ ha hperforms _ ih => exact ih (h.push (push_eq_ok_iff.mpr ⟨_, ha, hperforms⟩))
  | call _ hperforms _ ih => exact ih (h.call (pushCall_eq_ok_iff.mpr hperforms))

/-- All machines between the operators that are applied come up too. -/
theorem Reaches.applyWhile (h : Reaches scope start ⟨os, ops, false⟩) (happly : Sql.applyWhile p os ops = .ok (os', ops')) :
    Reaches scope start ⟨os', ops', false⟩ := by
  induction ops generalizing os with
  | nil =>
    cases happly
    exact h
  | cons b ops ih =>
    rw [Sql.applyWhile] at happly
    split at happly
    · split at happly
      next => cases happly
      next hb => exact ih (h.reduce ⟨rfl, _, _, _, rfl, hb, rfl⟩) happly
    · cases happly
      exact h

theorem Stocked.spares_feed (hm : m.Stocked) (scope : Scope) (ts : List Token) : (m.feed scope ts).Spares Starved := by
  fun_induction feed scope m ts with
  | case1 => exact spares_ok
  | case2 m t => exact hm.spares_push scope t
  | case3 m t u ts _ err herr => exact spares_error.mpr (pushCall_spares t err herr)
  | case4 m t u ts _ m' hm' ih => exact ih ((pushCall_eq_ok_iff.mp hm').stocked hm)
  | case5 m t u ts _ err herr => exact spares_error.mpr (hm.spares_push scope t err herr)
  | case6 m t u ts _ m' hm' ih =>
    obtain ⟨a, -, hperforms⟩ := push_eq_ok_iff.mp hm'
    exact ih (hperforms.stocked hm)

/-- All operators leave one operand. -/
theorem Stocked.length_of_applyWhile (hm : m.Stocked) (hended : m.wantsValue = true → m.operators = [])
    (happly : Sql.applyWhile (fun _ => true) m.operands m.operators = .ok (os, ops)) :
    ops = [] ∧ os.length = if m.wantsValue then 0 else 1 := by
  obtain ⟨n, hholds, hlen⟩ := hm
  have hops := eq_nil_of_applyWhile happly
  refine ⟨hops, ?_⟩
  cases hwants : m.wantsValue with
  | true =>
    rw [hwants] at hlen
    rw [hended hwants] at hholds happly
    cases hholds
    cases happly
    exact hlen
  | false =>
    rw [hwants] at hlen
    obtain ⟨n', h', hlen'⟩ := hholds.applyWhile hlen happly
    subst hops
    cases h'
    exact hlen'

theorem Stocked.spares_finish (hm : m.Stocked) (stop : Nat) : (m.finish stop).Spares Starved := by
  unfold finish
  split
  next => exact spares_error.mpr (not_starved_of_ne (by decide) (by decide))
  next hnot =>
    have hended : m.wantsValue = true → m.operators = [] := by
      intro hwants
      rw [hwants, Bool.true_and, Bool.not_eq_true'] at hnot
      exact List.isEmpty_iff.mp (Bool.eq_true_of_not_eq_false hnot)
    split
    next err herr =>
      cases hwants : m.wantsValue with
      | true =>
        rw [hended hwants] at herr
        cases herr
      | false =>
        obtain ⟨n, hholds, hlen⟩ := hm
        rw [hwants] at hlen
        exact spares_error.mpr (hholds.spares_applyWhile hlen err herr)
    next => exact spares_error.mpr (not_starved_of_ne (by decide) (by decide))
    next => exact spares_ok
    next os ops hnil hsingle happly =>
      obtain ⟨-, hlen⟩ := hm.length_of_applyWhile hended happly
      rcases os with _ | ⟨x, _ | ⟨y, os⟩⟩
      · exact (hnil rfl).elim
      · exact (hsingle x rfl).elim
      · rw [List.length_cons, List.length_cons] at hlen
        split at hlen <;> omega

end Machine

/-! ### Fragments -/

theorem spares_scanAll (fuel offset : Nat) (cs : List Char) : (scanAll fuel offset cs).Spares Starved := by
  fun_induction scanAll fuel offset cs <;> simp_all [Spares.map, not_starved_lex]

theorem spares_tokenize (sql : String) : (tokenize sql).Spares Starved := by
  rw [tokenize]
  exact (spares_scanAll _ _ _).map _

/-- What reads a fragment starts with: nothing, or the open parenthesis of a value list. -/
def starts : List Machine :=
  [{}, Machine.openBracket {} .inList 0]

theorem stocked_of_mem_starts {start : Machine} (h : start ∈ starts) : start.Stocked := by
  rw [starts, List.mem_cons, List.mem_singleton] at h
  rcases h with rfl | rfl
  · exact ⟨0, .nil, rfl⟩
  · exact ⟨0, .opened .nil (Nat.le_refl 0), rfl⟩

theorem spares_parseTokens (scope : Scope) (ts : List Token) (stop : Nat) :
    (parseTokens scope ts stop).Spares Starved := by
  have hstart : Machine.Stocked {} := stocked_of_mem_starts List.mem_cons_self
  refine (hstart.spares_feed scope _).bind fun m hm => ?_
  have hstocked := (Machine.Reaches.start.feed hm).stocked hstart
  exact (hstocked.spares_finish stop).bind fun x _ => spares_toExpr stop x

theorem spares_parseInList (q : Query) (table : TableId) (body : String) : (parseInList q table body).Spares Starved := by
  have hstart : (Machine.openBracket {} .inList 0).Stocked :=
    stocked_of_mem_starts (List.mem_cons_of_mem _ List.mem_cons_self)
  refine (spares_tokenize body).bind fun ts _ => (hstart.spares_feed _ _).bind fun m hm => ?_
  have hreaches := Machine.Reaches.start.feed hm
  refine ((hreaches.stocked hstart).spares_closeBracket _).bind fun m' hm' => ?_
  refine (((hreaches.close hm').stocked hstart).spares_finish _).bind fun x _ => ?_
  split
  next => exact spares_pure
  next => exact spares_error.mpr (not_starved_of_ne (by decide) (by decide))

theorem spares_parseBetween (q : Query) (table : TableId) (sql : String) : (parseBetween q table sql).Spares Starved := by
  refine (spares_tokenize sql).bind fun ts _ => ?_
  split
  next => exact spares_error.mpr (not_starved_of_ne (by decide) (by decide))
  next =>
    exact (spares_parseTokens _ _ _).bind fun low _ => (spares_parseTokens _ _ _).bind fun high _ => spares_pure

/-- No operator lacks an operand. Whatever tokens come, in whatever order, and wherever reading has got to, be it between
    two operators that are applied: each open parenthesis has its operands below it, the operator on top finds its
    operands above the innermost of them, applying it leaves those below as they are, and in the end one operand is left.
    So no fragment is refused because an operator lacks an operand or an operand an operator. -/
theorem reading_supplies_operators :
    (∀ scope, ∀ start ∈ starts,
      (∀ ts m, start.feed scope ts = .ok m → Machine.Reaches scope start m) ∧
      (∀ m, Machine.Reaches scope start m →
        (∀ p os ops, m.wantsValue = false → applyWhile p m.operands m.operators = .ok (os, ops) →
          Machine.Reaches scope start ⟨os, ops, false⟩) ∧
        m.Supplied ∧ (∀ m', m.Reduces m' → m'.sunken = m.sunken) ∧
        ∀ stop v, m.finish stop = .ok v → applyWhile (fun _ => true) m.operands m.operators = .ok ([v], [])) ∧
      ∀ ts stop, (start.feed scope ts >>= fun m => m.finish stop).Spares Starved) ∧
    ∀ q table sql, (parseWhere q table sql).Spares Starved ∧ (parseInList q table sql).Spares Starved ∧
      (parseBetween q table sql).Spares Starved := by
  refine ⟨fun scope start hstart => ?_, fun q table sql =>
    ⟨?_, spares_parseInList q table sql, spares_parseBetween q table sql⟩⟩
  · have hstocked := stocked_of_mem_starts hstart
    refine ⟨fun ts m hm => Machine.Reaches.start.feed hm, fun m hm => ?_, fun ts stop => ?_⟩
    · have hm' := hm.stocked hstocked
      refine ⟨fun p os ops hwants happly => ?_, hm'.supplied, fun m' h => h.sunken hm', fun stop v h => ?_⟩
      · obtain ⟨operands, operators, wantsValue⟩ := m
        obtain rfl : wantsValue = false := hwants
        exact hm.applyWhile happly
      · exact (Machine.finish_eq_ok_iff.mp h).2
    · exact (hstocked.spares_feed scope ts).bind fun m hm =>
        ((Machine.Reaches.start.feed hm).stocked hstocked).spares_finish stop
  · exact (spares_tokenize sql).bind fun ts _ => spares_parseTokens _ _ _

/-- Two stars around an equals sign: in an open parenthesis, before and after the sign is applied, and alone at the end. -/
theorem reading_supplies_operators_equals :
    let star : Operand := .expr (.allProperties ⟨0, 0⟩ false)
    let equal : Operand := .expr (.comparison .eq (.allProperties ⟨0, 0⟩ false) (.allProperties ⟨0, 0⟩ false))
    let opened := Pending.opened .group 0 0
    let m : Machine := ⟨[star, star], [.binary (.comparison .eq) 2, opened], false⟩
    let m' : Machine := ⟨[equal], [opened], false⟩
    m.Supplied ∧ m'.Supplied ∧ m'.sunken = m.sunken ∧
      applyWhile (fun _ => true) [star, star] [.binary (.comparison .eq) 1] = .ok ([equal], []) := by
  intro star equal opened m m'
  obtain ⟨hfeed, hreaches, -⟩ := reading_supplies_operators.1 ⟨⟨0, 0⟩, []⟩ {} List.mem_cons_self
  have hm := hfeed [⟨.operator, "(", 0⟩, ⟨.operator, "*", 1⟩, ⟨.operator, "=", 2⟩, ⟨.operator, "*", 3⟩] m rfl
  obtain ⟨happly, hsupplied, hsunken, -⟩ := hreaches m hm
  have hm' := happly (!·.isOpened) _ _ rfl rfl
  have hend := hfeed [⟨.operator, "*", 0⟩, ⟨.operator, "=", 1⟩, ⟨.operator, "*", 2⟩]
    ⟨[star, star], [.binary (.comparison .eq) 1], false⟩ rfl
  exact ⟨hsupplied, (hreaches m' hm').2.1, hsunken m' ⟨rfl, _, _, _, rfl, rfl, rfl⟩,
    (hreaches _ hend).2.2.2 3 equal rfl⟩

end Sql
end ItemQuery
