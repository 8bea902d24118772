import Mathlib.Data.List.Basic
import ItemQuery.Proofs.Sql.Regrouping

/-! Minus signs at the start of a criterion. A negation writes its sign right in front of its operand, and two signs in a
    row would start a comment. Which operands start with a sign can be told from the expression; collecting equalities
    and counting from one do not add such operands. -/

namespace ItemQuery.Sql

open ItemQuery.Expr

variable {ctx : Context} {q : Query} {e : Expr}

/-- Whether the text of a literal starts with a minus sign, as those of negative numbers do. -/
def isSigned (l : Literal) : Bool :=
  (Dialect.sqlServer.literal l).toList.head? == some '-'

mutual

/-- Whether the text of an expression starts with a minus sign: its own, or that of its leftmost operand, unless this
    is in parentheses. -/
def signed (ctx : Context) (q : Query) : Expr → Bool
  | .literal l => isSigned l
  | .object o => isSigned (ctx.coerce q o)
  | .parameter name _ _ =>
    (ctx.settings.parameters.get? (Writer.parameterName name)).any fun bound => isSigned (.infer bound)
  | .negate _ => true
  | .comparison _ l _ | .like l _ _ | .between l _ _ _ _ | .is l _ =>
    !Precedence.comparison.needsParens l.precedence false false && signed ctx q l
  | .inList l items _ _ =>
    (!Precedence.comparison.needsParens l.precedence false false && signed ctx q l) && !items.isEmpty
  | .arithmetic op l _ => !op.precedence.needsParens l.precedence false op.isAssociative && signed ctx q l
  | .logical op l _ => !op.precedence.needsParens l.precedence false true && signed ctx q l
  | .call f args => f.isPredicate && signedFirst ctx q args
  | _ => false

/-- Whether the text of the first argument of a string test starts with a minus sign. -/
def signedFirst (ctx : Context) (q : Query) : List Expr → Bool
  | e :: _ => !Precedence.comparison.needsParens e.precedence false false && signed ctx q e
  | [] => false

end

/-- A call has a name of its own. -/
def IsNamed : Expr → Prop
  | .call f _ => f.isOther = false
  | _ => True

/-- A parameter is bound and not raw. -/
def IsBound (ctx : Context) : Expr → Prop
  | .parameter name _ raw =>
    raw = false ∧ ctx.settings.parameters.contains (Writer.parameterName name) = true
  | _ => True

/-- A negation does not stand in front of a minus sign. -/
def IsApart (ctx : Context) (q : Query) : Expr → Prop
  | .negate e => Precedence.negation.needsParens e.precedence true false = true ∨ signed ctx q e = false
  | _ => True

structure Tame (ctx : Context) (q : Query) (e : Expr) : Prop where
  named : IsNamed e
  bound : IsBound ctx e
  apart : IsApart ctx q e

theorem needsParens_or (own : Precedence) : LogicalOp.or.precedence.needsParens own false true = false := by
  cases own <;> rfl

theorem signed_foldl_or (es : List Expr) : signed ctx q (es.foldl (logical .or) e) = signed ctx q e := by
  induction es generalizing e with
  | nil => rfl
  | cons x es ih =>
    rw [List.foldl_cons, ih, signed, needsParens_or]
    rfl

theorem signed_regroup (t : Expr) (rest : List Expr) : signed ctx q (regroup (t :: rest)) = signed ctx q t := by
  obtain ⟨first, more, -, hregroup, hfirst⟩ := exists_regroup t rest
  rw [hregroup, signed_foldl_or]
  rcases hfirst with ⟨rfl, -⟩ | ⟨p, value, values, rfl, rfl⟩
  · rfl
  · simp [signed]

/-- What starts with a sign when its equalities are collected did so before. -/
theorem signed_collapseIn (e : Expr) (h : signed ctx q e.collapseIn = true) :
    e.collapseIn.precedence = e.precedence ∧ signed ctx q e = true := by
  induction e using induction_children with
  | h e ih =>
    have hleft : ∀ {p : Precedence} {l : Expr} {associative : Bool}, l ∈ e.children →
        (!p.needsParens l.collapseIn.precedence false associative && signed ctx q l.collapseIn) = true →
        (!p.needsParens l.precedence false associative && signed ctx q l) = true := by
      intro p l associative hl hsigned
      rw [Bool.and_eq_true] at hsigned ⊢
      obtain ⟨hprecedence, hsign⟩ := ih l hl hsigned.2
      exact ⟨hprecedence ▸ hsigned.1, hsign⟩
    cases e with
    | logical op l r =>
      cases op with
      | or =>
        rcases collapseIn_or l r with ⟨m, s, heq⟩ | ⟨p, items, heq⟩
        · obtain ⟨t, rest, hl⟩ := List.exists_cons_of_ne_nil (orTerms_ne_nil l)
          rw [collapseIn, orTerms, hl, List.cons_append, signed_regroup] at h
          have hsign : signed ctx q l = true := by
            refine (ih l (by simp [children]) ?_).2
            rw [collapseIn, hl, signed_regroup, h]
          exact ⟨by rw [heq]; rfl, by rw [signed, needsParens_or, hsign]; rfl⟩
        · rw [heq] at h
          simp [signed] at h
      | and =>
        rw [eq_collapseIn rfl] at h ⊢
        exact ⟨rfl, hleft (by simp [children]) h⟩
    | comparison op l r | like l r _ | between l _ _ _ _ | is l _ | arithmetic op l r =>
      rw [eq_collapseIn rfl] at h ⊢
      exact ⟨rfl, hleft (by simp [children]) h⟩
    | inList l items negated table =>
      rw [eq_collapseIn rfl] at h ⊢
      have hempty : (listCollapse items).isEmpty = items.isEmpty := by cases items <;> rfl
      rw [signed, Bool.and_eq_true, hempty] at h
      rw [signed, Bool.and_eq_true]
      exact ⟨rfl, hleft (by simp [children]) h.1, h.2⟩
    | call f args =>
      rw [eq_collapseIn rfl] at h ⊢
      refine ⟨rfl, ?_⟩
      rw [signed, Bool.and_eq_true] at h ⊢
      cases args with
      | nil => cases h.2
      | cons a args => exact ⟨h.1, hleft (by simp [children]) h.2⟩
    | _ =>
      rw [eq_collapseIn rfl] at h ⊢
      exact ⟨rfl, h⟩

theorem collects_tame : Collects (Tame ctx q) where
  chain _ _ := ⟨trivial, trivial, trivial⟩
  values _ _ := ⟨trivial, trivial, trivial⟩
  node e hne h := by
    cases e with
    | logical op l r =>
      cases op with
      | or => exact absurd rfl (hne l r)
      | and =>
        rw [eq_collapseIn rfl]
        exact ⟨trivial, trivial, trivial⟩
    | negate e =>
      rw [eq_collapseIn rfl]
      refine ⟨trivial, trivial, ?_⟩
      cases hsign : signed ctx q e.collapseIn with
      | false => exact .inr hsign
      | true =>
        obtain ⟨hprecedence, hsign⟩ := signed_collapseIn e hsign
        have hparens := h.apart.resolve_right (by rw [hsign]; nofun)
        exact .inl (hprecedence ▸ hparens)
    | parameter | call =>
      rw [eq_collapseIn rfl]
      exact ⟨h.named, h.bound, h.apart⟩
    | _ =>
      rw [eq_collapseIn rfl]
      exact ⟨trivial, trivial, trivial⟩

theorem signed_oneBased (e : Expr) : signed ctx q e.oneBased = signed ctx q e := by
  induction e using induction_children with
  | h e ih =>
    cases e with
    | comparison op l r | like l r _ | between l _ _ _ _ | is l _ | arithmetic op l r | logical op l r =>
      simp only [oneBased, signed, precedence_oneBased, ih l (by simp [children])]
    | inList l items negated table =>
      have hempty : (listOneBased items).isEmpty = items.isEmpty := by cases items <;> rfl
      simp only [oneBased, signed, precedence_oneBased, ih l (by simp [children]), hempty]
    | call f args =>
      rw [oneBased, signed, signed]
      cases hf : f.isPredicate with
      | false => rfl
      | true =>
        have hargs : oneBasedArgs f (listOneBased args) = listOneBased args := by
          cases f <;> first | rfl | cases hf
        rw [hargs]
        cases args with
        | nil => rfl
        | cons a args => simp only [listOneBased, signedFirst, precedence_oneBased, ih a (by simp [children])]
    | _ => rfl

theorem counts_tame : Counts (Tame ctx q) where
  int _ := ⟨trivial, trivial, trivial⟩
  sum _ _ _ := ⟨trivial, trivial, trivial⟩
  node e h := by
    cases e with
    | negate e =>
      refine ⟨trivial, trivial, ?_⟩
      rw [oneBased, IsApart, signed_oneBased, precedence_oneBased]
      exact h.apart
    | parameter | call => exact ⟨h.named, h.bound, h.apart⟩
    | _ => exact ⟨trivial, trivial, trivial⟩

end ItemQuery.Sql
