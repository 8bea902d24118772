import ItemQuery.Expr.Basic

/-! Alternatives of equal properties as value lists: `a = 1 or b = 2 or a = 3` is `a in (1, 3) or b = 2`. -/

namespace ItemQuery.Expr

/-- The property and the value of an equality with a value. -/
def equality? : Expr → Option (PropertyRef × Expr)
  | comparison .eq (property p) value => if value.isLiteral then some (p, value) else none
  | _ => none

/-- The values that the terms compare a property with. -/
def valuesOf (p : PropertyRef) (terms : List Expr) : List Expr :=
  terms.filterMap fun term => term.equality?.bind fun e => if e.1 = p then some e.2 else none

/-- Replaces the equalities of a property that occurs in several of `all` by one list, in the place of the
    first of them; `done` holds the properties that have their list. -/
def groupTerms (all : List Expr) : List PropertyRef → List Expr → List Expr
  | _, [] => []
  | done, term :: rest =>
    match term.equality? with
    | none => term :: groupTerms all done rest
    | some (p, _) =>
      if (valuesOf p all).length ≤ 1 then term :: groupTerms all done rest
      else if done.contains p then groupTerms all done rest
      else inList (property p) (valuesOf p all) false none :: groupTerms all (p :: done) rest

/-- The alternatives as one expression, with equalities of one property collected. -/
def regroup (terms : List Expr) : Expr :=
  (anyOf (groupTerms terms [] terms)).getD (bool false)

mutual

/-- The alternatives of a chain of `or`, with the parts of each collapsed. -/
def orTerms : Expr → List Expr
  | logical .or l r => l.orTerms ++ r.orTerms
  | logical .and l r => [logical .and (regroup l.orTerms) (regroup r.orTerms)]
  | parameter name default raw => [parameter name (optionCollapse default) raw]
  | list items => [list (listCollapse items)]
  | comparison op l r => [comparison op (regroup l.orTerms) (regroup r.orTerms)]
  | like l p negated => [like (regroup l.orTerms) (regroup p.orTerms) negated]
  | between l low high negated table =>
    [between (regroup l.orTerms) (regroup low.orTerms) (regroup high.orTerms) negated table]
  | inList l items negated table => [inList (regroup l.orTerms) (listCollapse items) negated table]
  | is l operand => [is (regroup l.orTerms) operand]
  | arithmetic op l r => [arithmetic op (regroup l.orTerms) (regroup r.orTerms)]
  | negate e => [negate (regroup e.orTerms)]
  | not e => [not (regroup e.orTerms)]
  | call function args => [call function (listCollapse args)]
  | literal value => [literal value]
  | object value => [object value]
  | property p => [property p]
  | allProperties table extended => [allProperties table extended]
  | pattern value => [pattern value]

/-- Collapses an optional expression. -/
def optionCollapse : Option Expr → Option Expr
  | none => none
  | some e => some (regroup e.orTerms)

/-- Collapses every expression of a list. -/
def listCollapse : List Expr → List Expr
  | [] => []
  | e :: es => regroup e.orTerms :: listCollapse es

end

/-- Collects the equalities of every chain of `or`, however nested. -/
def collapseIn (e : Expr) : Expr :=
  regroup e.orTerms

end ItemQuery.Expr
