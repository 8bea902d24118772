import ItemQuery.Proofs.Query.KeyTree
import ItemQuery.Proofs.Result
import ItemQuery.Sql.Statement

/-! The clauses of a statement taken apart: the terms of each table and the subqueries of its relationships. -/

namespace ItemQuery

namespace Sql.Writer

variable {w : Writer} {depth : Nat} {t : TableId}

/-- The key of a join as a term. -/
def linkTerm (w : Writer) (j : Join) : Term :=
  (w.column ⟨j.right, j.rightProperty⟩ ++ " = " ++ w.column ⟨j.left, j.leftProperty⟩, .comparison)

/-- The term of a relationship, given its tables and its criteria. -/
def existsTerm (tables : String) (terms : List Term) : Term :=
  ("exists (select null from " ++ tables ++ " where " ++ conjunction terms ++ ")", .comparison)

/-- The term of a relationship with the criteria behind it. -/
def relationTerm (w : Writer) (depth : Nat) (j : Join) : Result Term := do
  let inner ← w.terms depth j.right
  let tables ← w.fromTables j.right
  return existsTerm tables (w.linkTerm j :: inner)

/-- The terms of a table. -/
def tableTerms (w : Writer) (depth : Nat) (t : TableId) : Result (List Term) := do
  let item ← w.query.item t
  let own ← w.filterTerm item
  let related ← item.relationships.mapM (w.relationTerm depth)
  return w.idTerms t item ++ own ++ related

theorem terms_eq_ok {ts : List Term} : w.terms (depth + 1) t = .ok ts ↔
    ∃ found, (w.query.foreignKeyTree t).mapM (w.tableTerms depth) = .ok found ∧ found.flatten = ts := by
  rw [terms, Result.bind_eq_ok]
  exact exists_congr fun found => and_congr_right fun _ => Result.pure_eq_ok

theorem tableTerms_eq_ok {ts : List Term} : w.tableTerms depth t = .ok ts ↔
    ∃ item own related, w.query.get? t = some item ∧ w.filterTerm item = .ok own ∧
      item.relationships.mapM (w.relationTerm depth) = .ok related ∧ w.idTerms t item ++ own ++ related = ts := by
  simp only [tableTerms, Query.item_eq_ok, Result.bind_eq_ok, Result.pure_eq_ok, exists_and_left]

theorem relationTerm_eq_ok {j : Join} {term : Term} : w.relationTerm depth j = .ok term ↔
    ∃ inner tables, w.terms depth j.right = .ok inner ∧ w.fromTables j.right = .ok tables ∧
      existsTerm tables (w.linkTerm j :: inner) = term := by
  simp only [relationTerm, Result.bind_eq_ok, Result.pure_eq_ok, exists_and_left]

end Sql.Writer
end ItemQuery
