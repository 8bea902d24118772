import ItemQuery.Aml.Reader
import ItemQuery.Aml.Writer
import ItemQuery.Sql.Statement
import ItemQuery.Sql.Where

/-! Conversions of whole queries with default settings and nothing known of item types. -/

namespace ItemQuery

/-- A query of one table with a filter in SQL. -/
def Query.ofWhere (item : QueryItem) (sql : String) : Result Query := do
  let q := Query.ofItem item
  return q.setFilter q.root (← Sql.parseWhere q q.root sql)

/-- The SQL statement of an AML query. -/
def amlToSql (aml : String) : Result String := do
  (← Aml.parse aml).toSql {}

/-- The AML query of a criterion in SQL about one item type. -/
def whereToAml (typeName sql : String) : Result String := do
  (← Query.ofWhere (.ofType typeName) sql).toAml {}

end ItemQuery
