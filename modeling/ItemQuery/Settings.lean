import ItemQuery.Query.Basic
import ItemQuery.Schema

/-! Settings, and the context in which queries are read and written: settings and a schema. -/

namespace ItemQuery

/-- The SQL dialects. -/
inductive Dialect where
  | sqlServer
  | ansi
deriving DecidableEq, Repr, Inhabited

/-- The name of a dialect in any case, or one of its other names. -/
def Dialect.ofName? (name : String) : Option Dialect :=
  match name.toLower with
  | "sqlserver" => some .sqlServer
  | "mssql" => some .sqlServer
  | "tsql" => some .sqlServer
  | "ansi" => some .ansi
  | "standard" => some .ansi
  | _ => none

/-- The complaint about an unknown dialect. -/
def Dialect.unknown (name : String) : String :=
  "unknown SQL dialect '" ++ name.toLower ++ "'"

/-- The clauses of a statement. -/
inductive SqlClause where
  | select
  | fromTables
  | filter
  | orderBy
  | offset
deriving DecidableEq, Repr, Inhabited

namespace SqlClause

/-- All clauses in the order of a statement. -/
def all : List SqlClause :=
  [select, fromTables, filter, orderBy, offset]

/-- The name in settings. -/
def name : SqlClause → String
  | select => "select"
  | fromTables => "from"
  | filter => "where"
  | orderBy => "order_by"
  | offset => "offset"

/-- The clause of a name. -/
def ofName? (called : String) : Option SqlClause :=
  all.find? (·.name == called)

end SqlClause

/-- How search text is read and written. -/
structure SearchSettings where
  /-- Each of these characters separates alternatives. -/
  orDelimiters : String := "|"
  /-- Makes the next delimiter or wildcard literal. -/
  escape : Option Char := some '\\'
  /-- Whether `>5` and `a...b` are understood. -/
  allowOperators : Bool := true
deriving DecidableEq, Repr, Inhabited

/-- Settings of readers and writers. -/
structure Settings where
  dialect : Dialect := .sqlServer
  /-- Offset of local times from universal time. -/
  timeZoneOffsetMinutes : Int := 0
  search : SearchSettings := {}
  /-- The clauses to write; none means all. -/
  sqlClauses : List SqlClause := []
  /-- Values of named parameters. -/
  parameters : Dictionary String := {}
deriving Inhabited

namespace Settings

/-- The offset in seconds; one of a day or more counts as none. -/
def zoneSeconds (s : Settings) : Int :=
  let seconds := s.timeZoneOffsetMinutes * 60
  if -86400 < seconds ∧ seconds < 86400 then seconds else 0

/-- The clauses that are written, in the order of a statement. -/
def clauses (s : Settings) : List SqlClause :=
  if s.sqlClauses.isEmpty then SqlClause.all else SqlClause.all.filter (s.sqlClauses.contains ·)

end Settings

/-- Settings and what is known of item types. -/
structure Context where
  settings : Settings := {}
  schema : Schema := {}
deriving Inhabited

namespace Context

/-- The item type of a table, looked for along at most `steps` properties; none also if it takes more. -/
def typeNameWithin (ctx : Context) (q : Query) : Nat → TableId → Option String
  | 0, _ => none
  | steps + 1, id =>
    (q.get? id).bind fun item =>
      item.typeName.orElse fun _ =>
        item.provider.bind fun p =>
          (ctx.typeNameWithin q steps p.table).bind fun parent =>
            (ctx.schema.property? parent p.name).bind (·.dataSource)

/-- The item type of a table: its own, or the one behind the property that leads to it. A search that ends meets no
    table twice, so it ends within these steps. They run out only where the properties lead in a circle: there the
    search that they bound has no end, and the answer is none. -/
def tableTypeName (ctx : Context) (q : Query) (id : TableId) : Option String :=
  ctx.typeNameWithin q (q.tableCount + 1) id

/-- What is known of a property. -/
def descriptor? (ctx : Context) (q : Query) (p : PropertyRef) : Option PropertyDescriptor :=
  (ctx.tableTypeName q p.table).bind fun typeName => ctx.schema.property? typeName p.name

/-- The data type of a property. -/
def dataType? (ctx : Context) (q : Query) (p : PropertyRef) : Option DataType :=
  (ctx.descriptor? q p).map (·.dataType)

end Context
end ItemQuery
