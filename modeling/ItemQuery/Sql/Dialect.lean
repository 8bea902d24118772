import ItemQuery.Pattern.Wildcard
import ItemQuery.Settings
import ItemQuery.Text.Letters

/-! What the SQL dialects write differently: quoted names, literals, paging and function calls. -/

namespace ItemQuery

namespace Sql

/-- The words that have to be quoted when they are names. -/
def reservedWords : List String :=
  ["all", "and", "as", "asc", "between", "by", "case", "check", "column", "constraint", "create", "current",
   "default", "delete", "desc", "distinct", "drop", "else", "end", "escape", "exists", "fetch", "file", "for",
   "foreign", "from", "group", "having", "in", "index", "inner", "insert", "is", "join", "key", "left", "like",
   "not", "null", "of", "offset", "on", "or", "order", "outer", "primary", "references", "right", "rows",
   "select", "table", "then", "to", "union", "update", "user", "value", "values", "when", "where"]

/-- Whether a name has to be quoted: a reserved word, an empty one, one that starts with a digit, or one with
    a character other than letters, digits and the underscore. -/
def needsQuoting (name : String) : Bool :=
  let cs := name.toList
  reservedWords.contains (String.ofList (cs.flatMap Text.lowercase)) || cs.isEmpty
    || cs.any (fun c => !Text.isAlphanumeric c && c != '_') || cs.head?.any Text.isNumeric


end Sql

namespace Dialect

/-- A name in quotes. -/
def quoteIdentifier : Dialect → String → String
  | sqlServer, name => Text.quotedBy '[' ']' name
  | ansi, name => Text.quotedBy '"' '"' name

/-- A name, in quotes if it needs them. -/
def identifier (d : Dialect) (name : String) : String :=
  if Sql.needsQuoting name then d.quoteIdentifier name else name

/-- The place of a parameter without a value. -/
def placeholder : Dialect → String → String
  | sqlServer, name => "@" ++ name
  | ansi, name => ":" ++ name

/-- A truth value. -/
def boolLiteral : Dialect → Bool → String
  | sqlServer, value => if value then "1" else "0"
  | ansi, value => if value then "true" else "false"

/-- The operator that joins texts. -/
def concatOperator : Dialect → String
  | sqlServer => "+"
  | ansi => "||"

/-- A point in time. -/
def dateTimeLiteral : Dialect → DateTime → String
  | sqlServer, t => "'" ++ t.isoText ++ "'"
  | ansi, t => "timestamp '" ++ t.spacedText ++ "'"

/-- The wildcards of `like`. -/
def likeSyntax : Dialect → WildcardSyntax
  | sqlServer => .sqlServer
  | ansi => .ansi

/-- The parts of the paging clause; none without an offset and a limit. -/
def paging (d : Dialect) (offset fetch : Option UInt64) : List String :=
  let skip (n : UInt64) := "offset " ++ Number.uint64Text n ++ " rows"
  match d with
  | sqlServer =>
    if offset.isNone && fetch.isNone then []
    else
      skip (offset.getD 0)
        :: (fetch.map fun n => "fetch next " ++ Number.uint64Text n ++ " rows only").toList
  | ansi =>
    (offset.map skip).toList ++ (fetch.map fun n => "fetch first " ++ Number.uint64Text n ++ " rows only").toList

/-- The text of a literal. -/
def literal (d : Dialect) : Literal → String
  | .bool b => d.boolLiteral b
  | .integer n => Number.int64Text n
  | .float x => Number.floatText x
  | .string s => Text.quoted s
  | .dateTime t => d.dateTimeLiteral t

/-- A pattern as a text literal; an escape character is declared if the text has one. -/
def patternLiteral (d : Dialect) (p : Pattern) : Result String := do
  let shown ← Pattern.toWildcard d.likeSyntax p
  match d.likeSyntax.escape with
  | some escape =>
    if shown.toList.contains escape then
      return Text.quoted shown ++ " escape '" ++ String.singleton escape ++ "'"
    else return Text.quoted shown
  | none => return Text.quoted shown

/-! ### Functions -/

/-- The number of arguments that a function takes; any number for one without a name of its own. -/
def arity? : Function → Option Nat
  | .currentDateTime | .currentUtcDateTime => some 0
  | .length | .toLower | .toUpper | .trim | .year | .month | .day | .hour | .minute | .second => some 1
  | .indexOf | .addDays | .addHours | .addMinutes | .diffDays => some 2
  | .substring => some 3
  | .startsWith | .endsWith | .contains | .other _ => none

/-- The unit that a date function adds. -/
def addedUnit : Function → String
  | .addDays => "day"
  | .addHours => "hour"
  | _ => "minute"

/-- A call in SQL Server, with the right number of arguments. -/
def serverCall (f : Function) (args : List String) : String :=
  match f, args with
  | .currentDateTime, _ => "getdate()"
  | .currentUtcDateTime, _ => "getutcdate()"
  | .indexOf, [s, part] => "(charindex(" ++ part ++ ", " ++ s ++ ") - 1)"
  | .length, [s] => "len(" ++ s ++ ")"
  | .toLower, [s] => "lower(" ++ s ++ ")"
  | .toUpper, [s] => "upper(" ++ s ++ ")"
  | .trim, [s] => "ltrim(rtrim(" ++ s ++ "))"
  | .year, [t] => "year(" ++ t ++ ")"
  | .month, [t] => "month(" ++ t ++ ")"
  | .day, [t] => "day(" ++ t ++ ")"
  | .hour, [t] => "datepart(hour, " ++ t ++ ")"
  | .minute, [t] => "datepart(minute, " ++ t ++ ")"
  | .second, [t] => "datepart(second, " ++ t ++ ")"
  | .diffDays, [a, b] => "datediff(day, " ++ a ++ ", " ++ b ++ ")"
  | .addDays, [t, n] | .addHours, [t, n] | .addMinutes, [t, n] =>
    "dateadd(" ++ addedUnit f ++ ", " ++ n ++ ", " ++ t ++ ")"
  | f, args => f.name ++ "(" ++ ", ".intercalate args ++ ")"

/-- A call in standard SQL, with the right number of arguments. -/
def ansiCall (f : Function) (args : List String) : String :=
  let extract (part source : String) := "extract(" ++ part ++ " from " ++ source ++ ")"
  match f, args with
  | .currentDateTime, _ => "current_timestamp"
  | .currentUtcDateTime, _ => "(current_timestamp at time zone 'UTC')"
  | .indexOf, [s, part] => "(position(" ++ part ++ " in " ++ s ++ ") - 1)"
  | .length, [s] => "char_length(" ++ s ++ ")"
  | .toLower, [s] => "lower(" ++ s ++ ")"
  | .toUpper, [s] => "upper(" ++ s ++ ")"
  | .substring, [s, start, count] => "substring(" ++ s ++ " from " ++ start ++ " for " ++ count ++ ")"
  | .year, [t] => extract "year" t
  | .month, [t] => extract "month" t
  | .day, [t] => extract "day" t
  | .hour, [t] => extract "hour" t
  | .minute, [t] => extract "minute" t
  | .second, [t] => extract "second" t
  | .diffDays, [a, b] => extract "day" ("(" ++ b ++ " - " ++ a ++ ")")
  | .addDays, [t, n] | .addHours, [t, n] | .addMinutes, [t, n] =>
    "(" ++ t ++ " + " ++ n ++ " * interval '1' " ++ addedUnit f ++ ")"
  | f, args => f.name ++ "(" ++ ", ".intercalate args ++ ")"

/-- A call with rendered arguments. String tests are conditions, not values. -/
def call (d : Dialect) (f : Function) (args : List String) : Result String :=
  if f.isPredicate then .error (.unsupported (f.name ++ " outside of a condition"))
  else
    match arity? f with
    | some n =>
      if args.length = n then .ok (match d with | sqlServer => serverCall f args | ansi => ansiCall f args)
      else
        .error (.unsupported
          (f.name ++ " expects " ++ toString n ++ " argument(s), got " ++ toString args.length))
    | none => .ok (f.name ++ "(" ++ ", ".intercalate args ++ ")")

end Dialect
end ItemQuery
