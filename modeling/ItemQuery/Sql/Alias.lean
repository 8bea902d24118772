import ItemQuery.Sql.Dialect

/-! Short names of tables in a statement. A table keeps the alias it was given, others are called by the
    initials of their type; a number is added when a name is taken. -/

namespace ItemQuery.Sql

/-- The first letters of the words of a name, in small letters. -/
def initials (name : String) : String :=
  let words := Text.splitAt (fun c => c == ' ' || c == '_') name.toList
  let letters := (words.filterMap (·.head?)).filter Text.isAlphabetic
  String.ofList (letters.flatMap Text.lowercase)

/-- The names of tables, in the order in which they were given. -/
abbrev Aliases : Type :=
  List (TableId × String)

/-- Whether a table already has this name in any case. -/
def Aliases.isTaken (aliases : Aliases) (candidate : String) : Bool :=
  aliases.any fun entry => entry.2.toLower == candidate.toLower

/-- The first of `base2`, `base3`, … that is free, among `tries` of them. -/
def numbered (isFree : String → Bool) (base : String) : Nat → Nat → String
  | 0, suffix => base ++ toString suffix
  | tries + 1, suffix =>
    if isFree (base ++ toString suffix) then base ++ toString suffix else numbered isFree base tries (suffix + 1)

/-- The base if it is free, else the first free numbered one. -/
def freshName (isFree : String → Bool) (base : String) (tries : Nat) : String :=
  if isFree base then base else numbered isFree base tries 2

/-- What a table without an alias is called after: its type, the property that leads to it, or `t`. -/
def baseName (ctx : Context) (q : Query) (id : TableId) (item : QueryItem) : String :=
  let ofType := ((ctx.tableTypeName q id).map initials).getD ""
  let ofProvider := (item.provider.map fun p => initials p.name).getD ""
  if !ofType.isEmpty then ofType else if !ofProvider.isEmpty then ofProvider else "t"

/-- Names one more table. Every table and every reserved word rules out at most one candidate. -/
def Aliases.add (ctx : Context) (q : Query) (aliases : Aliases) (id : TableId) : Result Aliases := do
  let item ← q.item id
  let base := item.aliasName.getD (baseName ctx q id item)
  let isFree (candidate : String) :=
    !aliases.isTaken candidate && (item.aliasName.isSome || !reservedWords.contains candidate)
  return aliases ++ [(id, freshName isFree base (aliases.length + reservedWords.length))]

/-- The names of the tables reached from the root. -/
def Aliases.ofQuery (ctx : Context) (q : Query) : Result Aliases :=
  q.walk.foldlM (Aliases.add ctx q) []

/-- The name of a table; one that is not reached is called `t`. -/
def Aliases.name (aliases : Aliases) (id : TableId) : String :=
  ((aliases.find? (·.1 == id)).map (·.2)).getD "t"

end ItemQuery.Sql
