import ItemQuery.Coercion
import ItemQuery.Pattern.Wildcard
import ItemQuery.Search.Condition

/-! The text of a search box as a criterion. Alternatives are separated by delimiters; each is read by the
    data type of the property: truth values, numbers and dates with operators and ranges, or text with
    wildcards. -/

namespace ItemQuery.Search

/-- How the text of one property is read. -/
structure Reader where
  settings : SearchSettings
  dataType : DataType
  condition : Option Condition := none
deriving DecidableEq, Repr

/-- The wildcards of search boxes with the escape character of the settings. -/
def wildcards (settings : SearchSettings) : WildcardSyntax :=
  { WildcardSyntax.simpleSearch with escape := settings.escape }

/-! ### Alternatives -/

/-- Cuts at delimiters. An escape before a delimiter makes it part of the piece and is dropped; before any
    other character both are kept. -/
def cutPieces (delimiters : List Char) (escape : Option Char) : List Char → List (List Char)
  | [] => [[]]
  | [c] => if escape == some c then [[c]] else if delimiters.contains c then [[], []] else [[c]]
  | c :: d :: cs =>
    let extend (front : List Char) (pieces : List (List Char)) : List (List Char) :=
      match pieces with
      | [] => [front]
      | piece :: rest => (front ++ piece) :: rest
    if escape == some c then
      extend (if delimiters.contains d then [d] else [c, d]) (cutPieces delimiters escape cs)
    else if delimiters.contains c then [] :: cutPieces delimiters escape (d :: cs)
    else extend [c] (cutPieces delimiters escape (d :: cs))

/-- The trimmed alternatives of a text; blank ones are dropped. -/
def alternatives (settings : SearchSettings) (value : String) : List String :=
  let pieces := cutPieces settings.orDelimiters.toList settings.escape value.toList
  (pieces.map fun piece => String.ofList (Text.trimWhile Text.isBlank piece)).filter (!·.isEmpty)

/-- The value in a comparison by this operator with a value. -/
def comparedValue? (op : ComparisonOp) : Expr → Option Expr
  | .comparison o _ right => if o = op ∧ right.isLiteral then some right else none
  | _ => none

/-- The left side of a comparison. -/
def comparedSubject? : Expr → Option Expr
  | .comparison _ left _ => some left
  | _ => none

/-- Several comparisons by one operator as a value list. -/
def valueList? (op : ComparisonOp) (negated : Bool) (terms : List Expr) : Option Expr :=
  (terms.mapM (comparedValue? op)).bind fun items =>
    (terms.head?.bind comparedSubject?).map fun left => .inList left items negated none

/-- The alternatives as one criterion: a value list if all are equalities or all inequalities. -/
def combine (terms : List Expr) : Option Expr :=
  let listed :=
    if 1 < terms.length then (valueList? .eq false terms).orElse fun _ => valueList? .ne true terms else none
  listed.orElse fun _ => Expr.anyOf terms

/-! ### Values -/

/-- A truth value in one of its spellings. -/
def readBool (value : String) : Result Bool :=
  let shown := (Text.trim value).toLower
  if ["1", "true", "yes", "on"].contains shown then .ok true
  else if ["0", "false", "no", "off"].contains shown then .ok false
  else .error (.parse 0 ("'" ++ value ++ "' is not a boolean"))

/-- An operator at the start of a text, and the text after it and spacing. -/
def leadingOperator? (cs : List Char) : Option (ComparisonOp × List Char) :=
  let found : Option (ComparisonOp × List Char) := match cs with
    | '>' :: '=' :: rest => some (.ge, rest)
    | '<' :: '=' :: rest => some (.le, rest)
    | '<' :: '>' :: rest => some (.ne, rest)
    | '!' :: '=' :: rest => some (.ne, rest)
    | '>' :: rest => some (.gt, rest)
    | '<' :: rest => some (.lt, rest)
    | '=' :: rest => some (.eq, rest)
    | _ => none
  found.map fun f => (f.1, f.2.dropWhile Text.isSpacing)

/-- The ends of a range. -/
def range? (value : String) : Option (String × String) :=
  (Text.cut? "...".toList value.toList).map fun halves =>
    (Text.trim (String.ofList halves.1), Text.trim (String.ofList halves.2))

namespace Reader

/-- A value of the data type. -/
def literal (r : Reader) (value : String) : Result Expr :=
  let shown := Text.trim value
  let checked (found : Option Literal) : Result Expr :=
    match found with
    | some l => .ok (.literal l)
    | none => .error (.parse 0 ("'" ++ shown ++ "' is not a valid " ++ r.dataType.name ++ " value"))
  match r.dataType with
  | .boolean => (readBool shown).map .bool
  | .integer => checked ((Number.readInt64? shown).map .integer)
  | .decimal | .float =>
    checked (((Number.readInt64? shown).map .integer).orElse fun _ => (Number.readFloat? shown).map .float)
  | .date => checked ((DateTime.read? shown).map .dateTime)
  | _ => do
    let pattern ← Pattern.ofWildcard (wildcards r.settings) shown
    return .text (pattern.literal?.getD shown)

/-- An end of a range; the last day of a range of dates counts as a whole. -/
def bound (r : Reader) (value : String) (last : Bool) : Result Expr :=
  if r.dataType = .date then
    match DateTime.read? value with
    | none => .error (.parse 0 ("'" ++ value ++ "' is not a date"))
    | some t =>
      .ok (.literal (.dateTime (if last && DateTime.isDateOnly value then t.endOfDay else t)))
  else r.literal value

/-- The comparison of the chosen condition; equality if none is chosen. -/
def defaultOp (r : Reader) : Result ComparisonOp :=
  match r.condition with
  | none => .ok .eq
  | some condition =>
    match condition.comparison? with
    | some op => .ok op
    | none =>
      .error (.unsupported ("condition " ++ condition.name ++ " for " ++ r.dataType.name ++ " values"))

/-- A comparison with a day: with its first or its last second, or with the range between them. -/
def dayCriterion (subject : Expr) (op : ComparisonOp) (first last : Expr) : Expr :=
  match op with
  | .eq => .between subject first last false none
  | .ne => .between subject first last true none
  | .gt | .le => .comparison op subject last
  | .ge | .lt => .comparison op subject first

/-- A number or a date, after an operator or not. -/
def compared (r : Reader) (subject : Expr) (value : String) : Result Expr := do
  let (op, shown) ←
    match if r.settings.allowOperators then leadingOperator? value.toList else none with
    | some (op, rest) => pure (op, Text.trim (String.ofList rest))
    | none => do pure (← r.defaultOp, value)
  if r.dataType = .date && DateTime.isDateOnly shown then
    let first ← r.bound shown false
    let last ← r.bound shown true
    return dayCriterion subject op first last
  else return .comparison op subject (← r.literal shown)

/-- A number, a date, or a range of them. -/
def ordered (r : Reader) (subject : Expr) (value : String) : Result Expr :=
  let wantsRange := r.condition = some .between
  match if r.settings.allowOperators ∨ wantsRange then range? value else none with
  | some (low, high) => do
    let first ← r.bound low false
    let last ← r.bound high true
    return .between subject first last false none
  | none =>
    if wantsRange then .error (.parse 0 ("'" ++ value ++ "' is not a range")) else r.compared subject value

/-- The conditions that go with wildcards. -/
def allowsWildcards : Option Condition → Bool
  | none | some .equal | some .notEqual | some .like | some .notLike => true
  | _ => false

/-- A text, which is compared if it has no wildcards. -/
def textual (r : Reader) (subject : Expr) (value : String) : Result Expr := do
  let pattern ← Pattern.ofWildcard (wildcards r.settings) value
  let like : Result Expr :=
    if allowsWildcards r.condition then
      .ok (.like subject (.pattern pattern) (r.condition = some .notLike || r.condition = some .notEqual))
    else
      .error (.unsupported ("wildcards with condition " ++ (r.condition.map (·.name)).getD ""))
  if r.condition = some .like ∨ r.condition = some .notLike then like
  else
    match pattern.literal? with
    | some literal => return .comparison (← r.defaultOp) subject (.text literal)
    | none => like

/-- One alternative. -/
def alternative (r : Reader) (subject : Expr) (value : String) : Result Expr := do
  if r.dataType = .boolean then
    let op ← r.defaultOp
    return .comparison op subject (.bool (← readBool value))
  else if r.dataType.isNumeric ∨ r.dataType = .date then r.ordered subject value
  else r.textual subject value

/-- The criterion of a text; none for a blank one. A test for null needs no text. -/
def read (r : Reader) (p : PropertyRef) (value : String) : Result (Option Expr) :=
  let subject := Expr.property p
  let pieces := alternatives r.settings value
  match r.condition with
  | some .isNull => .ok (some (.is subject .null))
  | some .isNotNull => .ok (some (.is subject .notNull))
  | condition =>
    if pieces.isEmpty then .ok none
    else if condition = some .inList ∨ condition = some .notIn then do
      return some (.inList subject (← pieces.mapM r.literal) (condition = some .notIn) none)
    else do return combine (← pieces.mapM (r.alternative subject))

end Reader

/-- The criterion of a text for a property of a query; without a known data type it is text. -/
def parse (ctx : Context) (q : Query) (p : PropertyRef) (condition : Option Condition) (value : String) :
    Result (Option Expr) :=
  let dataType := (ctx.dataType? q p).getD .string
  Reader.read { settings := ctx.settings.search, dataType, condition } p value

end ItemQuery.Search
