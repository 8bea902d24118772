import ItemQuery.Search.Reader

/-! Criteria about one property as the text of a search box. An equality is the value alone, a range of one
    whole day is its date, and any other range has three points between its ends. -/

namespace ItemQuery.Search

/-- The complaint about a criterion without a form in a search box. -/
def noForm (e : Expr) : QueryError :=
  .unsupported ("'" ++ e.display ++ "' has no simple search form")

/-- The delimiter that is written between alternatives. -/
def delimiter (s : SearchSettings) : Result String :=
  match s.orDelimiters.toList with
  | c :: _ => .ok (String.singleton c)
  | [] => .error (.unsupported "alternatives without an OR delimiter")

/-- Fails if operators are not understood. -/
def requireOperators (s : SearchSettings) : Result Unit :=
  if s.allowOperators then .ok () else .error (.unsupported "search operators are disabled in settings")

/-- A text after an operator. -/
def withOperator (s : SearchSettings) (symbol shown : String) : Result String := do
  requireOperators s
  return symbol ++ shown

/-- Puts the escape character before every delimiter. -/
def escapeDelimiters (s : SearchSettings) (shown : String) : String :=
  match s.escape with
  | none => shown
  | some escape =>
    String.ofList (shown.toList.flatMap fun c => if s.orDelimiters.toList.contains c then [escape, c] else [c])

/-- A plain text, with wildcards and delimiters escaped. -/
def literalText (s : SearchSettings) (value : String) : Result String := do
  let shown ← Pattern.toWildcard (wildcards s) (Pattern.ofText value)
  if s.escape.isNone && shown.toList.any (s.orDelimiters.toList.contains ·) then
    .error (.unsupported ("'" ++ value ++ "' contains an OR delimiter and no escape character is set"))
  else return escapeDelimiters s shown

/-- A value. -/
def valueText (s : SearchSettings) : Expr → Result String
  | .literal (.string value) => literalText s value
  | .object o => literalText s o.value
  | .literal (.integer n) => .ok (Number.int64Text n)
  | .literal (.float x) => .ok (Number.plainFloatText x)
  | .literal (.bool b) => .ok (if b then "1" else "0")
  | .literal (.dateTime t) => .ok (if t.isMidnight then t.dateText else t.isoText)
  | e => .error (noForm e)

/-- Whether a comparison with this time speaks of a whole day. -/
def comparesDay (op : ComparisonOp) (t : DateTime) : Bool :=
  match op with
  | .gt | .le => t == t.endOfDay
  | .ge | .lt => t.isMidnight
  | .eq | .ne => false

/-- A comparison of the property with a value. -/
def comparisonText (s : SearchSettings) (op : ComparisonOp) (value : Expr) : Result String := do
  let day := match value with
    | .literal (.dateTime t) => if comparesDay op t then some t.dateText else none
    | _ => none
  let shown ← match day with
    | some date => pure date
    | none => valueText s value
  if op = .eq then return shown else withOperator s op.symbol shown

/-- The date of a range that is one whole day. -/
def wholeDay? : Expr → Expr → Option String
  | .literal (.dateTime first), .literal (.dateTime last) =>
    if DateTime.isWholeDay first last then some first.dateText else none
  | _, _ => none

/-- A criterion that is no alternative of others. -/
def termText (s : SearchSettings) (e : Expr) : Result String :=
  match e with
  | .comparison op l r =>
    match l.property?, r.property? with
    | some _, none => comparisonText s op r
    | none, some _ => comparisonText s op.flip l
    | _, _ => .error (noForm e)
  | .between _ low high negated _ =>
    match wholeDay? low high with
    | some date => if negated then withOperator s "<>" date else .ok date
    | none =>
      if negated then .error (noForm e)
      else do
        requireOperators s
        return (← valueText s low) ++ "..." ++ (← valueText s high)
  | .inList _ items false _ => do
    let mark ← delimiter s
    return mark.intercalate (← items.mapM (valueText s))
  | .like _ (.pattern p) false => do return escapeDelimiters s (← Pattern.toWildcard (wildcards s) p)
  | _ => .error (noForm e)

/-- The texts of a chain of alternatives. -/
def alternativeTexts (s : SearchSettings) : Expr → Result (List String)
  | .logical .or l r => do
    let left ← alternativeTexts s l
    let right ← alternativeTexts s r
    return left ++ right
  | e => (termText s e).map fun shown => [shown]

/-- The text of a criterion. -/
def render (s : SearchSettings) (e : Expr) : Result String :=
  match e with
  | .logical .or _ _ => do
    let mark ← delimiter s
    return mark.intercalate (← alternativeTexts s e)
  | _ => termText s e

end ItemQuery.Search
