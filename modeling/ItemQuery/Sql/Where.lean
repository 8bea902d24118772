import ItemQuery.Pattern.Wildcard
import ItemQuery.Query.Basic
import ItemQuery.Sql.Token

/-! Criteria from SQL fragments, by operator precedence. Tokens go through a machine with a stack of
    operands and a stack of pending operators. A closing parenthesis collapses what opened it: a group, the
    arguments of a call, or the value list of an `in`. -/

namespace ItemQuery.Sql

/-! ### Names -/

/-- What a fragment may call its table. -/
structure Scope where
  table : TableId
  owners : List String

/-- Table names are compared without regard to case, and a space counts as an underscore. -/
def canonicalName (name : String) : String :=
  (name.toLower).map fun c => if c = ' ' then '_' else c

/-- A table is known by its type, by its alias, and as the `innovator` schema. -/
def Scope.ofTable (q : Query) (table : TableId) : Scope :=
  let names := (q.get? table).elim [] fun item => item.typeName.toList ++ item.aliasName.toList
  { table, owners := "innovator" :: names.map canonicalName }

/-- Whether the fragment's table has this name. -/
def Scope.owns (scope : Scope) (owner : String) : Bool :=
  scope.owners.contains (canonicalName owner)

/-- A property, or all properties for a star. -/
def Scope.property (scope : Scope) (name : String) : Expr :=
  if name = "*" then .allProperties scope.table false else .prop scope.table name

/-- The value that a name stands for: a parameter, a truth value, or a property of the table. -/
def Scope.value (scope : Scope) (t : Token) : Result Expr :=
  match t.text.toList with
  | '@' :: name => .ok (.parameter (.named (String.ofList name)) none false)
  | ':' :: name => .ok (.parameter (.named (String.ofList name)) none false)
  | _ =>
    if t.text.toLower = "true" then .ok (.bool true)
    else if t.text.toLower = "false" then .ok (.bool false)
    else
      let foreign : Result Expr :=
        .error (.unsupported ("property reference '" ++ t.text ++ "' does not refer to the current table"))
      match t.segments with
      | [name] => .ok (scope.property name)
      | [owner, name] => if scope.owns owner then .ok (scope.property name) else foreign
      | _ => foreign

/-- The value of a number token: an integer if it is written like one and fits. -/
def numberValue (t : Token) : Result Expr :=
  let fractional := t.text.toList.any fun c => c == '.' || c == 'e' || c == 'E'
  match if fractional then none else Number.readInt64? t.text with
  | some n => .ok (.int n)
  | none =>
    match Number.readFloat? t.text with
    | some x => .ok (.literal (.float x))
    | none => .error (.parse t.offset ("invalid number '" ++ t.text ++ "'"))

/-! ### Functions -/

/-- The first argument as the name of a part of a date, and the other arguments. -/
def datePart (name : String) : List Expr → Result (String × List Expr)
  | [] => .error (.unsupported (name ++ " without arguments"))
  | .property p :: args => .ok (p.name.toLower, args)
  | .literal (.string s) :: args => .ok (s.toLower, args)
  | other :: _ => .error (.unsupported ("date part '" ++ other.display ++ "' in " ++ name))

/-- The function that reads a part of a date. -/
def datePartFunction? : String → Option Function
  | "year" | "yyyy" | "yy" => some .year
  | "month" | "mm" | "m" => some .month
  | "day" | "dd" | "d" => some .day
  | "hour" | "hh" => some .hour
  | "minute" | "mi" | "n" => some .minute
  | "second" | "ss" | "s" => some .second
  | _ => none

/-- The function that adds parts to a date. -/
def dateAddFunction? : String → Option Function
  | "day" | "dd" | "d" => some .addDays
  | "hour" | "hh" => some .addHours
  | "minute" | "mi" | "n" => some .addMinutes
  | _ => none

/-- The function that counts the parts between two dates. -/
def dateDiffFunction? : String → Option Function
  | "day" | "dd" | "d" => some .diffDays
  | _ => none

/-- A call whose first argument selects the function by a part of a date. -/
def partCall (name shown : String) (select : String → Option Function) (order : List Expr → List Expr)
    (args : List Expr) : Result Expr :=
  match datePart name args with
  | .error e => .error e
  | .ok (part, rest) =>
    match select part with
    | some f => .ok (.call f (order rest))
    | none => .error (.unsupported (shown ++ " '" ++ part ++ "'"))

/-- The expression of a call. Positions count from one in SQL and from zero in the model. -/
def callValue (name : String) (args : List Expr) : Result Expr :=
  match name.toLower with
  | "getdate" | "current_timestamp" | "sysdatetime" => .ok (.call .currentDateTime args)
  | "getutcdate" | "sysutcdatetime" => .ok (.call .currentUtcDateTime args)
  | "len" | "length" => .ok (.call .length args)
  | "lower" => .ok (.call .toLower args)
  | "upper" => .ok (.call .toUpper args)
  | "trim" | "ltrim" | "rtrim" => .ok (.call .trim args)
  | "substring" =>
    match args with
    | [text, start, count] => .ok (.call .substring [text, .arithmetic .sub start (.int 1), count])
    | _ => .ok (.call .substring args)
  | "charindex" =>
    match args with
    | [part, text] => .ok (.arithmetic .add (.call .indexOf [text, part]) (.int 1))
    | _ => .error (.unsupported "charindex with a start position")
  | "year" => .ok (.call .year args)
  | "month" => .ok (.call .month args)
  | "day" => .ok (.call .day args)
  | "datepart" => partCall name "datepart" datePartFunction? id args
  | "dateadd" => partCall name "dateadd" dateAddFunction? List.reverse args
  | "datediff" => partCall name "datediff" dateDiffFunction? id args
  | _ => .ok (.call (.ofName name) args)

/-! ### Operands and operators -/

/-- A value on the operand stack. -/
inductive Operand where
  | expr (value : Expr)
  | null
  | list (items : List Expr)
  /-- The bounds of a `between`. -/
  | range (low high : Expr)
deriving Inhabited

/-- Operators with one operand. -/
inductive UnaryOp where
  | not
  | negate
deriving DecidableEq, Repr, Inhabited

/-- Operators with two operands. -/
inductive BinaryOp where
  | logical (op : LogicalOp)
  | comparison (op : ComparisonOp)
  | arithmetic (op : ArithmeticOp)
  | like (negated : Bool)
  | inList (negated : Bool)
  | between (negated : Bool)
  | betweenAnd
  | is (negated : Bool)
deriving DecidableEq, Repr, Inhabited

/-- What a parenthesis opens. -/
inductive Bracket where
  | group
  | call (name : String)
  | inList
deriving DecidableEq, Repr, Inhabited

/-- An operator that waits for its last operand, with the offset of its token. An open parenthesis knows how
    many operands lie below it. -/
inductive Pending where
  | unary (op : UnaryOp) (offset : Nat)
  | binary (op : BinaryOp) (offset : Nat)
  | opened (bracket : Bracket) (height offset : Nat)
deriving DecidableEq, Repr, Inhabited

namespace Operand

/-- The operand as an expression. -/
def toExpr (offset : Nat) : Operand → Result Expr
  | expr e => .ok e
  | list items => .ok (.list items)
  | null => .error (.unsupported "null outside of 'is null'")
  | range _ _ => .error (.parse offset "'and' range outside of between")

end Operand

/-- The binding strength of a binary operator. -/
def BinaryOp.precedence : BinaryOp → Precedence
  | logical op => op.precedence
  | arithmetic op => op.precedence
  | betweenAnd => .subComparison
  | _ => .comparison

/-- The operator that a keyword is, if it stands between two operands. -/
def BinaryOp.ofKeyword? : Keyword → Option BinaryOp
  | .and => some (logical .and)
  | .or => some (logical .or)
  | .inList => some (inList false)
  | .notIn => some (inList true)
  | .like => some (like false)
  | .notLike => some (like true)
  | .between => some (between false)
  | .notBetween => some (between true)
  | .betweenAnd => some betweenAnd
  | .is => some (is false)
  | .isNot => some (is true)
  | .not | .null => none

/-- The operator of a symbol between two operands. -/
def BinaryOp.ofSymbol? (symbol : String) : Option BinaryOp :=
  match ComparisonOp.ofSymbol? symbol with
  | some op => some (comparison op)
  | none => (ArithmeticOp.ofSymbol? symbol).map arithmetic

namespace Pending

/-- Whether this is an open parenthesis. -/
def isOpened : Pending → Bool
  | opened _ _ _ => true
  | _ => false

/-- Whether the operator takes its last operand before a new operator of strength `p` does. -/
def bindsBefore (p : Precedence) : Pending → Bool
  | unary .not _ => !Precedence.not.weaker p
  | unary .negate _ => !Precedence.negation.weaker p
  | binary op _ => !op.precedence.weaker p
  | opened _ _ _ => false

end Pending

/-- A pattern operand: a text is read with the wildcards of SQL. -/
def likePattern : Expr → Result Expr
  | .literal (.string s) => (Pattern.ofWildcard .sqlServer s).map .pattern
  | e => .ok e

/-- The expression of a binary operator and its operands. -/
def combine (op : BinaryOp) (left : Expr) (right : Operand) (offset : Nat) : Result Expr :=
  match op with
  | .logical op => (right.toExpr offset).map (.logical op left)
  | .comparison op =>
    match right with
    | .null => .error (.unsupported ("comparison '" ++ op.symbol ++ "' with null"))
    | _ => (right.toExpr offset).map (.comparison op left)
  | .arithmetic op => (right.toExpr offset).map (.arithmetic op left)
  | .like negated => do
    let pattern ← likePattern (← right.toExpr offset)
    return .like left pattern negated
  | .inList negated =>
    match right with
    | .list items => .ok (.inList left items negated none)
    | .expr (.list items) => .ok (.inList left items negated none)
    | .expr single => .ok (.inList left [single] negated none)
    | _ => .error (.parse offset "'in' needs a value list")
  | .between negated =>
    match right with
    | .range low high => .ok (.between left low high negated none)
    | _ => .error (.parse offset "'between' needs 'and'")
  | .is negated =>
    match right with
    | .null => .ok (.is left (if negated then .notNull else .null))
    | _ => .error (.unsupported "'is' only supports null")
  | .betweenAnd => .error (.parse offset "'and' range outside of between")

/-- Applies an operator to the operands on top of the stack, which has its top first. -/
def Pending.apply : Pending → List Operand → Result (List Operand)
  | opened _ _ offset, _ => .error (.parse offset "unbalanced '('")
  | unary op offset, operand :: rest => do
    let inner ← operand.toExpr offset
    return .expr (match op with | .not => .not inner | .negate => .negate inner) :: rest
  | binary op offset, right :: left :: rest => do
    match op with
    | .betweenAnd =>
      let low ← left.toExpr offset
      let high ← right.toExpr offset
      return .range low high :: rest
    | _ =>
      let left ← left.toExpr offset
      return .expr (← combine op left right offset) :: rest
  | unary _ offset, [] => .error (.parse offset "missing operand")
  | binary _ offset, _ => .error (.parse offset "missing operand")

/-! ### The machine -/

/-- Both stacks with their tops first, and whether a value has to come next. -/
structure Machine where
  operands : List Operand := []
  operators : List Pending := []
  wantsValue : Bool := true
deriving Inhabited

/-- Applies operators from the top of the stack as long as they satisfy `p`. -/
def applyWhile (p : Pending → Bool) : List Operand → List Pending → Result (List Operand × List Pending)
  | operands, [] => .ok (operands, [])
  | operands, op :: rest =>
    if p op then
      match op.apply operands with
      | .error e => .error e
      | .ok operands => applyWhile p operands rest
    else .ok (operands, op :: rest)

namespace Machine

/-- Applies operators from the top as long as they satisfy `p`. -/
def reduceWhile (m : Machine) (p : Pending → Bool) : Result Machine :=
  (applyWhile p m.operands m.operators).map fun left => { m with operands := left.1, operators := left.2 }

/-- Applies the operators above the innermost open parenthesis. -/
def reduceToBracket (m : Machine) (offset : Nat) : Result Machine := do
  let m ← m.reduceWhile (!·.isOpened)
  if m.operators.isEmpty then .error (.parse offset "unbalanced ')'") else return m

/-- Fails unless a value may come next. -/
def requireValue (m : Machine) (t : Token) : Result Unit :=
  if m.wantsValue then .ok ()
  else .error (.parse t.offset ("unexpected '" ++ t.text ++ "', expected an operator"))

/-- Fails unless an operator may come next. -/
def requireOperator (m : Machine) (t : Token) : Result Unit :=
  if m.wantsValue then .error (.parse t.offset ("unexpected '" ++ t.text ++ "', expected a value"))
  else .ok ()

/-- Takes a value. -/
def pushValue (m : Machine) (value : Operand) (t : Token) : Result Machine := do
  m.requireValue t
  return { m with operands := value :: m.operands, wantsValue := false }

/-- Opens a parenthesis. -/
def openBracket (m : Machine) (bracket : Bracket) (offset : Nat) : Machine :=
  { m with operators := .opened bracket m.operands.length offset :: m.operators, wantsValue := true }

/-- The value of a closed parenthesis. -/
def bracketValue (bracket : Bracket) (items : List Operand) (offset : Nat) : Result Operand :=
  match bracket with
  | .group =>
    match items with
    | [single] => .ok single
    | _ => .error (.parse offset "expected one expression in parentheses")
  | .inList => (items.mapM (Operand.toExpr offset)).map .list
  | .call name => do
    let args ← items.mapM (Operand.toExpr offset)
    return .expr (← callValue name args)

/-- Whether the innermost parenthesis was opened and nothing came since. -/
def isFreshlyOpened (m : Machine) : Bool :=
  match m.operators with
  | .opened _ height _ :: _ => m.wantsValue && height == m.operands.length
  | _ => false

/-- Closes the innermost parenthesis. -/
def closeBracket (m : Machine) (offset : Nat) : Result Machine := do
  let m ←
    if m.isFreshlyOpened then pure m
    else if m.wantsValue then .error (.parse offset "unexpected ')'")
    else m.reduceToBracket offset
  match m.operators with
  | .opened bracket height _ :: operators =>
    let count := m.operands.length - height
    let value ← bracketValue bracket (m.operands.take count).reverse offset
    return { operands := value :: m.operands.drop count, operators, wantsValue := false }
  | _ => .error (.parse offset "unbalanced ')'")

/-- Takes an operator between two operands. -/
def pushBinary (m : Machine) (op : BinaryOp) (t : Token) : Result Machine := do
  m.requireOperator t
  let m ← m.reduceWhile (Pending.bindsBefore op.precedence)
  return { m with operators := .binary op t.offset :: m.operators, wantsValue := true }

/-- Takes an operator before its operand. -/
def pushUnary (m : Machine) (op : UnaryOp) (offset : Nat) : Machine :=
  { m with operators := .unary op offset :: m.operators }

/-- Takes a keyword. -/
def pushKeyword (m : Machine) (word : Keyword) (t : Token) : Result Machine :=
  match word with
  | .null => m.pushValue .null t
  | .not => do
    m.requireValue t
    return m.pushUnary .not t.offset
  | _ =>
    match BinaryOp.ofKeyword? word with
    | some op => m.pushBinary op t
    | none => .ok m

/-- What a parenthesis opens when no name stands before it. -/
def bracketHere (m : Machine) : Bracket :=
  match m.operators with
  | .binary (.inList _) _ :: _ => .inList
  | _ => .group

/-- Takes a comma. -/
def pushComma (m : Machine) (t : Token) : Result Machine := do
  m.requireOperator t
  let m ← m.reduceToBracket t.offset
  match m.operators with
  | .opened (.call _) _ _ :: _ => return { m with wantsValue := true }
  | .opened .inList _ _ :: _ => return { m with wantsValue := true }
  | _ => .error (.parse t.offset "',' outside of a list")

/-- Takes an operator or punctuation mark. -/
def pushSymbol (scope : Scope) (m : Machine) (t : Token) : Result Machine :=
  if t.text = "(" then do
    m.requireValue t
    return m.openBracket m.bracketHere t.offset
  else if t.text = ")" then m.closeBracket t.offset
  else if t.text = "," then m.pushComma t
  else if t.text = ";" then .error (.unsupported "multiple statements")
  else if t.text = "-" ∧ m.wantsValue then .ok (m.pushUnary .negate t.offset)
  else if t.text = "+" ∧ m.wantsValue then .ok m
  else if t.text = "*" ∧ m.wantsValue then m.pushValue (.expr (.allProperties scope.table false)) t
  else
    match BinaryOp.ofSymbol? t.text with
    | some op => m.pushBinary op t
    | none => .error (.parse t.offset ("unexpected character '" ++ t.text ++ "'"))

/-- Takes one token that does not start a call. -/
def push (scope : Scope) (m : Machine) (t : Token) : Result Machine :=
  match t.kind with
  | .comment => .ok m
  | .string => m.pushValue (.expr (.text t.stringValue)) t
  | .number => do m.pushValue (.expr (← numberValue t)) t
  | .identifier => do m.pushValue (.expr (← scope.value t)) t
  | .keyword word => m.pushKeyword word t
  | .operator => m.pushSymbol scope t

/-- Takes the name of a call together with its parenthesis. -/
def pushCall (m : Machine) (t : Token) : Result Machine := do
  m.requireValue t
  return m.openBracket (.call t.text) t.offset

/-- Takes tokens without comments. A name before a parenthesis starts a call. -/
def feed (scope : Scope) : Machine → List Token → Result Machine
  | m, [] => .ok m
  | m, [t] => m.push scope t
  | m, t :: u :: rest =>
    if t.kind == .identifier && u.isOp "(" then
      match m.pushCall t with
      | .error e => .error e
      | .ok m => feed scope m rest
    else
      match m.push scope t with
      | .error e => .error e
      | .ok m => feed scope m (u :: rest)

/-- Applies what is left and gives the one remaining operand. -/
def finish (m : Machine) (stop : Nat) : Result Operand :=
  if m.wantsValue && !m.operators.isEmpty then .error (.parse stop "unexpected end of input")
  else
    match applyWhile (fun _ => true) m.operands m.operators with
    | .error e => .error e
    | .ok ([], _) => .error (.parse stop "empty expression")
    | .ok ([operand], _) => .ok operand
    | .ok (_, _) => .error (.parse stop "expected an operator")

end Machine

/-! ### Fragments -/

/-- The expression of tokens that end at `stop`. -/
def parseTokens (scope : Scope) (tokens : List Token) (stop : Nat) : Result Expr := do
  let m ← Machine.feed scope {} (tokens.filter (!·.isComment))
  (← m.finish stop).toExpr stop

/-- Reads a criterion about a table. -/
def parseWhere (q : Query) (table : TableId) (sql : String) : Result Expr := do
  parseTokens (.ofTable q table) (← tokenize sql) sql.utf8ByteSize

/-- Reads a single value or expression. -/
def parseValue (q : Query) (table : TableId) (sql : String) : Result Expr :=
  parseWhere q table sql

/-- Reads the body of a value list. -/
def parseInList (q : Query) (table : TableId) (body : String) : Result (List Expr) := do
  let tokens ← tokenize body
  let start := Machine.openBracket {} .inList 0
  let m ← start.feed (.ofTable q table) (tokens.filter (!·.isComment))
  let m ← m.closeBracket body.utf8ByteSize
  match ← m.finish body.utf8ByteSize with
  | .list items => return items
  | _ => .error (.parse 0 "expected a value list")

/-- Splits tokens at the first `and` outside of parentheses; the depth is bounded as in `Joining`. -/
def splitAtAnd? : Int → List Token → Option (List Token × Token × List Token)
  | _, [] => none
  | depth, t :: rest =>
    if depth = 0 ∧ t.kind = .keyword .and then some ([], t, rest)
    else
      let inner := if t.isOp "(" then depth + 1 else if t.isOp ")" then depth - 1 else depth
      (splitAtAnd? inner rest).map fun halves => (t :: halves.1, halves.2)

/-- Reads the two bounds of a range. -/
def parseBetween (q : Query) (table : TableId) (sql : String) : Result (Expr × Expr) := do
  let tokens ← tokenize sql
  match splitAtAnd? 0 tokens with
  | none => .error (.parse 0 "between range needs 'and'")
  | some (before, mark, after) =>
    let low ← parseTokens (.ofTable q table) before mark.offset
    let high ← parseTokens (.ofTable q table) after sql.utf8ByteSize
    return (low, high)

end ItemQuery.Sql
