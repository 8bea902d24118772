/-! Operators of expressions and how strongly they bind. -/

namespace ItemQuery

/-- Binding strength, weakest first. -/
inductive Precedence where
  | or
  | and
  | not
  | comparison
  | subComparison
  | additive
  | multiplicative
  | negation
  | parentheses
deriving DecidableEq, Repr, Inhabited

namespace Precedence

/-- The place of a level in the order. -/
def rank : Precedence → Nat
  | or => 0
  | and => 1
  | not => 2
  | comparison => 3
  | subComparison => 4
  | additive => 5
  | multiplicative => 6
  | negation => 7
  | parentheses => 8

/-- Whether `a` binds weaker than `b`. -/
def weaker (a b : Precedence) : Bool :=
  a.rank < b.rank

/-- Whether an operand of level `own` needs parentheses below an operator of level `parent`: if it binds
    weaker, or equally on the right of an operator that is not associative. -/
def needsParens (parent own : Precedence) (rightSide associative : Bool) : Bool :=
  own.weaker parent || (rightSide && own == parent && !associative)

end Precedence

/-- Binary comparisons. -/
inductive ComparisonOp where
  | eq
  | ne
  | lt
  | le
  | gt
  | ge
deriving DecidableEq, Repr, Inhabited

namespace ComparisonOp

/-- The operator for swapped operands. -/
def flip : ComparisonOp → ComparisonOp
  | eq => eq
  | ne => ne
  | lt => gt
  | le => ge
  | gt => lt
  | ge => le

/-- The opposite test. -/
def negate : ComparisonOp → ComparisonOp
  | eq => ne
  | ne => eq
  | lt => ge
  | le => gt
  | gt => le
  | ge => lt

/-- The SQL symbol. -/
def symbol : ComparisonOp → String
  | eq => "="
  | ne => "<>"
  | lt => "<"
  | le => "<="
  | gt => ">"
  | ge => ">="

/-- The name in AML conditions, stored queries and OData. -/
def name : ComparisonOp → String
  | eq => "eq"
  | ne => "ne"
  | lt => "lt"
  | le => "le"
  | gt => "gt"
  | ge => "ge"

/-- The operator of a name. -/
def ofName? : String → Option ComparisonOp
  | "eq" => some eq
  | "ne" => some ne
  | "lt" => some lt
  | "le" => some le
  | "gt" => some gt
  | "ge" => some ge
  | _ => none

/-- The operator of a symbol; inequality has two. -/
def ofSymbol? : String → Option ComparisonOp
  | "=" => some eq
  | "<>" => some ne
  | "!=" => some ne
  | "<" => some lt
  | "<=" => some le
  | ">" => some gt
  | ">=" => some ge
  | _ => none

/-- Whether the operator holds between operands in this order. -/
def holds : ComparisonOp → Ordering → Bool
  | eq, o => o == .eq
  | ne, o => o != .eq
  | lt, o => o == .lt
  | le, o => o != .gt
  | gt, o => o == .gt
  | ge, o => o != .lt

end ComparisonOp

/-- Arithmetic and concatenation. -/
inductive ArithmeticOp where
  | add
  | sub
  | mul
  | div
  | mod
  | concat
deriving DecidableEq, Repr, Inhabited

namespace ArithmeticOp

/-- The binding strength. -/
def precedence : ArithmeticOp → Precedence
  | add | sub | concat => .additive
  | mul | div | mod => .multiplicative

/-- Whether `a op (b op c)` is `(a op b) op c`. -/
def isAssociative : ArithmeticOp → Bool
  | add | mul | concat => true
  | sub | div | mod => false

/-- The symbol. -/
def symbol : ArithmeticOp → String
  | add => "+"
  | sub => "-"
  | mul => "*"
  | div => "/"
  | mod => "%"
  | concat => "||"

/-- The operator of a symbol. -/
def ofSymbol? : String → Option ArithmeticOp
  | "+" => some add
  | "-" => some sub
  | "*" => some mul
  | "/" => some div
  | "%" => some mod
  | "||" => some concat
  | _ => none

end ArithmeticOp

/-- The two connectives. -/
inductive LogicalOp where
  | and
  | or
deriving DecidableEq, Repr, Inhabited

namespace LogicalOp

/-- The binding strength. -/
def precedence : LogicalOp → Precedence
  | and => .and
  | or => .or

/-- The word written for it. -/
def keyword : LogicalOp → String
  | and => "and"
  | or => "or"

/-- The other connective. -/
def dual : LogicalOp → LogicalOp
  | and => or
  | or => and

end LogicalOp

/-- What an `is` test asks for. -/
inductive IsOperand where
  | null
  | notNull
  /-- The property exists on the item type. -/
  | defined
  | notDefined
deriving DecidableEq, Repr, Inhabited

namespace IsOperand

/-- The opposite test. -/
def negate : IsOperand → IsOperand
  | null => notNull
  | notNull => null
  | defined => notDefined
  | notDefined => defined

/-- The AML condition of the test. -/
def condition : IsOperand → String
  | null => "is null"
  | notNull => "is not null"
  | defined => "is defined"
  | notDefined => "is not defined"

/-- Whether the test asks for an absent value. -/
def wantsNull : IsOperand → Bool
  | null | notDefined => true
  | notNull | defined => false

end IsOperand
end ItemQuery
