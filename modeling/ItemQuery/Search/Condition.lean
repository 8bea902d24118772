import ItemQuery.Error
import ItemQuery.Expr.Operator
import ItemQuery.Text.Blank

/-! The conditions that can be chosen next to a search box. -/

namespace ItemQuery.Search

/-- A chosen condition. -/
inductive Condition where
  | equal
  | notEqual
  | like
  | notLike
  | greaterThan
  | greaterThanOrEqual
  | lessThan
  | lessThanOrEqual
  | between
  | inList
  | notIn
  | isNull
  | isNotNull
deriving DecidableEq, Repr, Inhabited

namespace Condition

/-- All conditions. -/
def all : List Condition :=
  [equal, notEqual, like, notLike, greaterThan, greaterThanOrEqual, lessThan, lessThanOrEqual, between, inList,
   notIn, isNull, isNotNull]

/-- The name of a condition. -/
def name : Condition → String
  | equal => "equal"
  | notEqual => "not_equal"
  | like => "like"
  | notLike => "not_like"
  | greaterThan => "greater_than"
  | greaterThanOrEqual => "greater_than_or_equal"
  | lessThan => "less_than"
  | lessThanOrEqual => "less_than_or_equal"
  | between => "between"
  | inList => "in"
  | notIn => "not_in"
  | isNull => "is_null"
  | isNotNull => "is_not_null"

/-- The comparison that a condition asks for, if it is one. -/
def comparison? : Condition → Option ComparisonOp
  | equal => some .eq
  | notEqual => some .ne
  | greaterThan => some .gt
  | greaterThanOrEqual => some .ge
  | lessThan => some .lt
  | lessThanOrEqual => some .le
  | _ => none

/-- The condition of a name, or of the short name of its comparison, in any case; a space counts as an
    underscore. -/
def ofName (called : String) : Result Condition :=
  let wanted := (Text.trim called).toLower.map fun c => if c = ' ' then '_' else c
  let fits (c : Condition) := c.name == wanted || (c.comparison?.map (·.name)) == some wanted
  match all.find? fits with
  | some c => .ok c
  | none => .error (.unsupported ("search condition '" ++ called ++ "'"))

end Condition
end ItemQuery.Search
