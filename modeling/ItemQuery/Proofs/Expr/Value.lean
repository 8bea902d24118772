import Mathlib.Algebra.Order.Ring.Unbundled.Rat
import Mathlib.Data.List.Infix
import ItemQuery.Expr.Basic
import ItemQuery.Proofs.Pattern.Matching

/-! Values of expressions in the three-valued logic of SQL. A comparison with an absent value is unknown,
    integers are exact, floating point numbers are compared exactly, texts are ordered by code points, and a
    property where a truth value is expected asks whether it is true. What the value of an expression depends
    on besides its properties and parameters is an `Interpretation`. -/

namespace ItemQuery

/-! ### Truth -/

/-- Three truth values; none is unknown. -/
abbrev Truth : Type :=
  Option Bool

namespace Truth

/-- The opposite; of unknown it is unknown. -/
def not (t : Truth) : Truth :=
  t.map (!·)

/-- Both; false if one of them is. -/
def and : Truth → Truth → Truth
  | some false, _ => some false
  | _, some false => some false
  | some true, some true => some true
  | _, _ => none

/-- Either; true if one of them is. -/
def or : Truth → Truth → Truth
  | some true, _ => some true
  | _, some true => some true
  | some false, some false => some false
  | _, _ => none

/-- Both or either. -/
def connect : LogicalOp → Truth → Truth → Truth
  | .and => and
  | .or => or

/-- The opposite if asked for. -/
def negated (flag : Bool) (t : Truth) : Truth :=
  if flag then t.not else t

@[simp] theorem not_not (t : Truth) : t.not.not = t := by
  rcases t with _ | _ | _ <;> rfl

theorem not_connect (op : LogicalOp) (s t : Truth) : (connect op s t).not = connect op.dual s.not t.not := by
  cases op <;> rcases s with _ | _ | _ <;> rcases t with _ | _ | _ <;> rfl

theorem not_negated (flag : Bool) (t : Truth) : (negated flag t).not = negated (!flag) t := by
  cases flag <;> simp [negated]

end Truth

/-! ### Values -/

/-- The exact size of a floating point number; infinities and what is no number have none. -/
def Number.toRat? (x : Float) : Option Rat :=
  if (fields x).2.1 = 2047 then none
  else
    let m := magnitude x
    let size := if 0 ≤ m.exponent then mkRat (m.mantissa * Nat.pow 2 m.exponent.toNat) 1
      else mkRat m.mantissa (Nat.pow 2 (-m.exponent).toNat)
    some (if isNegative x then -size else size)

/-- A value; null is an absent one. -/
inductive Value where
  | null
  | bool (b : Bool)
  | integer (n : Int)
  | float (x : Float)
  | text (s : String)
  | time (t : DateTime)
  | list (items : List Value)
  | pattern (p : Pattern)

/-- The kinds of values. -/
inductive ValueType where
  | boolean
  | integer
  | text
  | time
  | list
  | pattern
  | row
deriving DecidableEq, Repr, Inhabited

/-- Whether the operator holds between operands in this order. -/
def ComparisonOp.accepts : ComparisonOp → Ordering → Bool
  | eq, o => o.isEq
  | ne, o => o.isNe
  | lt, o => o.isLT
  | le, o => o.isLE
  | gt, o => o.isGT
  | ge, o => o.isGE

namespace Value

/-- Whether a value is of a kind; an absent one is of every kind. Floating point numbers are of none but rows, since
    what is computed with them depends on rounding. -/
def Fits : Value → ValueType → Prop
  | null, _ => True
  | _, .row => True
  | bool _, .boolean => True
  | integer _, .integer => True
  | text _, .text => True
  | time _, .time => True
  | list _, .list => True
  | pattern _, .pattern => True
  | _, _ => False

/-- Whether the value is absent. -/
def isNull : Value → Bool
  | null => true
  | _ => false

/-- A truth value as a value. -/
def ofTruth : Truth → Value
  | some b => bool b
  | none => null

/-- The truth of a value. -/
def truth : Value → Truth
  | bool b => some b
  | _ => none

@[simp] theorem truth_ofTruth (t : Truth) : (ofTruth t).truth = t := by
  rcases t with _ | b <;> rfl

/-- The value of a literal. -/
def ofLiteral : Literal → Value
  | .bool b => bool b
  | .integer n => integer n.toInt
  | .string s => text s
  | .dateTime t => time t
  | .float x => float x

/-- The order of two values of one kind, or of two numbers of either kind by their exact sizes. -/
def order? : Value → Value → Option Ordering
  | bool a, bool b => some (compare a b)
  | integer a, integer b => some (compare a b)
  | text a, text b => some (compare a b)
  | time a, time b => some (DateTime.compare a b)
  | integer a, float y => (Number.toRat? y).map fun b => compare (a : Rat) b
  | float x, integer b => (Number.toRat? x).map fun a => compare a (b : Rat)
  | float x, float y => (Number.toRat? x).bind fun a => (Number.toRat? y).map fun b => compare a b
  | _, _ => none

/-- The comparison of two values. -/
def compare (op : ComparisonOp) (a b : Value) : Truth :=
  (order? a b).map op.accepts

/-- Exact arithmetic on integers, with quotients rounded toward zero, and concatenation of texts. A result that
    depends on rounding has no value here. -/
def arithmetic : ArithmeticOp → Value → Value → Value
  | .add, integer a, integer b => integer (a + b)
  | .sub, integer a, integer b => integer (a - b)
  | .mul, integer a, integer b => integer (a * b)
  | .div, integer a, integer b => if b = 0 then null else integer (a.tdiv b)
  | .mod, integer a, integer b => if b = 0 then null else integer (a.tmod b)
  | .add, text a, text b => text (a ++ b)
  | .concat, text a, text b => text (a ++ b)
  | _, _, _ => null

/-- The opposite number. -/
def negate : Value → Value
  | integer n => integer (-n)
  | float x => float (-x)
  | _ => null

/-- A function of two texts; absent if one of them is. -/
def onTexts (f : List Char → List Char → Value) : Value → Value → Value
  | text s, text t => f s.toList t.toList
  | _, _ => null

/-- Whether a value lies between two others. -/
def between (a low high : Value) : Truth :=
  (compare .ge a low).and (compare .le a high)

/-- Whether a value equals one of several. -/
def isIn (a : Value) : List Value → Truth
  | [] => some false
  | item :: items => (compare .eq a item).or (isIn a items)

end Value

/-! ### Texts in texts -/

/-- The first place of `part` in `s`, from zero, or -1. -/
def indexIn (s part : List Char) : Int :=
  match (List.range (s.length + 1)).find? fun i => part.isPrefixOf (s.drop i) with
  | some i => i
  | none => -1

/-! ### Expressions -/

/-- What is fixed besides properties and parameters: the values of untyped texts and of rows, the functions
    without a meaning of their own here, texts as patterns, and which values count as defined. -/
structure Interpretation where
  object : ObjectLiteral → Value
  row : TableId → Bool → Value
  call : Function → List Value → Value
  like : String → String → Bool
  defined : Value → Bool

/-- The values of properties and of parameters; a parameter without a value has that of its default. -/
structure Valuation where
  property : PropertyRef → Value
  parameter : ParamName → Option Value

namespace Interpretation

variable (I : Interpretation)

/-- The value of a call. -/
def apply : Function → List Value → Value
  | .indexOf, [s, part] => Value.onTexts (fun s part => .integer (indexIn s part)) s part
  | .startsWith, [s, part] => Value.onTexts (fun s part => .bool (decide (part <+: s))) s part
  | .contains, [s, part] => Value.onTexts (fun s part => .bool (decide (part <:+: s))) s part
  | f, args => I.call f args

open Classical in
/-- Whether a text is like a pattern, or like a text read as one. -/
noncomputable def matching : Value → Value → Truth
  | .text s, .pattern p => some (decide (p.Finds s.toList))
  | .text s, .text t => some (I.like s t)
  | _, _ => none

/-- The outcome of an `is` test. -/
def test (a : Value) : IsOperand → Bool
  | .null => a.isNull
  | .notNull => !a.isNull
  | .defined => I.defined a
  | .notDefined => !I.defined a

end Interpretation

namespace Expr

/-- The truth of an operand of this value: a property is compared with true. -/
def operandTruth (e : Expr) (value : Value) : Truth :=
  match e with
  | property _ => Value.compare .eq value (.bool true)
  | _ => value.truth

mutual

/-- The value of an expression. -/
@[simp] noncomputable def eval (I : Interpretation) (v : Valuation) : Expr → Value
  | literal value => .ofLiteral value
  | object o => I.object o
  | parameter name default _ => (v.parameter name).getD (optionEval I v default)
  | property p => v.property p
  | allProperties table extended => I.row table extended
  | list items => .list (listEval I v items)
  | pattern p => .pattern p
  | comparison op l r => .ofTruth (Value.compare op (l.eval I v) (r.eval I v))
  | like l p negated => .ofTruth (.negated negated (I.matching (l.eval I v) (p.eval I v)))
  | between l low high negated _ =>
    .ofTruth (.negated negated (Value.between (l.eval I v) (low.eval I v) (high.eval I v)))
  | inList l items negated _ => .ofTruth (.negated negated (Value.isIn (l.eval I v) (listEval I v items)))
  | is l operand => .bool (I.test (l.eval I v) operand)
  | arithmetic op l r => .arithmetic op (l.eval I v) (r.eval I v)
  | negate e => .negate (e.eval I v)
  | not e => .ofTruth (operandTruth e (e.eval I v)).not
  | logical op l r =>
    .ofTruth (.connect op (operandTruth l (l.eval I v)) (operandTruth r (r.eval I v)))
  | call f args => I.apply f (listEval I v args)

/-- The value of a default; absent without one. -/
@[simp] noncomputable def optionEval (I : Interpretation) (v : Valuation) : Option Expr → Value
  | none => .null
  | some e => e.eval I v

/-- The values of a list. -/
@[simp] noncomputable def listEval (I : Interpretation) (v : Valuation) : List Expr → List Value
  | [] => []
  | e :: es => e.eval I v :: listEval I v es

end

/-- The value of a criterion: a property alone asks whether it is true. -/
noncomputable def criterionValue (I : Interpretation) (v : Valuation) (e : Expr) : Value :=
  match e with
  | property p => .ofTruth (Value.compare .eq (v.property p) (.bool true))
  | e => e.eval I v

end Expr

/-! ### Types -/

/-- The types of what an expression refers to, and the results of functions without a type of their own. -/
structure Typing where
  property : PropertyRef → ValueType
  parameter : ParamName → ValueType
  object : ObjectLiteral → ValueType
  result : Function → ValueType

/-- The type of a call: tests give a truth value and places are integers. -/
def Typing.callType (Γ : Typing) (f : Function) : ValueType :=
  if f.isPredicate then .boolean else if f = .indexOf then .integer else Γ.result f

/-- Values and interpretation keep to the types. -/
structure Respects (Γ : Typing) (I : Interpretation) (v : Valuation) : Prop where
  property : ∀ p, (v.property p).Fits (Γ.property p)
  parameter : ∀ name value, v.parameter name = some value → value.Fits (Γ.parameter name)
  object : ∀ o, (I.object o).Fits (Γ.object o)
  call : ∀ f args, (I.call f args).Fits (Γ.callType f)

/-- Expressions of a type. Floating point numbers have none. -/
inductive HasType (Γ : Typing) : Expr → ValueType → Prop
  | bool (b : Bool) : HasType Γ (.literal (.bool b)) .boolean
  | integer (n : Int64) : HasType Γ (.literal (.integer n)) .integer
  | string (s : String) : HasType Γ (.literal (.string s)) .text
  | dateTime (t : DateTime) : HasType Γ (.literal (.dateTime t)) .time
  | object (o : ObjectLiteral) : HasType Γ (.object o) (Γ.object o)
  | parameter {name : ParamName} {default : Option Expr} {raw : Bool}
      (h : ∀ e ∈ default, HasType Γ e (Γ.parameter name)) :
      HasType Γ (.parameter name default raw) (Γ.parameter name)
  | property (p : PropertyRef) : HasType Γ (.property p) (Γ.property p)
  | allProperties (table : TableId) (extended : Bool) : HasType Γ (.allProperties table extended) .row
  | list {items : List Expr} (τ : Expr → ValueType) (h : ∀ e ∈ items, HasType Γ e (τ e)) :
      HasType Γ (.list items) .list
  | pattern (p : Pattern) : HasType Γ (.pattern p) .pattern
  | comparison {op : ComparisonOp} {l r : Expr} {τ : ValueType} (hl : HasType Γ l τ) (hr : HasType Γ r τ) :
      HasType Γ (.comparison op l r) .boolean
  | like {l p : Expr} {negated : Bool} {τ : ValueType} (hl : HasType Γ l .text) (hp : HasType Γ p τ)
      (hτ : τ = .pattern ∨ τ = .text) : HasType Γ (.like l p negated) .boolean
  | between {l low high : Expr} {negated : Bool} {table : Option TableId} {τ : ValueType} (hl : HasType Γ l τ)
      (hlow : HasType Γ low τ) (hhigh : HasType Γ high τ) : HasType Γ (.between l low high negated table) .boolean
  | inList {l : Expr} {items : List Expr} {negated : Bool} {table : Option TableId} {τ : ValueType}
      (hl : HasType Γ l τ) (h : ∀ e ∈ items, HasType Γ e τ) : HasType Γ (.inList l items negated table) .boolean
  | is {l : Expr} {operand : IsOperand} {τ : ValueType} (hl : HasType Γ l τ) : HasType Γ (.is l operand) .boolean
  | arithmetic {op : ArithmeticOp} {l r : Expr} (hop : op ≠ .concat) (hl : HasType Γ l .integer)
      (hr : HasType Γ r .integer) : HasType Γ (.arithmetic op l r) .integer
  | concat {op : ArithmeticOp} {l r : Expr} (hop : op = .add ∨ op = .concat) (hl : HasType Γ l .text)
      (hr : HasType Γ r .text) : HasType Γ (.arithmetic op l r) .text
  | negate {e : Expr} (h : HasType Γ e .integer) : HasType Γ (.negate e) .integer
  | not {e : Expr} (h : HasType Γ e .boolean) : HasType Γ (.not e) .boolean
  | logical {op : LogicalOp} {l r : Expr} (hl : HasType Γ l .boolean) (hr : HasType Γ r .boolean) :
      HasType Γ (.logical op l r) .boolean
  | call {f : Function} {args : List Expr} (τ : Expr → ValueType) (h : ∀ e ∈ args, HasType Γ e (τ e)) :
      HasType Γ (.call f args) (Γ.callType f)

end ItemQuery
