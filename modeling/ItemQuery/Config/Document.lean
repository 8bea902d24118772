import ItemQuery.Error

/-! Settings and schemas as documents: the values of a text once its notation is read. Fields are looked up by
    name or by place, and whoever asks for a field says what kind of value it has. -/

namespace ItemQuery.Config

/-- The value of a document or of a part of it. -/
inductive Document where
  | null
  | bool (value : Bool)
  | integer (value : Int)
  | text (value : String)
  /-- A number, a date or a damaged text: a value that no field takes. -/
  | scalar
  | list (items : List Document)
  | table (entries : List (String × Document))
deriving Repr, Inhabited

namespace Document

/-! ### Kinds of values -/

/-- A text. -/
def text? : Document → Option String
  | text value => some value
  | _ => none

/-- A truth value. -/
def bool? : Document → Option Bool
  | bool value => some value
  | _ => none

/-- A text of one character. -/
def char? : Document → Option Char
  | text value =>
    match value.toList with
    | [c] => some c
    | _ => none
  | _ => none

/-- A number of 32 bits with a sign. -/
def int32? : Document → Option Int
  | integer value => if Int32.minValue.toInt ≤ value ∧ value ≤ Int32.maxValue.toInt then some value else none
  | _ => none

/-- A list of values of one kind. -/
def listOf? {α : Type} (read? : Document → Option α) : Document → Option (List α)
  | list items => items.mapM read?
  | _ => none

/-- A table of values of one kind. -/
def tableOf? {α : Type} (read? : Document → Option α) : Document → Option (List (String × α))
  | table entries => entries.mapM fun entry => (read? entry.2).map fun value => (entry.1, value)
  | _ => none

/-- A value or `null`. -/
def nullable? {α : Type} (read? : Document → Option α) : Document → Option (Option α)
  | null => some none
  | d => (read? d).map some

/-- Whether nothing is inside. -/
def isHollow : Document → Bool
  | list [] => true
  | table [] => true
  | _ => false

/-- The name of a choice: a text, or the only key of a table, with nothing behind it. -/
def choice? : Document → Option String
  | text value => some value
  | table [(name, inner)] => if inner.isHollow then some name else none
  | _ => none

/-! ### Fields -/

/-- The only entry under one of these names; none if there is no entry, and a failure if there are several. -/
def field? (names : List String) (entries : List (String × Document)) : Option (Option Document) :=
  match entries.filter fun entry => names.contains entry.1 with
  | [] => some none
  | [entry] => some (some entry.2)
  | _ => none

/-- The values of fields, each with its names: by name in a table, in order in a list. Whether a list may be
    longer than there are fields depends on the notation. -/
def fields? (allowsSurplus : Bool) (names : List (List String)) : Document → Option (List (Option Document))
  | table entries => names.mapM fun called => field? called entries
  | list items =>
    if allowsSurplus || items.length ≤ names.length then some ((List.range names.length).map fun i => items[i]?)
    else none
  | _ => none

/-- The value of a field, or `fallback` for a field that is left out. -/
def orElse? {α : Type} (fallback : α) (read? : Document → Option α) : Option Document → Option α
  | none => some fallback
  | some d => read? d

end Document
end ItemQuery.Config
