import ItemQuery.Settings

/-! Untyped values as typed literals: by the data type of their property, or by their shape. -/

namespace ItemQuery
namespace Literal

/-- A whole number without needless zeros: `0`, or digits that start with another one. -/
def isPlainInteger (cs : List Char) : Bool :=
  let body := match cs with
    | '-' :: rest => rest
    | _ => cs
  body == ['0'] || (body.all Char.isDigit && !body.isEmpty && body.head? != some '0')

/-- Digits, a point and digits, after an optional minus. -/
def isPlainDecimal (cs : List Char) : Bool :=
  let body := match cs with
    | '-' :: rest => rest
    | _ => cs
  let whole := body.takeWhile Char.isDigit
  match body.dropWhile Char.isDigit with
  | '.' :: fraction => !whole.isEmpty && !fraction.isEmpty && fraction.all Char.isDigit
  | _ => false

/-- Whether a text has the form of a mask in which `0` stands for a digit. -/
def fitsMask : List Char → List Char → Bool
  | [], [] => true
  | '0' :: mask, c :: cs => c.isDigit && fitsMask mask cs
  | m :: mask, c :: cs => m == c && fitsMask mask cs
  | _, _ => false

/-- `2024-01-05`, alone or with a time in hours and minutes, seconds, or seconds with a fraction. -/
def isIsoDate (cs : List Char) : Bool :=
  let date := "0000-00-00".toList
  let timed (separator : Char) :=
    let toMinute := date ++ separator :: "00:00".toList
    let toSecond := toMinute ++ ":00".toList
    fitsMask toMinute cs || fitsMask toSecond cs
      || (fitsMask (toSecond ++ ['.']) (cs.take (toSecond.length + 1))
        && toSecond.length + 1 < cs.length && (cs.drop (toSecond.length + 1)).all Char.isDigit)
  fitsMask date cs || timed 'T' || timed ' '

/-- The literal that a value looks like. -/
def infer (value : String) : Literal :=
  let cs := value.toList
  let integer? := if isPlainInteger cs then (Number.readInt64? value).map integer else none
  let float? (_ : Unit) := if isPlainDecimal cs then (Number.readFloat? value).map float else none
  let date? (_ : Unit) := if isIsoDate cs then (DateTime.read? value).map dateTime else none
  ((integer?.orElse float?).orElse date?).getD (string value)

/-- The value as a literal of a data type; one that does not fit stays a text. -/
def ofType (dataType : DataType) (value : String) : Literal :=
  let trimmed := Text.trim value
  let converted : Option Literal :=
    match dataType with
    | .boolean =>
      match trimmed.toLower with
      | "1" => some (bool true)
      | "true" => some (bool true)
      | "0" => some (bool false)
      | "false" => some (bool false)
      | _ => none
    | .integer => (Number.readInt64? trimmed).map integer
    | .decimal | .float =>
      ((Number.readInt64? trimmed).map integer).orElse fun _ => (Number.readFloat? trimmed).map float
    | .date => (DateTime.read? value).map dateTime
    | _ => none
  converted.getD (string value)

end Literal

namespace Context

/-- The typed literal of an untyped value. Without a known type a key stays a text, and any other value is
    what it looks like. -/
def coerce (ctx : Context) (q : Query) (o : ObjectLiteral) : Literal :=
  match o.property.bind (ctx.dataType? q), o.property with
  | some dataType, _ => .ofType dataType o.value
  | none, some p =>
    if p.name = "id" ∨ "_id".toList.isSuffixOf p.name.toList then .string o.value else .infer o.value
  | none, none => .infer o.value

end Context
end ItemQuery
