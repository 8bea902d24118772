import ItemQuery.Dictionary

/-! What is known of item types: their properties and the data types of these. -/

namespace ItemQuery

/-- The data type of a property. -/
inductive DataType where
  | boolean
  | date
  | decimal
  | float
  | integer
  /-- A foreign key. -/
  | item
  | string
  | text
  | list
  | sequence
  | md5
  | other (name : String)
deriving DecidableEq, Repr, Inhabited

namespace DataType

/-- The types with a meaning of their own. -/
def known : List DataType :=
  [boolean, date, decimal, float, integer, item, string, text, list, sequence, md5]

/-- The name of a type. -/
def name : DataType → String
  | boolean => "boolean"
  | date => "date"
  | decimal => "decimal"
  | float => "float"
  | integer => "integer"
  | item => "item"
  | string => "string"
  | text => "text"
  | list => "list"
  | sequence => "sequence"
  | md5 => "md5"
  | other called => called

/-- The type of a name in any case; an unknown name is kept in small letters. -/
def ofName (called : String) : DataType :=
  (known.find? fun t => t.name == called.toLower).getD (other called.toLower)

/-- Whether values are numbers. -/
def isNumeric : DataType → Bool
  | decimal | float | integer => true
  | _ => false

/-- Whether values are compared as text. -/
def isTextual : DataType → Bool
  | boolean | date | decimal | float | integer => false
  | _ => true

/-- Whether the type has no meaning of its own. -/
def isOther : DataType → Bool
  | other _ => true
  | _ => false

end DataType

/-- A property of an item type. -/
structure PropertyDescriptor where
  name : String
  dataType : DataType
  /-- The item type behind a foreign key. -/
  dataSource : Option String := none
deriving DecidableEq, Repr, Inhabited

/-- An item type. -/
structure ItemType where
  name : String
  properties : List PropertyDescriptor := []
deriving DecidableEq, Repr, Inhabited

/-- The item types that are known. -/
structure Schema where
  itemTypes : List ItemType := []
deriving DecidableEq, Repr, Inhabited

namespace Schema

/-- The first item type of this name in any case. -/
def itemType? (s : Schema) (name : String) : Option ItemType :=
  s.itemTypes.find? fun t => t.name.toLower == name.toLower

/-- The first property of this name. -/
def property? (s : Schema) (itemType name : String) : Option PropertyDescriptor :=
  (s.itemType? itemType).bind fun t => t.properties.find? (·.name == name)

/-- The properties of an item type by name; of several with one name the last one counts. -/
def properties (s : Schema) (itemType : String) : Dictionary PropertyDescriptor :=
  .ofList (((s.itemType? itemType).elim [] (·.properties)).map fun p => (p.name, p))

end Schema
end ItemQuery
