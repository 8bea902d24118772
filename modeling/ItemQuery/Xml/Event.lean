import ItemQuery.Error

/-! XML as a sequence of events. The attributes of an element are reported between its start and its first
    child or text, each as a start, its text and an end. -/

namespace ItemQuery.Xml

/-- The name of an element or attribute: a qualifier, a local name and the address of a name space. -/
structure Name where
  qualifier : String := ""
  localName : String
  uri : String := ""
deriving DecidableEq, Repr, Inhabited

/-- One event. -/
inductive Event where
  | startElement (name : Name)
  | endElement
  | startAttribute (name : Name)
  | endAttribute
  | text (value : String)
deriving DecidableEq, Repr, Inhabited

namespace Event

/-- The start of an element with a plain name. -/
def start (name : String) : Event :=
  startElement { localName := name }

/-- A whole attribute. -/
def attr (name value : String) : List Event :=
  [startAttribute { localName := name }, text value, endAttribute]

/-- An element with these contents. -/
def element (name : String) (contents : List Event) : List Event :=
  start name :: (contents ++ [endElement])

/-- An element with text only; an empty text is left out. -/
def leaf (name value : String) : List Event :=
  element name (if value.isEmpty then [] else [text value])

end Event
end ItemQuery.Xml
