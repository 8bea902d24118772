import ItemQuery.Xml.Reader

/-! Element trees, for documents that are read as a whole. -/

namespace ItemQuery.Xml

/-- An element with its attributes, its child elements and all its own text. -/
inductive Element where
  | node (name : String) (attributes : List (String × String)) (children : List Element) (text : String)
deriving Repr, Inhabited

namespace Element

/-- The local name. -/
def name : Element → String
  | node name _ _ _ => name

/-- The attributes in order. -/
def attributes : Element → List (String × String)
  | node _ attributes _ _ => attributes

/-- The child elements in order. -/
def children : Element → List Element
  | node _ _ children _ => children

/-- The text between the child elements. -/
def text : Element → String
  | node _ _ _ text => text

/-- The value of an attribute. -/
def attribute? (e : Element) (key : String) : Option String :=
  (e.attributes.find? (·.1 == key)).map (·.2)

/-- The first child of a name. -/
def child? (e : Element) (key : String) : Option Element :=
  e.children.find? (·.name == key)

/-- The text of the child of a name, or else the attribute of that name; an empty one counts as absent. -/
def value? (e : Element) (key : String) : Option String :=
  (((e.child? key).map (·.text)).orElse fun _ => e.attribute? key).filter (!·.isEmpty)

end Element

/-- A tree under construction: the open elements with the innermost first and their children last first,
    the open attribute, and the root once it is closed. -/
structure Builder where
  opened : List Element := []
  openAttribute : Option (String × String) := none
  root : Option Element := none
deriving Repr, Inhabited

namespace Builder

/-- Takes one event. -/
def push (b : Builder) : Event → Result Builder
  | .startElement n => .ok { b with opened := .node n.localName [] [] "" :: b.opened }
  | .endElement =>
    match b.opened with
    | [] => .error (.xml "end of element without a start")
    | e :: .node name attributes children text :: outer =>
      .ok { b with opened := .node name attributes (children ++ [e]) text :: outer }
    | [e] =>
      if b.root.isSome then .error (.xml "more than one root element")
      else .ok { b with opened := [], root := some e }
  | .startAttribute n => .ok { b with openAttribute := some (n.localName, "") }
  | .endAttribute =>
    match b.openAttribute, b.opened with
    | none, _ => .error (.xml "end of attribute without a start")
    | some _, [] => .error (.xml "attribute outside of an element")
    | some a, .node name attributes children text :: outer =>
      .ok { b with opened := .node name (attributes ++ [a]) children text :: outer, openAttribute := none }
  | .text value =>
    match b.openAttribute, b.opened with
    | some (name, sofar), _ => .ok { b with openAttribute := some (name, sofar ++ value) }
    | none, .node name attributes children text :: outer =>
      .ok { b with opened := .node name attributes children (text ++ value) :: outer }
    | none, [] => .ok b

/-- The tree, once all elements are closed. -/
def finish (b : Builder) : Result Element :=
  if b.opened.isEmpty then
    match b.root with
    | some e => .ok e
    | none => .error (.xml "empty document")
  else .error (.xml "unclosed element")

end Builder

/-- The tree of events. -/
def Element.ofEvents (events : List Event) : Result Element := do
  (← events.foldlM Builder.push {}).finish

/-- The tree of a text. -/
def Element.parse (source : String) : Result Element := do
  (← feed Builder.push {} source).finish

end ItemQuery.Xml
