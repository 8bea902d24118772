import ItemQuery.Xml.Event

/-! Events as XML text. An element that receives neither a child nor a text is written as an empty one. -/

namespace ItemQuery.Xml

/-- A character in text or in a quoted value. -/
def escapedChar : Char → List Char
  | '<' => "&lt;".toList
  | '>' => "&gt;".toList
  | '&' => "&amp;".toList
  | '\'' => "&apos;".toList
  | '"' => "&quot;".toList
  | c => [c]

/-- A text with the characters of markup replaced by references. -/
def escaped (s : String) : String :=
  String.ofList (s.toList.flatMap escapedChar)

/-- An element that is not closed yet, and the name space it declares, as qualifier and address. -/
structure OpenElement where
  name : String
  declared : Option (String × String)
deriving DecidableEq, Repr, Inhabited

/-- The text so far, the open elements with the innermost first, the start tag that may still get
    attributes, and the attribute that is open. -/
structure Writer where
  written : String := ""
  opened : List OpenElement := []
  tag : Option String := none
  openAttribute : Option (String × String) := none
deriving Repr, Inhabited

/-- A name with its qualifier. -/
def Name.qualified (n : Name) : String :=
  if n.qualifier.isEmpty then n.localName else n.qualifier ++ ":" ++ n.localName

/-- An attribute as it stands in a tag. -/
def attributeText (name value : String) : String :=
  " " ++ name ++ "=\"" ++ escaped value ++ "\""

namespace Writer

/-- Writes the start tag that was held back. -/
def flush (w : Writer) : Writer :=
  match w.tag with
  | some tag => { w with written := w.written ++ "<" ++ tag ++ ">", tag := none }
  | none => w

/-- Whether a qualifier already stands for an address. -/
def inScope (w : Writer) (qualifier uri : String) : Bool :=
  (w.opened.findSome? fun e => e.declared.filter (·.1 == qualifier)).any (·.2 == uri)

/-- Takes the start of an element. -/
def startElement (w : Writer) (n : Name) : Writer :=
  let w := w.flush
  let declares := !n.uri.isEmpty && !w.inScope n.qualifier n.uri
  let key := if n.qualifier.isEmpty then "xmlns" else "xmlns:" ++ n.qualifier
  { w with
    tag := some (n.qualified ++ if declares then attributeText key n.uri else "")
    opened :=
      { name := n.qualified, declared := if declares then some (n.qualifier, n.uri) else none } :: w.opened }

/-- Takes one event; a failure says what is out of order and leaves a writer that can go on. -/
def push (w : Writer) : Event → Writer × Option QueryError
  | .startElement n =>
    if w.openAttribute.isSome then (w, some (.xml "element started inside an attribute"))
    else (w.startElement n, none)
  | .endElement =>
    match w.opened with
    | [] => (w, some (.xml "end of element without a start"))
    | e :: outer =>
      let closing := match w.tag with
        | some tag => "<" ++ tag ++ "/>"
        | none => "</" ++ e.name ++ ">"
      ({ w with written := w.written ++ closing, opened := outer, tag := none }, none)
  | .startAttribute n =>
    if w.tag.isNone then (w, some (.xml ("attribute '" ++ n.localName ++ "' outside of a start tag")))
    else ({ w with openAttribute := some (n.qualified, "") }, none)
  | .endAttribute =>
    match w.openAttribute, w.tag with
    | none, _ => (w, some (.xml "end of attribute without a start"))
    | some _, none => ({ w with openAttribute := none }, some (.xml "attribute outside of a start tag"))
    | some (name, value), some tag =>
      ({ w with tag := some (tag ++ attributeText name value), openAttribute := none }, none)
  | .text value =>
    match w.openAttribute with
    | some (name, sofar) => ({ w with openAttribute := some (name, sofar ++ value) }, none)
    | none =>
      let w := w.flush
      ({ w with written := w.written ++ escaped value }, none)

/-- The whole text, once all elements are closed. -/
def finish (w : Writer) : Result String :=
  match w.opened with
  | e :: _ => .error (.xml ("unclosed element '" ++ e.name ++ "'"))
  | [] => .ok w.flush.written

/-- Takes one event or fails. -/
def step (w : Writer) (e : Event) : Result Writer :=
  match w.push e with
  | (w, none) => .ok w
  | (_, some fault) => .error fault

end Writer

/-- The text of events. -/
def write (events : List Event) : Result String := do
  (← events.foldlM Writer.step {}).finish

end ItemQuery.Xml
