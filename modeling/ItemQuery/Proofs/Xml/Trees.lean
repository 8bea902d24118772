import ItemQuery.Proofs.Xml.Writing
import ItemQuery.Xml.Element

/-! Elements as events: the attributes, then the text, then the children. Whatever was built before, these events add
    the element to the one that is open. -/

namespace ItemQuery.Xml
namespace Element

/-- A text that stands in an element; an empty one is left out. -/
def textEvents (text : String) : List Event :=
  if text.isEmpty then [] else [.text text]

mutual

/-- The events of an element. -/
def events : Element → List Event
  | node name attributes children text =>
    Event.element name (attributeEvents attributes ++ (textEvents text ++ listEvents children))

/-- The events of elements one after the other. -/
def listEvents : List Element → List Event
  | [] => []
  | e :: es => e.events ++ listEvents es

end

/-- An element that holds other elements only. -/
def branch (name : String) (children : List Element) : Element :=
  node name [] children ""

/-- An element that holds a text only. -/
def leaf (name text : String) : Element :=
  node name [] [] text

@[simp] theorem name_branch (name : String) (children : List Element) : (branch name children).name = name := rfl

@[simp] theorem children_branch (name : String) (children : List Element) :
    (branch name children).children = children := rfl

@[simp] theorem name_leaf (name text : String) : (leaf name text).name = name := rfl

theorem listEvents_singleton (e : Element) : listEvents [e] = e.events := by
  rw [listEvents, listEvents, List.append_nil]

theorem listEvents_append (es es' : List Element) : listEvents (es ++ es') = listEvents es ++ listEvents es' := by
  induction es with
  | nil => rfl
  | cons e es ih => rw [List.cons_append, listEvents, ih, listEvents, List.append_assoc]

theorem listEvents_map {α : Type} (f : α → Element) (as : List α) :
    listEvents (as.map f) = (as.map fun a => (f a).events).flatten := by
  induction as with
  | nil => rfl
  | cons a as ih => rw [List.map_cons, listEvents, ih, List.map_cons, List.flatten_cons]

theorem listEvents_flatMap {α : Type} (f : α → List Element) (as : List α) :
    listEvents (as.flatMap f) = (as.map fun a => listEvents (f a)).flatten := by
  induction as with
  | nil => rfl
  | cons a as ih => rw [List.flatMap_cons, listEvents_append, ih, List.map_cons, List.flatten_cons]

theorem events_branch (name : String) (children : List Element) :
    (branch name children).events = Event.element name (listEvents children) := by
  rw [branch, events]
  rfl

theorem events_leaf (name text : String) : (leaf name text).events = Event.leaf name text := by
  rw [leaf, events, listEvents, List.append_nil]
  rfl

/-- The last event of an element is its end. -/
theorem dropLast_append (e : Element) : e.events.dropLast ++ [.endElement] = e.events := by
  obtain ⟨name, attributes, children, text⟩ := e
  rw [events, Event.element, ← List.cons_append, List.dropLast_concat]

end Element

/-! ### Building -/

namespace Builder

variable {name text : String} {attributes : List (String × String)} {children outer : List Element} {root : Option Element}

theorem foldlM_attributeEvents (pairs : List (String × String)) :
    (attributeEvents pairs).foldlM push { opened := .node name attributes children text :: outer, root }
      = .ok { opened := .node name (attributes ++ pairs) children text :: outer, root } := by
  induction pairs generalizing attributes with
  | nil =>
    rw [List.append_nil]
    rfl
  | cons pair pairs ih =>
    have hfirst : (Event.attr pair.1 pair.2).foldlM push { opened := .node name attributes children text :: outer, root }
        = .ok { opened := .node name (attributes ++ [pair]) children text :: outer, root } := by
      simp [Event.attr, push, bind, Except.bind, pure, Except.pure]
    rw [attributeEvents, List.flatMap_cons, List.foldlM_append, hfirst]
    refine ih.trans ?_
    rw [List.append_assoc, List.singleton_append]

theorem foldlM_textEvents (shown : String) :
    (Element.textEvents shown).foldlM push { opened := .node name attributes children text :: outer, root }
      = .ok { opened := .node name attributes children (text ++ shown) :: outer, root } := by
  unfold Element.textEvents
  split
  next hempty =>
    rw [String.isEmpty_iff.mp hempty, String.append_empty]
    rfl
  next => rfl

mutual

/-- The events of an element but the last one leave it complete and open. -/
theorem foldlM_dropLast (e : Element) (opened : List Element) (root : Option Element) :
    e.events.dropLast.foldlM push { opened, root } = .ok { opened := e :: opened, root } := by
  obtain ⟨name, pairs, inner, text⟩ := e
  rw [Element.events, Event.element, ← List.cons_append, List.dropLast_concat, List.foldlM_cons]
  -- The start opens an element without contents, which its attributes, its text and its children fill.
  change (attributeEvents pairs ++ (Element.textEvents text ++ Element.listEvents inner)).foldlM push
    { opened := .node name [] [] "" :: opened, root } = _
  rw [List.foldlM_append, foldlM_attributeEvents]
  refine (List.foldlM_append ..).trans ?_
  rw [foldlM_textEvents, String.empty_append]
  exact foldlM_listEvents inner name pairs [] text opened root

/-- The events of elements add them to the one that is open. -/
theorem foldlM_listEvents (es : List Element) (name : String) (attributes : List (String × String))
    (children : List Element) (text : String) (outer : List Element) (root : Option Element) :
    (Element.listEvents es).foldlM push { opened := .node name attributes children text :: outer, root }
      = .ok { opened := .node name attributes (children ++ es) text :: outer, root } := by
  cases es with
  | nil =>
    rw [List.append_nil]
    rfl
  | cons e es =>
    have hfirst : e.events.foldlM push { opened := .node name attributes children text :: outer, root }
        = .ok { opened := .node name attributes (children ++ [e]) text :: outer, root } := by
      rw [← Element.dropLast_append, List.foldlM_append, foldlM_dropLast e]
      rfl
    rw [Element.listEvents, List.foldlM_append, hfirst]
    refine (foldlM_listEvents es name attributes (children ++ [e]) text outer root).trans ?_
    rw [List.append_assoc, List.singleton_append]

end

end Builder

/-- An element is built from its events. -/
theorem Element.ofEvents_eq (e : Element) : Element.ofEvents e.events = .ok e := by
  rw [ofEvents, ← dropLast_append, List.foldlM_append, Builder.foldlM_dropLast e [] none]
  rfl

/-- Elements are known by their events. -/
theorem Element.listEvents_injective : Function.Injective Element.listEvents := by
  intro es es' h
  have hbranch : (Element.branch "" es).events = (Element.branch "" es').events := by
    rw [Element.events_branch, Element.events_branch, h]
  have hread := (Element.ofEvents_eq _).symm.trans ((congrArg Element.ofEvents hbranch).trans (Element.ofEvents_eq _))
  injection hread with heq
  injection heq

end ItemQuery.Xml
