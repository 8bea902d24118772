import ItemQuery.Aml.Reader
import ItemQuery.Aml.Writer

/-! What the reader makes of elements inside of an item. Attributes wait until the next element starts or ends, so
    a reader is described by what it holds once they have taken effect. The criteria of the elements of a part
    come to stand at the end of the innermost open frame, and everything below it stays. -/

namespace ItemQuery.Aml

/-! ### Readers -/

/-- The query and the open frames, once the attributes that wait have taken effect. -/
def Settles (r : Reader) (q : Query) (stack : List Frame) : Prop :=
  r.openAttribute = none ∧ r.applyAttributes = .ok { query := some q, stack }

theorem settles_self (q : Query) (stack : List Frame) : Settles { query := some q, stack } q stack :=
  ⟨rfl, rfl⟩

/-- An open frame that takes the criteria of `table`. -/
inductive Collecting (table : TableId) (outer : List Frame) : (List Expr → Frame) → Prop
  | item (role : Role) : Collecting table outer (.item table role)
  | combination (kind : Combination) {inside : Bool} (howner : owner? outer = some (table, inside)) :
      Collecting table outer (.combination kind)

theorem Collecting.owner? {table : TableId} {outer : List Frame} {frame : List Expr → Frame}
    (h : Collecting table outer frame) (criteria : List Expr) :
    ∃ inside, Aml.owner? (frame criteria :: outer) = some (table, inside) := by
  cases h with
  | item role => exact ⟨false, rfl⟩
  | combination kind howner => exact ⟨true, by rw [Aml.owner?, howner]; rfl⟩

theorem Collecting.pushCriterion {table : TableId} {outer : List Frame} {frame : List Expr → Frame}
    (h : Collecting table outer frame) (q : Query) (criteria : List Expr) (e : Expr) :
    Reader.pushCriterion { query := some q, stack := frame criteria :: outer } e
      = .ok { query := some q, stack := frame (criteria ++ [e]) :: outer } := by
  cases h <;> rfl

/-! ### Starts and ends -/

/-- The element of a combination. -/
def Combination.name : Combination → String
  | .and => "and"
  | .or => "or"
  | .not => "not"

/-- The elements that are no properties. -/
def reservedNames : List String :=
  ["and", "or", "not", "Item", "Relationships"]

section
variable {table : TableId} {r : Reader} {q : Query} {outer : List Frame} {frame : List Expr → Frame}
  {criteria : List Expr}

theorem push_start_property (hframe : Collecting table outer frame) (hr : Settles r q (frame criteria :: outer))
    {name : String} (hname : name ∉ reservedNames) :
    r.push (.start name) =
      .ok { query := some q, stack := .property ⟨table, name⟩ none "" none :: frame criteria :: outer } := by
  obtain ⟨inside, howner⟩ := hframe.owner? criteria
  simp only [reservedNames, List.mem_cons, List.not_mem_nil, or_false, not_or] at hname
  obtain ⟨hand, hor, hnot, hitem, hrelationships⟩ := hname
  rw [Xml.Event.start, Reader.push, Reader.startElement, hr.2]
  simp only [bind, Except.bind, List.isEmpty_cons, Bool.false_eq_true, and_false, hand, hor, hnot, hitem, hrelationships,
    false_and, if_false, howner]
  cases hframe <;> rfl

theorem push_start_combination (hframe : Collecting table outer frame) (hr : Settles r q (frame criteria :: outer))
    (kind : Combination) :
    r.push (.start kind.name) = .ok { query := some q, stack := .combination kind [] :: frame criteria :: outer } := by
  rw [Xml.Event.start, Reader.push, Reader.startElement, hr.2]
  cases hframe <;> cases kind <;> rfl

theorem push_end_property (hframe : Collecting table outer frame) {ref : PropertyRef} {condition : Option String}
    {value : String} {e : Expr} (hr : Settles r q (.property ref condition value none :: frame criteria :: outer))
    (hread : criterion q ref (condition.getD "eq") value = .ok e) :
    r.push .endElement = .ok { query := some q, stack := frame (criteria ++ [e]) :: outer } := by
  rw [Reader.push, Reader.endElement, hr.2]
  simp only [bind, Except.bind, Reader.endProperty, Reader.queryOf, hread]
  exact hframe.pushCriterion q criteria e

theorem push_end_combination (hframe : Collecting table outer frame) {kind : Combination} {found : List Expr} {e : Expr}
    (hr : Settles r q (.combination kind found :: frame criteria :: outer)) (hcombined : combined kind found = some e) :
    r.push .endElement = .ok { query := some q, stack := frame (criteria ++ [e]) :: outer } := by
  rw [Reader.push, Reader.endElement, hr.2]
  simp only [bind, Except.bind, hcombined, Reader.pushCriterion?]
  exact hframe.pushCriterion q criteria e

end

/-! ### Attributes and text -/

/-- An attribute waits behind those before it. -/
theorem foldlM_attr (r : Reader) (hr : r.openAttribute = none) (name value : String) :
    (Xml.Event.attr name value).foldlM Reader.push r = .ok { r with pending := r.pending ++ [(name, value)] } := by
  have hvalue : "" ++ value = value := String.empty_append
  simp only [Xml.Event.attr, List.foldlM_cons, List.foldlM_nil, Reader.push, bind, Except.bind, hvalue, hr]
  rfl

theorem foldlM_condition (q : Query) (ref : PropertyRef) (outer : List Frame) (condition : Option String) :
    ∃ r, (condition.elim [] (Xml.Event.attr "condition")).foldlM Reader.push
        { query := some q, stack := .property ref none "" none :: outer } = .ok r ∧
      Settles r q (.property ref condition "" none :: outer) := by
  cases condition with
  | none => exact ⟨_, rfl, settles_self q _⟩
  | some condition => exact ⟨_, foldlM_attr _ rfl _ _, rfl, rfl⟩

theorem foldlM_text {r : Reader} {q : Query} {ref : PropertyRef} {condition : Option String} {outer : List Frame}
    (hr : Settles r q (.property ref condition "" none :: outer)) (value : String) :
    ∃ r', (if value.isEmpty then [] else [Xml.Event.text value]).foldlM Reader.push r = .ok r' ∧
      Settles r' q (.property ref condition value none :: outer) := by
  by_cases hempty : value.isEmpty = true
  · rw [String.isEmpty_iff.mp hempty]
    exact ⟨r, rfl, hr⟩
  · refine ⟨{ query := some q, stack := .property ref condition value none :: outer }, ?_, settles_self q _⟩
    have hvalue : "" ++ value = value := String.empty_append
    rw [if_neg hempty, List.foldlM_cons, Reader.push, hr.1]
    simp only [Reader.takeText, hr.2, bind, Except.bind, hvalue]
    rfl

/-! ### Parts -/

/-- The events of a part give these criteria to the innermost open frame. -/
def Gathers (table : TableId) (events : List Xml.Event) (found : List Expr) : Prop :=
  ∀ (r : Reader) (q : Query) (outer : List Frame) (frame : List Expr → Frame) (criteria : List Expr),
    Collecting table outer frame → Settles r q (frame criteria :: outer) →
    ∃ r', events.foldlM Reader.push r = .ok r' ∧ Settles r' q (frame (criteria ++ found) :: outer)

section
variable {table : TableId}

theorem gathers_nil : Gathers table [] [] := by
  intro r q outer frame criteria _ hr
  refine ⟨r, rfl, ?_⟩
  rwa [List.append_nil]

theorem Gathers.append {es es' : List Xml.Event} {xs ys : List Expr} (h : Gathers table es xs)
    (h' : Gathers table es' ys) : Gathers table (es ++ es') (xs ++ ys) := by
  intro r q outer frame criteria hframe hr
  obtain ⟨r₁, hrun, hr₁⟩ := h r q outer frame criteria hframe hr
  obtain ⟨r₂, hrun', hr₂⟩ := h' r₁ q outer frame (criteria ++ xs) hframe hr₁
  refine ⟨r₂, ?_, ?_⟩
  · rw [List.foldlM_append, hrun]
    exact hrun'
  · rwa [← List.append_assoc]

/-- The element of a criterion about a property. -/
theorem gathers_conditionElement {name value : String} {condition : Option String} {e : Expr}
    (hname : name ∉ reservedNames)
    (hread : ∀ q, criterion q ⟨table, name⟩ (condition.getD "eq") value = .ok e) :
    Gathers table (conditionElement name condition value) [e] := by
  intro r q outer frame criteria hframe hr
  obtain ⟨r₁, hcondition, hr₁⟩ := foldlM_condition q ⟨table, name⟩ (frame criteria :: outer) condition
  obtain ⟨r₂, htext, hr₂⟩ := foldlM_text hr₁ value
  refine ⟨_, ?_, settles_self q _⟩
  rw [conditionElement, Xml.Event.element, List.foldlM_cons, push_start_property hframe hr hname]
  simp only [List.foldlM_append, List.foldlM_cons, List.foldlM_nil, bind, Except.bind, hcondition, htext,
    push_end_property hframe hr₂ (hread q)]
  rfl

/-- The element of a combination, whose criteria have a frame of their own until it ends. -/
theorem Gathers.combination {es : List Xml.Event} {found : List Expr} (h : Gathers table es found)
    (kind : Combination) {e : Expr} (hcombined : combined kind found = some e) :
    Gathers table (Xml.Event.element kind.name es) [e] := by
  intro r q outer frame criteria hframe hr
  obtain ⟨inside, howner⟩ := hframe.owner? criteria
  obtain ⟨r₁, hrun, hr₁⟩ := h _ q (frame criteria :: outer) (.combination kind) [] (.combination kind howner)
    (settles_self q _)
  refine ⟨_, ?_, settles_self q _⟩
  rw [Xml.Event.element, List.foldlM_cons, push_start_combination hframe hr kind]
  simp only [List.foldlM_append, List.foldlM_cons, List.foldlM_nil, bind, Except.bind, hrun,
    push_end_combination hframe hr₁ hcombined]
  rfl

end

end ItemQuery.Aml
