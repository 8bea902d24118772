import ItemQuery.Proofs.Result
import ItemQuery.Xml.Writer

/-! The text of events. A start tag is held back until its first content, so the text of a part depends on nothing but
    its events once the tag before it is written, and the texts of parts that follow each other are joined. -/

namespace ItemQuery.Xml

/-! ### Tags that are held back -/

namespace Writer

@[simp] theorem tag_flush (w : Writer) : w.flush.tag = none := by
  unfold flush
  split
  · rfl
  · assumption

@[simp] theorem openAttribute_flush (w : Writer) : w.flush.openAttribute = w.openAttribute := by
  unfold flush
  split <;> rfl

@[simp] theorem opened_flush (w : Writer) : w.flush.opened = w.opened := by
  unfold flush
  split <;> rfl

theorem flush_of_tag {w : Writer} (h : w.tag = none) : w.flush = w := by
  unfold flush
  rw [h]

theorem flush_of_some {w : Writer} {tag : String} (h : w.tag = some tag) :
    w.flush = { w with written := w.written ++ "<" ++ tag ++ ">", tag := none } := by
  unfold flush
  rw [h]

end Writer

/-! ### Parts -/

/-- Events that have this text after anything that is written before them. -/
def Writes (es : List Event) (shown : String) : Prop :=
  ∀ w : Writer, w.openAttribute = none →
    es.foldlM Writer.step w = .ok { w.flush with written := w.flush.written ++ shown }

theorem Writes.append {es es' : List Event} {shown shown' : String} (h : Writes es shown) (h' : Writes es' shown') :
    Writes (es ++ es') (shown ++ shown') := by
  intro w hw
  rw [List.foldlM_append, h w hw]
  refine (h' _ ?_).trans ?_
  · simpa using hw
  · rw [Writer.flush_of_tag (by simp), ← String.append_assoc]

theorem writes_text (value : String) : Writes [.text value] (escaped value) := by
  intro w hw
  rw [List.foldlM_cons, Writer.step, Writer.push, hw]
  rfl

/-! ### Elements -/

/-- The events of attributes. -/
def attributeEvents (pairs : List (String × String)) : List Event :=
  pairs.flatMap fun pair => Event.attr pair.1 pair.2

theorem attributeEvents_append (pairs pairs' : List (String × String)) :
    attributeEvents (pairs ++ pairs') = attributeEvents pairs ++ attributeEvents pairs' :=
  List.flatMap_append

/-- The attributes as they stand in a tag. -/
def attributesText : List (String × String) → String
  | [] => ""
  | pair :: pairs => attributeText pair.1 pair.2 ++ attributesText pairs

theorem length_attributesText_append (pairs pairs' : List (String × String)) :
    (attributesText (pairs ++ pairs')).length = (attributesText pairs).length + (attributesText pairs').length := by
  induction pairs with
  | nil => exact (Nat.zero_add _).symm
  | cons pair pairs ih =>
    rw [List.cons_append, attributesText, String.length_append, ih, attributesText, String.length_append, Nat.add_assoc]

theorem foldlM_attributeEvents_step {w : Writer} {tag : String} (htag : w.tag = some tag) (hw : w.openAttribute = none)
    (pairs : List (String × String)) :
    (attributeEvents pairs).foldlM Writer.step w = .ok { w with tag := some (tag ++ attributesText pairs) } := by
  induction pairs generalizing w tag with
  | nil =>
    have htext : tag ++ attributesText [] = tag := String.append_empty
    rw [htext, ← htag]
    rfl
  | cons pair pairs ih =>
    have hfirst : (Event.attr pair.1 pair.2).foldlM Writer.step w
        = .ok { w with tag := some (tag ++ attributeText pair.1 pair.2) } := by
      simp [Event.attr, Writer.step, Writer.push, htag, Name.qualified, pure, Except.pure, bind, Except.bind, hw]
    rw [attributeEvents, List.flatMap_cons, List.foldlM_append, hfirst]
    refine (ih (w := { w with tag := some (tag ++ attributeText pair.1 pair.2) }) rfl hw).trans ?_
    rw [attributesText, String.append_assoc]

/-- The element with its start tag held back. -/
def Writer.opening (w : Writer) (name : String) (pairs : List (String × String)) : Writer :=
  { w.flush with tag := some (name ++ attributesText pairs), opened := ⟨name, none⟩ :: w.opened }

theorem foldlM_opening {w : Writer} (hw : w.openAttribute = none) (name : String) (pairs : List (String × String)) :
    (Event.start name :: attributeEvents pairs).foldlM Writer.step w = .ok (w.opening name pairs) := by
  have hstart : w.step (.start name) = .ok { w.flush with tag := some name, opened := ⟨name, none⟩ :: w.opened } := by
    simp [Event.start, Writer.step, Writer.push, hw, Writer.startElement, Name.qualified]
  rw [List.foldlM_cons, hstart]
  exact foldlM_attributeEvents_step rfl (by simpa using hw) pairs

theorem writes_element_nil (name : String) (pairs : List (String × String)) :
    Writes (Event.element name (attributeEvents pairs)) ("<" ++ (name ++ attributesText pairs) ++ "/>") := by
  intro w hw
  rw [Event.element, ← List.cons_append, List.foldlM_append, foldlM_opening hw]
  simp [Writer.step, Writer.push, Writer.opening, bind, Except.bind, pure, Except.pure, hw]

theorem Writes.element {es : List Event} {shown : String} (h : Writes es shown) (name : String)
    (pairs : List (String × String)) :
    Writes (Event.element name (attributeEvents pairs ++ es))
      ("<" ++ (name ++ attributesText pairs) ++ ">" ++ shown ++ ("</" ++ name ++ ">")) := by
  intro w hw
  rw [Event.element, List.append_assoc, ← List.cons_append, List.foldlM_append, foldlM_opening hw]
  refine (List.foldlM_append ..).trans ?_
  rw [h _ (by simpa [Writer.opening] using hw), Writer.flush_of_some rfl]
  simp [Writer.step, Writer.push, Writer.opening, bind, Except.bind, pure, Except.pure, String.append_assoc]

theorem Writes.write_eq {es : List Event} {shown : String} (h : Writes es shown) : write es = .ok shown := by
  have hall : es.foldlM Writer.step {} = .ok { written := shown } := (h {} rfl).trans (by simp [Writer.flush])
  rw [write, hall]
  rfl

end ItemQuery.Xml
