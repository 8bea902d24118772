import Mathlib.Data.List.TakeWhile
import ItemQuery.Proofs.Xml.Reading
import ItemQuery.Proofs.Xml.Trees

/-! Elements as text and back. Each tag of an element costs the reader one unit of fuel, and a text has more characters
    than tags, so that the fuel never runs out. -/

namespace ItemQuery.Xml

/-! ### Attributes -/

theorem toList_attributeText (name value : String) :
    (attributeText name value).toList = ' ' :: (name.toList ++ '=' :: '"' :: ((escaped value).toList ++ ['"'])) := by
  simp [attributeText]

theorem attributes_attributeText {name : String} (hname : IsTagName name) (value : String) {seen : List (List Char)}
    (hseen : name.toList ∉ seen) (fuel : Nat) (rest : List Char) :
    attributes (fuel + 1) seen ((attributeText name value).toList ++ rest)
      = (attributes fuel (name.toList :: seen) rest).after (Event.attr name value) := by
  obtain ⟨first, more, hfirst⟩ := List.exists_cons_of_ne_nil hname.ne_nil
  have hplain : ∀ c ∈ name.toList, c ≠ '=' ∧ Text.isSpacing c = false := fun c hc =>
    ⟨hname.ne hc (by decide), isSpacing_of_isTagChar (hname.isTagChar hc)⟩
  have hmore : ∀ c ∈ more, (!(c == '=' || Text.isSpacing c)) = true := by
    intro c hc
    simp [hplain c (hfirst ▸ List.mem_cons_of_mem _ hc)]
  have hend : (!('=' == '=' || Text.isSpacing '=')) = false := by decide
  have hvalue : Text.cut? ['"'] ((escaped value).toList ++ '"' :: rest) = some ((escaped value).toList, rest) :=
    Text.cut?_append (fun c hc => (ne_of_mem_escaped hc).2.2.2) rest
  have hdrop : ((attributeText name value).toList ++ rest).dropWhile Text.isSpacing
      = first :: (more ++ '=' :: '"' :: ((escaped value).toList ++ '"' :: rest)) := by
    rw [toList_attributeText, hfirst, List.cons_append, List.dropWhile_cons_of_pos (by decide)]
    rw [List.cons_append, List.cons_append, List.dropWhile_cons_of_neg
      (by simp [hplain first (hfirst ▸ List.mem_cons_self)])]
    simp
  rw [attributes, hdrop]
  dsimp only
  rw [List.takeWhile_append_of_pos hmore, List.takeWhile_cons_of_neg (by simp), List.append_nil,
    List.dropWhile_append_of_pos hmore, List.dropWhile_cons_of_neg (by simp), List.dropWhile_cons_of_neg (by decide),
    ← hfirst]
  simp only [List.contains_iff_mem, hseen, if_false]
  rw [List.dropWhile_cons_of_neg (by decide)]
  simp only [hvalue, hname.declaresNone, unescaped?_escaped, hname.nameOf]
  rfl

theorem attributes_attributesText {pairs : List (String × String)} (hnames : ∀ pair ∈ pairs, IsTagName pair.1)
    (hnodup : (pairs.map (·.1)).Nodup) {seen : List (List Char)} (hseen : ∀ pair ∈ pairs, pair.1.toList ∉ seen)
    {fuel : Nat} (hfuel : pairs.length ≤ fuel) :
    attributes fuel seen (attributesText pairs).toList = { events := attributeEvents pairs, fault := none } := by
  induction pairs generalizing seen fuel with
  | nil => cases fuel <;> rfl
  | cons pair pairs ih =>
    obtain ⟨fuel, rfl⟩ : ∃ n, fuel = n + 1 := ⟨fuel - 1, by simp at hfuel; omega⟩
    rw [List.forall_mem_cons] at hnames hseen
    rw [List.map_cons, List.nodup_cons] at hnodup
    have hseen' : ∀ other ∈ pairs, other.1.toList ∉ pair.1.toList :: seen := by
      intro other hother
      rw [List.mem_cons, not_or]
      refine ⟨fun heq => hnodup.1 ?_, hseen.2 other hother⟩
      rw [← String.toList_inj.mp heq]
      exact List.mem_map_of_mem hother
    rw [attributesText, String.toList_append, attributes_attributeText hnames.1 _ hseen.1,
      ih hnames.2 hnodup.2 hseen' (by simpa using hfuel)]
    rfl

/-! ### Tags -/

/-- Attributes that a tag can have. -/
structure Attributive (pairs : List (String × String)) : Prop where
  names : ∀ pair ∈ pairs, IsTagName pair.1
  nodup : (pairs.map (·.1)).Nodup

instance (pairs : List (String × String)) : Decidable (Attributive pairs) :=
  decidable_of_iff ((∀ pair ∈ pairs, IsTagName pair.1) ∧ (pairs.map (·.1)).Nodup)
    ⟨fun ⟨h, h'⟩ => ⟨h, h'⟩, fun ⟨h, h'⟩ => ⟨h, h'⟩⟩

/-- A start tag without its brackets. -/
def tagText (name : String) (pairs : List (String × String)) : List Char :=
  (name ++ attributesText pairs).toList

theorem length_attributesText (pairs : List (String × String)) : pairs.length ≤ (attributesText pairs).toList.length := by
  induction pairs with
  | nil => exact Nat.zero_le _
  | cons pair pairs ih =>
    rw [attributesText, String.toList_append, toList_attributeText]
    simp only [List.length_append, List.length_cons]
    omega

section
variable {name : String} {pairs : List (String × String)} (hname : IsTagName name)
include hname

theorem tagName_tagText (pairs : List (String × String)) :
    tagName (tagText name pairs) = (name.toList, (attributesText pairs).toList) := by
  have hplain : ∀ c ∈ name.toList, (!Text.isSpacing c) = true := fun c hc => by
    simp [isSpacing_of_isTagChar (hname.isTagChar hc)]
  rw [tagName, tagText, String.toList_append, List.takeWhile_append_of_pos hplain, List.dropWhile_append_of_pos hplain]
  cases pairs with
  | nil => simp [attributesText]
  | cons pair pairs =>
    rw [attributesText, String.toList_append, toList_attributeText, List.cons_append,
      List.takeWhile_cons_of_neg (by decide), List.dropWhile_cons_of_neg (by decide), List.append_nil]

theorem startTag_tagText (hpairs : Attributive pairs) :
    startTag (tagText name pairs) = { events := .start name :: attributeEvents pairs, fault := none } := by
  have hfuel : pairs.length ≤ (attributesText pairs).toList.length + 1 := by
    have := length_attributesText pairs
    omega
  rw [startTag, tagName_tagText hname]
  dsimp only
  rw [attributes_attributesText hpairs.names hpairs.nodup (by simp) hfuel, hname.nameOf]
  rfl

end

/-! ### Ends of tags -/

/-- What the search for the end of a tag passes over, outside of quotes. -/
def Passes (cs : List Char) : Prop :=
  ∀ rest, tagEnd? none (cs ++ rest) = (tagEnd? none rest).map fun halves => (cs ++ halves.1, halves.2)

theorem Passes.append {cs cs' : List Char} (h : Passes cs) (h' : Passes cs') : Passes (cs ++ cs') := by
  intro rest
  rw [List.append_assoc, h, h', Option.map_map]
  simp [Function.comp_def]

theorem passes_nil : Passes [] := by
  intro rest
  simp

theorem passes_of_ne {cs : List Char} (h : ∀ c ∈ cs, c ≠ '>' ∧ c ≠ '\'' ∧ c ≠ '"') : Passes cs := by
  induction cs with
  | nil => exact passes_nil
  | cons c cs ih =>
    intro rest
    rw [List.forall_mem_cons] at h
    rw [List.cons_append, tagEnd?, if_neg h.1.1, if_neg (by simp [h.1]), ih h.2, Option.map_map]
    rfl

theorem passes_quoted {cs : List Char} (h : ∀ c ∈ cs, c ≠ '"') : Passes ('"' :: (cs ++ ['"'])) := by
  have hinner : ∀ rest, tagEnd? (some '"') (cs ++ '"' :: rest)
      = (tagEnd? none rest).map fun halves => (cs ++ '"' :: halves.1, halves.2) := by
    intro rest
    induction cs with
    | nil => simp [tagEnd?]
    | cons c cs ih =>
      rw [List.forall_mem_cons] at h
      rw [List.cons_append, tagEnd?, if_neg h.1, ih h.2, Option.map_map]
      rfl
  intro rest
  rw [List.cons_append, tagEnd?, if_neg (by decide), if_pos (by decide), List.append_assoc, List.singleton_append, hinner,
    Option.map_map]
  simp [Function.comp_def]

theorem IsTagName.passes {name : String} (h : IsTagName name) : Passes name.toList :=
  passes_of_ne fun _ hc => ⟨h.ne hc (by decide), h.ne hc (by decide), h.ne hc (by decide)⟩

theorem passes_tagText {name : String} (hname : IsTagName name) {pairs : List (String × String)}
    (hnames : ∀ pair ∈ pairs, IsTagName pair.1) : Passes (tagText name pairs) := by
  have hpairs : Passes (attributesText pairs).toList := by
    induction pairs with
    | nil => exact passes_nil
    | cons pair pairs ih =>
      rw [List.forall_mem_cons] at hnames
      have hone : Passes (attributeText pair.1 pair.2).toList := by
        have hspace : Passes [' '] := passes_of_ne (by decide)
        have hequals : Passes ['='] := passes_of_ne (by decide)
        have hquoted := passes_quoted (fun c (hc : c ∈ (escaped pair.2).toList) => (ne_of_mem_escaped hc).2.2.2)
        rw [toList_attributeText]
        simpa using hspace.append (hnames.1.passes.append (hequals.append hquoted))
      rw [attributesText, String.toList_append]
      exact hone.append (ih hnames.2)
  rw [tagText, String.toList_append]
  exact hname.passes.append hpairs

theorem Passes.tagEnd? {cs : List Char} (h : Passes cs) (rest : List Char) :
    tagEnd? none (cs ++ '>' :: rest) = some (cs, rest) := by
  rw [h, Xml.tagEnd?, if_pos rfl, Option.map_some, List.append_nil]

theorem getLast?_attributesText {pairs : List (String × String)} {c : Char}
    (h : (attributesText pairs).toList.getLast? = some c) : c = '"' := by
  induction pairs with
  | nil => cases h
  | cons pair pairs ih =>
    rw [attributesText, String.toList_append, List.getLast?_append] at h
    cases hlast : (attributesText pairs).toList.getLast? with
    | some last =>
      rw [hlast, Option.some_or] at h
      exact ih (hlast.trans h)
    | none =>
      rw [hlast, Option.none_or, attributeText, String.toList_append] at h
      exact (Option.some.inj (List.getLast?_concat.symm.trans h)).symm

theorem tagText_ne_slash {name : String} (hname : IsTagName name) (pairs : List (String × String)) (body : List Char) :
    (tagText name pairs).reverse ≠ '/' :: body := by
  intro heq
  have hlast : (tagText name pairs).getLast? = some '/' := by
    rw [← List.head?_reverse, heq, List.head?_cons]
  rw [tagText, String.toList_append, List.getLast?_append, Option.or_eq_some_iff] at hlast
  rcases hlast with hpairs | ⟨-, hname'⟩
  · exact absurd (getLast?_attributesText hpairs) (by decide)
  · exact hname.ne (List.mem_of_getLast? hname') (by decide) rfl

section
variable {name : String} {pairs : List (String × String)} (hname : IsTagName name) (hpairs : Attributive pairs)
include hname

theorem markup?_of_tagEnd? {rest body more : List Char}
    (h : tagEnd? none (tagText name pairs ++ rest) = some (body, more)) :
    markup? (tagText name pairs ++ rest) = match body.reverse with
      | '/' :: body => some (.empty body.reverse, more)
      | _ => some (.start body, more) := by
  obtain ⟨first, others, hfirst⟩ := List.exists_cons_of_ne_nil hname.ne_nil
  have hne : ∀ x, isTagChar x = false → first ≠ x := fun x hx => hname.ne (hfirst ▸ List.mem_cons_self) hx
  rw [tagText, String.toList_append, hfirst, List.cons_append, List.cons_append] at h ⊢
  rw [markup?, h]
  · rw [Option.map_some]
    dsimp only
    cases body.reverse with
    | nil => rfl
    | cons last others => split <;> simp_all
  · exact fun _ heq => hne '!' (by decide) (List.cons.inj heq).1
  · exact fun _ heq => hne '?' (by decide) (List.cons.inj heq).1
  · exact fun _ heq => hne '?' (by decide) (List.cons.inj heq).1
  · exact fun _ heq => hne '/' (by decide) (List.cons.inj heq).1

include hpairs

theorem markup?_start (rest : List Char) :
    markup? (tagText name pairs ++ '>' :: rest) = some (.start (tagText name pairs), rest) := by
  rw [markup?_of_tagEnd? hname ((passes_tagText hname hpairs.names).tagEnd? rest)]
  split
  next heq => exact absurd heq (tagText_ne_slash hname pairs _)
  next => rfl

theorem markup?_empty (rest : List Char) :
    markup? (tagText name pairs ++ '/' :: '>' :: rest) = some (.empty (tagText name pairs), rest) := by
  have hslash : Passes ['/'] := passes_of_ne (by decide)
  have hend := ((passes_tagText hname hpairs.names).append hslash).tagEnd? rest
  rw [List.append_assoc, List.singleton_append] at hend
  rw [markup?_of_tagEnd? hname hend]
  simp

omit hpairs in
theorem markup?_finish (rest : List Char) :
    markup? ('/' :: (name.toList ++ '>' :: rest)) = some (.finish name.toList, rest) := by
  have hclosed : closedName name.toList = name.toList := by
    have hdrop : Text.dropEndWhile Text.isSpacing name.toList = name.toList := by
      rw [Text.dropEndWhile, Text.dropWhile_of_head?, List.reverse_reverse]
      intro c hc
      exact isSpacing_of_isTagChar (hname.isTagChar (List.mem_reverse.mp (List.mem_of_head? hc)))
    rw [closedName, hdrop]
    split
    · rfl
    · rfl
  rw [markup?, hname.passes.tagEnd? rest, Option.map_some, hclosed]

end

/-! ### Elements -/

namespace Element

mutual

/-- Names stand in a tag as they are, attributes are distinct, and texts have no spacing at their ends. -/
def Plain : Element → Prop
  | node name attributes children text =>
    IsTagName name ∧ Attributive attributes ∧ Trimmed text.toList ∧ ListPlain children

/-- All of the elements are plain. -/
def ListPlain : List Element → Prop
  | [] => True
  | e :: es => e.Plain ∧ ListPlain es

end

mutual

/-- The text of an element. -/
def markup : Element → String
  | node name attributes children text =>
    if text.isEmpty && children.isEmpty then "<" ++ (name ++ attributesText attributes) ++ "/>"
    else
      "<" ++ (name ++ attributesText attributes) ++ ">" ++ (escaped text ++ listMarkup children) ++ ("</" ++ name ++ ">")

/-- The text of elements one after the other. -/
def listMarkup : List Element → String
  | [] => ""
  | e :: es => e.markup ++ listMarkup es

end

mutual

/-- The number of tags. -/
def tags : Element → Nat
  | node _ _ children text => if text.isEmpty && children.isEmpty then 1 else listTags children + 2

/-- The number of tags of all elements. -/
def listTags : List Element → Nat
  | [] => 0
  | e :: es => e.tags + listTags es

end

mutual

/-- Whether an element is plain. -/
def decidePlain : (e : Element) → Decidable e.Plain
  | node name attributes children text =>
    have := decideListPlain children
    inferInstanceAs (Decidable (IsTagName name ∧ Attributive attributes ∧ Trimmed text.toList ∧ ListPlain children))

/-- Whether all elements are plain. -/
def decideListPlain : (es : List Element) → Decidable (ListPlain es)
  | [] => isTrue trivial
  | e :: es =>
    have := decidePlain e
    have := decideListPlain es
    inferInstanceAs (Decidable (e.Plain ∧ ListPlain es))

end

instance (e : Element) : Decidable e.Plain :=
  decidePlain e

theorem trimmed_empty : Trimmed "".toList := by
  rintro c (hc | hc) <;> cases hc

theorem attributive_nil : Attributive [] :=
  ⟨by simp, by simp⟩

theorem plain_branch {name : String} (hname : IsTagName name) {children : List Element} (h : ListPlain children) :
    (branch name children).Plain :=
  ⟨hname, attributive_nil, trimmed_empty, h⟩

theorem plain_bare {name : String} (hname : IsTagName name) {pairs : List (String × String)} (h : Attributive pairs) :
    (node name pairs [] "").Plain :=
  ⟨hname, h, trimmed_empty, trivial⟩

theorem plain_leaf {name : String} (hname : IsTagName name) {text : String} (h : Trimmed text.toList) :
    (leaf name text).Plain :=
  ⟨hname, attributive_nil, h, trivial⟩

theorem listPlain_iff {es : List Element} : ListPlain es ↔ ∀ e ∈ es, e.Plain := by
  induction es with
  | nil => simp [ListPlain]
  | cons e es ih => rw [ListPlain, ih, List.forall_mem_cons]

mutual

theorem writes_events (e : Element) : Writes e.events e.markup := by
  obtain ⟨name, attributes, children, text⟩ := e
  rw [events, markup]
  cases htext : text.isEmpty with
  | false =>
    have hinner := writes_append children (writes_text text)
    simpa [textEvents, htext] using hinner.element name attributes
  | true =>
    rw [String.isEmpty_iff.mp htext]
    cases children with
    | nil => simpa [textEvents, listEvents] using writes_element_nil name attributes
    | cons e es =>
      have hinner := writes_append es (writes_events e)
      simpa [textEvents, listEvents, listMarkup, escaped] using hinner.element name attributes

theorem writes_append (es : List Element) {before : List Event} {shown : String} (h : Writes before shown) :
    Writes (before ++ listEvents es) (shown ++ listMarkup es) := by
  cases es with
  | nil => simpa [listEvents, listMarkup] using h
  | cons e es => simpa [listEvents, listMarkup, String.append_assoc] using writes_append es (h.append (writes_events e))

end

theorem write_events (e : Element) : write e.events = .ok e.markup :=
  e.writes_events.write_eq

end Element

/-! ### Reading -/

theorem textRun_escaped {text : String} (h : Trimmed text.toList) :
    textRun (escaped text).toList = { events := Element.textEvents text, fault := none } := by
  rw [textRun, h.escaped.trimWhile_eq, unescaped?_escaped, Element.textEvents]
  split
  next heq => cases heq
  next heq =>
    cases heq
    rfl
  next hne heq =>
    cases heq
    rw [if_neg]
    rw [String.isEmpty_iff]
    exact fun hempty => hne (by rw [hempty])

theorem readFrom_bracket (fuel : Nat) (opened : List (List Char)) (rest : List Char) :
    readFrom (fuel + 1) opened ('<' :: rest) =
      match markup? rest with
      | none => .failed "markup not closed"
      | some (.start body, more) =>
        (startTag body).andThen fun _ => readFrom fuel ((tagName body).1 :: opened) more
      | some (.empty body, more) =>
        (startTag body).andThen fun _ => (readFrom fuel opened more).after [.endElement]
      | some (.finish name, more) =>
        match opened with
        | [] => .failed "end tag without a start tag"
        | expected :: outer =>
          if name = expected then (readFrom fuel outer more).after [.endElement]
          else .failed "end tag of another element"
      | some (.text body, more) => (readFrom fuel opened more).after [.text (String.ofList body)]
      | some (.ignored, more) => readFrom fuel opened more := by
  rw [readFrom, List.takeWhile_cons_of_neg (by decide), List.dropWhile_cons_of_neg (by decide)]
  rfl

/-- A text does not cost fuel. -/
theorem readFrom_text {text : String} (h : Trimmed text.toList) (fuel : Nat) (opened : List (List Char))
    (rest : List Char) :
    readFrom (fuel + 1) opened ((escaped text).toList ++ '<' :: rest)
      = (readFrom (fuel + 1) opened ('<' :: rest)).after (Element.textEvents text) := by
  have hplain : ∀ c ∈ (escaped text).toList, (c != '<') = true := fun c hc => by simp [(ne_of_mem_escaped hc).1]
  rw [readFrom_bracket, readFrom, List.takeWhile_append_of_pos hplain, List.dropWhile_append_of_pos hplain,
    List.takeWhile_cons_of_neg (by decide), List.dropWhile_cons_of_neg (by decide), List.append_nil, textRun_escaped h]
  rfl

theorem Document.after_after (d : Document) (es es' : List Event) : (d.after es').after es = d.after (es ++ es') := by
  rw [after, after, after, List.append_assoc]

section
variable {name : String} (hname : IsTagName name) {pairs : List (String × String)} (hpairs : Attributive pairs)
  (fuel : Nat) (opened : List (List Char)) (rest : List Char)
include hname

theorem readFrom_start (hpairs : Attributive pairs) :
    readFrom (fuel + 1) opened ('<' :: (tagText name pairs ++ '>' :: rest))
      = (readFrom fuel (name.toList :: opened) rest).after (.start name :: attributeEvents pairs) := by
  rw [readFrom_bracket, markup?_start hname hpairs]
  dsimp only
  rw [startTag_tagText hname hpairs, tagName_tagText hname]
  rfl

theorem readFrom_empty (hpairs : Attributive pairs) :
    readFrom (fuel + 1) opened ('<' :: (tagText name pairs ++ '/' :: '>' :: rest))
      = (readFrom fuel opened rest).after (Event.element name (attributeEvents pairs)) := by
  rw [readFrom_bracket, markup?_empty hname hpairs]
  dsimp only
  rw [startTag_tagText hname hpairs]
  exact Document.after_after ..

theorem readFrom_finish :
    readFrom (fuel + 1) (name.toList :: opened) ('<' :: '/' :: (name.toList ++ '>' :: rest))
      = (readFrom fuel opened rest).after [.endElement] := by
  rw [readFrom_bracket, markup?_finish hname]
  exact if_pos rfl

end

namespace Element

theorem exists_markup_eq (e : Element) : ∃ cs, e.markup.toList = '<' :: cs := by
  obtain ⟨name, attributes, children, text⟩ := e
  rw [markup]
  split
  · exact ⟨_, by simp only [String.toList_append]; rfl⟩
  · exact ⟨_, by simp only [String.toList_append]; rfl⟩

/-- What follows a text is a tag, so the text is not read as a part of it. -/
theorem readFrom_text_list {text : String} (h : Trimmed text.toList) (es : List Element) (fuel : Nat)
    (opened : List (List Char)) (rest : List Char) :
    readFrom (fuel + 1) opened ((escaped text ++ listMarkup es).toList ++ '<' :: rest)
      = (readFrom (fuel + 1) opened ((listMarkup es).toList ++ '<' :: rest)).after (textEvents text) := by
  rw [String.toList_append, List.append_assoc]
  cases es with
  | nil => exact readFrom_text h fuel opened rest
  | cons e es =>
    obtain ⟨cs, hcs⟩ := e.exists_markup_eq
    rw [listMarkup, String.toList_append, hcs, List.append_assoc, List.cons_append]
    exact readFrom_text h fuel opened _

mutual

theorem readFrom_markup (e : Element) (he : e.Plain) (fuel : Nat) (opened : List (List Char)) (rest : List Char) :
    readFrom (fuel + e.tags) opened (e.markup.toList ++ rest) = (readFrom fuel opened rest).after e.events := by
  obtain ⟨name, pairs, children, text⟩ := e
  obtain ⟨hname, hpairs, htext, hchildren⟩ := he
  rw [tags, markup, events]
  split
  next hempty =>
    rw [Bool.and_eq_true, String.isEmpty_iff, List.isEmpty_iff] at hempty
    obtain ⟨rfl, rfl⟩ := hempty
    have hread := readFrom_empty hname fuel opened rest hpairs
    simpa [tagText, textEvents, listEvents] using hread
  next =>
    have hclosing : ("</" ++ name ++ ">").toList = '<' :: '/' :: (name.toList ++ ['>']) := by simp
    have hinner := readFrom_listMarkup children hchildren (fuel + 1) (name.toList :: opened)
      ('<' :: '/' :: (name.toList ++ '>' :: rest))
    have hfuel : fuel + 1 + listTags children = fuel + listTags children + 1 := by omega
    have hstart := readFrom_start hname (fuel + listTags children + 1) opened
      ((escaped text ++ listMarkup children).toList ++ '<' :: '/' :: (name.toList ++ '>' :: rest)) hpairs
    rw [readFrom_text_list htext, ← hfuel, hinner, readFrom_finish hname, Document.after_after, Document.after_after,
      Document.after_after, hfuel] at hstart
    rw [show fuel + (listTags children + 2) = fuel + listTags children + 1 + 1 by omega]
    simpa [tagText, hclosing, Event.element] using hstart

theorem readFrom_listMarkup (es : List Element) (hes : ListPlain es) (fuel : Nat) (opened : List (List Char))
    (rest : List Char) :
    readFrom (fuel + listTags es) opened ((listMarkup es).toList ++ rest)
      = (readFrom fuel opened rest).after (listEvents es) := by
  cases es with
  | nil => rfl
  | cons e es =>
    rw [listTags, listMarkup, listEvents, String.toList_append, List.append_assoc, Nat.add_comm e.tags, ← Nat.add_assoc,
      readFrom_markup e hes.1, readFrom_listMarkup es hes.2, Document.after_after]

end

mutual

theorem tags_le (e : Element) : e.tags ≤ e.markup.toList.length := by
  obtain ⟨name, attributes, children, text⟩ := e
  have hchildren := listTags_le children
  rw [tags, markup]
  split
  · simp
  · simp
    omega

theorem listTags_le (es : List Element) : listTags es ≤ (listMarkup es).toList.length := by
  cases es with
  | nil => exact Nat.le_refl 0
  | cons e es =>
    have hfirst := tags_le e
    have hrest := listTags_le es
    rw [listTags, listMarkup, String.toList_append, List.length_append]
    omega

end

theorem read_markup {e : Element} (he : e.Plain) : read e.markup = { events := e.events, fault := none } := by
  obtain ⟨cs, hcs⟩ := e.exists_markup_eq
  obtain ⟨fuel, hfuel⟩ := Nat.exists_eq_add_of_le' e.tags_le
  have hread := readFrom_markup e he (fuel + 1) [] []
  rw [List.append_nil, Nat.add_right_comm, ← hfuel, hcs] at hread
  rw [read, hcs]
  refine hread.trans ?_
  simp [readFrom, Document.after, textRun, Text.trimWhile, Text.dropEndWhile, unescaped?, unescape?, Document.andThen]

/-- An element that is written is read again. -/
theorem parse_markup {e : Element} (he : e.Plain) : Element.parse e.markup = .ok e := by
  have hbuilt := e.ofEvents_eq
  rw [Element.parse, feed, read_markup he]
  rw [ofEvents] at hbuilt
  cases hall : e.events.foldlM Builder.push {} with
  | error err =>
    rw [hall] at hbuilt
    cases hbuilt
  | ok last =>
    rw [hall] at hbuilt
    simpa [hall] using hbuilt

theorem isEmpty_markup (e : Element) : e.markup.isEmpty = false := by
  obtain ⟨cs, hcs⟩ := e.exists_markup_eq
  rw [Bool.eq_false_iff]
  intro hempty
  rw [String.isEmpty_iff.mp hempty] at hcs
  cases hcs

/-- The text of an element is not blank. -/
theorem trim_markup (e : Element) : (Text.trim e.markup).isEmpty = false := by
  obtain ⟨cs, hcs⟩ := e.exists_markup_eq
  rw [Text.trim, Text.trimWhile, hcs, List.dropWhile_cons_of_neg (by decide), Text.dropEndWhile, Bool.eq_false_iff]
  intro hempty
  have hnil : ('<' :: cs).reverse.dropWhile Text.isBlank = [] := by simpa using hempty
  exact absurd (List.dropWhile_eq_nil_iff.mp hnil '<' (by simp)) (by decide)

end Element
end ItemQuery.Xml
