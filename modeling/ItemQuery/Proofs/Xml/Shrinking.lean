import ItemQuery.Proofs.Text.Shrinking
import ItemQuery.Proofs.Xml.Writing

/-! Elements that lose contents or attributes. Their text gets shorter at any depth, also where the characters of markup
    are escaped. So lengths are measured by a weight of each character. -/

namespace ItemQuery.Xml

/-- A weight for each character. -/
structure Scale where
  weight : Char → Nat
  pos : ∀ c, 0 < weight c

namespace Scale

/-- The length of a text. -/
def plain : Scale :=
  ⟨fun _ => 1, fun _ => Nat.one_pos⟩

/-- The length of a text with the characters of markup escaped. -/
def escaping : Scale :=
  ⟨fun c => (escapedChar c).length, fun c => by unfold escapedChar; split <;> simp⟩

variable (m : Scale)

def total (s : String) : Nat :=
  (s.toList.map m.weight).sum

@[simp] theorem total_append (s t : String) : m.total (s ++ t) = m.total s + m.total t := by
  rw [total, String.toList_append, List.map_append, List.sum_append, total, total]

theorem total_pos {s : String} (h : s ≠ "") : 0 < m.total s := by
  cases hs : s.toList with
  | nil => exact absurd (String.toList_eq_nil_iff.mp hs) h
  | cons c cs =>
    rw [total, hs, List.map_cons, List.sum_cons]
    exact Nat.add_pos_left (m.pos c) _

theorem total_plain (s : String) : plain.total s = s.length := by
  rw [total, plain, List.map_const', List.sum_replicate_nat, Nat.mul_one, String.length_toList]

theorem total_escaping (s : String) : escaping.total s = (escaped s).length := by
  rw [total, escaped, String.length_ofList, List.length_flatMap]
  rfl

end Scale

/-! ### Chunks -/

/-- Events with the text that is written for them. -/
structure Chunk where
  events : List Event
  text : String
  writes : Writes events text
  text_ne : text ≠ ""

namespace Chunk

variable {m : Scale} {p : Prop} {ps ps' : List Chunk} {pairs pairs' : List (String × String)}

def listEvents (ps : List Chunk) : List Event :=
  ps.flatMap events

def listText : List Chunk → String
  | [] => ""
  | chunk :: ps => chunk.text ++ listText ps

theorem listEvents_append (ps ps' : List Chunk) : listEvents (ps ++ ps') = listEvents ps ++ listEvents ps' :=
  List.flatMap_append

theorem listEvents_flatten (css : List (List Chunk)) : listEvents css.flatten = (css.map listEvents).flatten := by
  induction css with
  | nil => rfl
  | cons cs css ih => rw [List.flatten_cons, listEvents_append, ih, List.map_cons, List.flatten_cons]

theorem listEvents_singleton (chunk : Chunk) : listEvents [chunk] = chunk.events :=
  List.append_nil _

theorem writes_listEvents (chunk : Chunk) (ps : List Chunk) :
    Writes (listEvents (chunk :: ps)) (listText (chunk :: ps)) := by
  induction ps generalizing chunk with
  | nil =>
    rw [listEvents_singleton, listText, listText, String.append_empty]
    exact chunk.writes
  | cons next ps ih => exact chunk.writes.append (ih next)

theorem write_listEvents (ps : List Chunk) : write (listEvents ps) = .ok (listText ps) := by
  cases ps with
  | nil => rfl
  | cons chunk ps => exact (writes_listEvents chunk ps).write_eq

/-- An element with attributes and contents. -/
def element (name : String) (pairs : List (String × String)) : List Chunk → Chunk
  | [] => ⟨_, _, writes_element_nil name pairs, by simp [← String.toList_eq_nil_iff]⟩
  | chunk :: ps => ⟨_, _, (writes_listEvents chunk ps).element name pairs, by simp [← String.toList_eq_nil_iff]⟩

/-- An element with attributes and a text. -/
def filled (name : String) (pairs : List (String × String)) (value : String) : Chunk :=
  ⟨_, _, (writes_text value).element name pairs, by simp [← String.toList_eq_nil_iff]⟩

/-- An element with a text only; an empty text is left out. -/
def leaf (name value : String) : Chunk :=
  if value.isEmpty then element name [] [] else filled name [] value

theorem events_leaf (name value : String) : (leaf name value).events = Event.leaf name value := by
  unfold leaf Event.leaf
  split <;> rfl

theorem events_element (name : String) (pairs : List (String × String)) (ps : List Chunk) :
    (element name pairs ps).events = Event.element name (attributeEvents pairs ++ listEvents ps) := by
  cases ps with
  | nil => exact congrArg (Event.element name) (List.append_nil _).symm
  | cons chunk ps => rfl

/-- The weight of the text, one less for the mark. -/
def size (m : Scale) (chunk : Chunk) : Nat :=
  m.total chunk.text - 1

theorem size_succ (m : Scale) (chunk : Chunk) : chunk.size m + 1 = m.total chunk.text :=
  Nat.sub_add_cancel (m.total_pos chunk.text_ne)

theorem load_eq (m : Scale) (ps : List Chunk) : load (size m) ps = m.total (listText ps) := by
  induction ps with
  | nil => rfl
  | cons chunk ps ih => rw [load_cons, size_succ, ih, listText, m.total_append]

/-- What is left of chunks. -/
abbrev Left (m : Scale) (p : Prop) (ps' ps : List Chunk) : Prop :=
  Leaves (size m) (fun _ => ()) p ps' ps

theorem total_element_cons (m : Scale) (name : String) (pairs : List (String × String)) (chunk : Chunk) (ps : List Chunk) :
    m.total (element name pairs (chunk :: ps)).text = m.total "<" + m.total name + m.total (attributesText pairs)
      + m.total ">" + m.total (listText (chunk :: ps)) + m.total "</" + m.total name + m.total ">" := by
  simp only [element, m.total_append]
  omega

theorem total_element_nil (m : Scale) (name : String) (pairs : List (String × String)) :
    m.total (element name pairs []).text = m.total "<" + m.total name + m.total (attributesText pairs) + m.total "/>" := by
  simp only [element, m.total_append]
  omega

theorem load_lt_element (m : Scale) (name : String) (pairs : List (String × String)) (ps : List Chunk) :
    load (size m) ps < load (size m) [element name pairs ps] := by
  rw [load_eq, load_eq, listText, listText, String.append_empty]
  have hbracket : 0 < m.total "<" := m.total_pos (by decide)
  cases ps with
  | nil => exact m.total_pos (element name pairs []).text_ne
  | cons chunk ps =>
    rw [total_element_cons]
    omega

/-- An element gets shorter with its contents and its attributes. -/
theorem element_shortened (hpairs : m.total (attributesText pairs') ≤ m.total (attributesText pairs))
    (hle : load (size m) ps' ≤ load (size m) ps) (hless : p → load (size m) ps' < load (size m) ps) (name : String) :
    Shortened (size m) (fun _ => ()) (element name pairs' ps') (element name pairs ps) ∧
      (p ∨ m.total (attributesText pairs') < m.total (attributesText pairs) →
        (element name pairs' ps').size m < (element name pairs ps).size m) := by
  have hnew := size_succ m (element name pairs' ps')
  have hold := size_succ m (element name pairs ps)
  rw [load_eq, load_eq] at hle hless
  -- The slash and the bracket of an empty element also stand in an end tag.
  have hslash : m.total "/>" = m.total "/" + m.total ">" := m.total_append "/" ">"
  have hclose : m.total "</" = m.total "<" + m.total "/" := m.total_append "<" "/"
  have hbracket : 0 < m.total "<" := m.total_pos (by decide)
  match ps', ps with
  | [], [] =>
    rw [total_element_nil] at hnew hold
    refine ⟨⟨by omega, rfl⟩, ?_⟩
    rintro (hp | hlt)
    · exact absurd (hless hp) (Nat.lt_irrefl _)
    · omega
  | [], chunk :: ps =>
    rw [total_element_nil] at hnew
    rw [total_element_cons] at hold
    exact ⟨⟨by omega, rfl⟩, fun _ => by omega⟩
  | chunk' :: ps', [] =>
    have hpos := m.total_pos chunk'.text_ne
    rw [listText, listText, m.total_append] at hle
    exact absurd (Nat.le_trans (Nat.le_add_right _ _) hle) (Nat.not_le_of_lt hpos)
  | chunk' :: ps', chunk :: ps =>
    rw [total_element_cons] at hnew hold
    refine ⟨⟨by omega, rfl⟩, ?_⟩
    rintro (hp | hlt)
    · have := hless hp
      omega
    · omega

theorem Left.element (h : Left m p ps' ps) (hpairs : m.total (attributesText pairs') ≤ m.total (attributesText pairs))
    (name : String) : Left m (p ∨ m.total (attributesText pairs') < m.total (attributesText pairs))
      [.element name pairs' ps'] [.element name pairs ps] :=
  have hshort := element_shortened hpairs (load_le h.entries) h.less name
  .singleton hshort.1 hshort.2

theorem Left.within (h : Left m p ps' ps) (name : String) (pairs : List (String × String)) :
    Left m p [.element name pairs ps'] [.element name pairs ps] :=
  (h.element le_rfl name).mono .inl

/-- An element that holds a text gets shorter with it. -/
theorem left_filled {value value' : String} (hle : Scale.escaping.total value' ≤ Scale.escaping.total value)
    (hlt : p → Scale.escaping.total value' < Scale.escaping.total value) (name : String) (pairs : List (String × String)) :
    Left .plain p [filled name pairs value'] [filled name pairs value] := by
  have hnew := size_succ .plain (filled name pairs value')
  have hold := size_succ .plain (filled name pairs value)
  simp only [filled, Scale.total_append, Scale.total_plain (escaped _), ← Scale.total_escaping] at hnew hold
  refine .singleton ⟨?_, rfl⟩ fun hp => ?_
  · unfold filled
    omega
  · have := hlt hp
    unfold filled
    omega

end Chunk

/-! ### Well formed events -/

/-- Events that are written. -/
def Formed (es : List Event) : Prop :=
  ∃ ps, Chunk.listEvents ps = es

/-- Events of which some may have been left out; their text is shorter if `p` holds. -/
def Thinned (p : Prop) (es' es : List Event) : Prop :=
  ∃ ps' ps, Chunk.listEvents ps' = es' ∧ Chunk.listEvents ps = es ∧ Chunk.Left .plain p ps' ps

section
variable {p p' : Prop} {es es' fs fs' : List Event}

theorem formed_nil : Formed [] :=
  ⟨[], rfl⟩

theorem formed_events (chunk : Chunk) : Formed chunk.events :=
  ⟨[chunk], Chunk.listEvents_singleton chunk⟩

theorem Formed.append (h : Formed es) (h' : Formed fs) : Formed (es ++ fs) := by
  obtain ⟨ps, rfl⟩ := h
  obtain ⟨qs, rfl⟩ := h'
  exact ⟨ps ++ qs, Chunk.listEvents_append ps qs⟩

theorem formed_flatten {ess : List (List Event)} (h : ∀ es ∈ ess, Formed es) : Formed ess.flatten := by
  induction ess with
  | nil => exact formed_nil
  | cons es ess ih =>
    rw [List.forall_mem_cons] at h
    exact h.1.append (ih h.2)

theorem Formed.element (h : Formed es) (name : String) (pairs : List (String × String)) :
    Formed (Event.element name (attributeEvents pairs ++ es)) := by
  obtain ⟨ps, rfl⟩ := h
  rw [← Chunk.events_element]
  exact formed_events _

theorem formed_filled (name : String) (pairs : List (String × String)) (value : String) :
    Formed (Event.element name (attributeEvents pairs ++ [.text value])) :=
  formed_events (.filled name pairs value)

theorem formed_leaf (name text : String) : Formed (Event.leaf name text) :=
  Chunk.events_leaf name text ▸ formed_events _

theorem Formed.thinned (h : Formed es) : Thinned False es es := by
  obtain ⟨ps, rfl⟩ := h
  exact ⟨ps, ps, rfl, rfl, .refl ps⟩

theorem Thinned.mono (h : Thinned p es' es) (hp : p' → p) : Thinned p' es' es := by
  obtain ⟨ps', ps, hps', hps, hleft⟩ := h
  exact ⟨ps', ps, hps', hps, hleft.mono hp⟩

theorem Thinned.append (h : Thinned p es' es) (h' : Thinned p' fs' fs) : Thinned (p ∨ p') (es' ++ fs') (es ++ fs) := by
  obtain ⟨ps', ps, rfl, rfl, hleft⟩ := h
  obtain ⟨qs', qs, rfl, rfl, hleft'⟩ := h'
  exact ⟨ps' ++ qs', ps ++ qs, Chunk.listEvents_append ps' qs', Chunk.listEvents_append ps qs, hleft.append hleft'⟩

theorem Thinned.element {pairs pairs' : List (String × String)} (h : Thinned p es' es)
    (hpairs : (attributesText pairs').length ≤ (attributesText pairs).length) (name : String) :
    Thinned (p ∨ (attributesText pairs').length < (attributesText pairs).length)
      (Event.element name (attributeEvents pairs' ++ es')) (Event.element name (attributeEvents pairs ++ es)) := by
  obtain ⟨ps', ps, rfl, rfl, hleft⟩ := h
  rw [← Scale.total_plain, ← Scale.total_plain] at hpairs ⊢
  rw [← Chunk.events_element, ← Chunk.events_element]
  exact ⟨_, _, Chunk.listEvents_singleton _, Chunk.listEvents_singleton _, hleft.element hpairs name⟩

theorem Thinned.within (h : Thinned p es' es) (name : String) (pairs : List (String × String)) :
    Thinned p (Event.element name (attributeEvents pairs ++ es')) (Event.element name (attributeEvents pairs ++ es)) :=
  (h.element le_rfl name).mono .inl

theorem Formed.thinned_nil (h : Formed es) (name : String) (pairs : List (String × String)) :
    Thinned True [] (Event.element name (attributeEvents pairs ++ es)) := by
  obtain ⟨ps, rfl⟩ := h
  rw [← Chunk.events_element]
  exact ⟨[], _, rfl, Chunk.listEvents_singleton _, .nil, fun _ => Nat.succ_pos _⟩

theorem Thinned.flatten {α : Type} {f f' : α → Result (List Event)} {P : α → Prop} {as : List α}
    {ess ess' : List (List Event)}
    (h : as.mapM f = .ok ess) (h' : as.mapM f' = .ok ess')
    (hall : ∀ a ∈ as, ∀ es es', f a = .ok es → f' a = .ok es' → Thinned (P a) es' es) :
    Thinned (∃ a ∈ as, P a) ess'.flatten ess.flatten := by
  induction as generalizing ess ess' with
  | nil =>
    cases h
    cases h'
    exact formed_nil.thinned.mono fun ⟨_, ha, _⟩ => nomatch ha
  | cons a as ih =>
    rw [List.forall_mem_cons] at hall
    rw [List.mapM_cons] at h h'
    obtain ⟨es, hes, h⟩ := Result.bind_eq_ok.mp h
    obtain ⟨rest, hrest, h⟩ := Result.bind_eq_ok.mp h
    obtain ⟨es', hes', h'⟩ := Result.bind_eq_ok.mp h'
    obtain ⟨rest', hrest', h'⟩ := Result.bind_eq_ok.mp h'
    cases h
    cases h'
    refine ((hall.1 es es' hes hes').append (ih hrest hrest' hall.2)).mono ?_
    rintro ⟨b, hb, hP⟩
    rcases List.mem_cons.mp hb with rfl | hb
    · exact .inl hP
    · exact .inr ⟨b, hb, hP⟩

/-- The texts are different if something is left out. -/
theorem Thinned.write_ne (h : Thinned p es' es) (hp : p) : write es' ≠ write es := by
  obtain ⟨ps', ps, rfl, rfl, hleft⟩ := h
  have hless := hleft.less hp
  rw [Chunk.load_eq, Chunk.load_eq] at hless
  rw [Chunk.write_listEvents, Chunk.write_listEvents]
  intro heq
  rw [Except.ok.inj heq] at hless
  exact Nat.lt_irrefl _ hless

end
end ItemQuery.Xml
