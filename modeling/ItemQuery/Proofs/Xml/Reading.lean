import ItemQuery.Proofs.Text.Cutting
import ItemQuery.Proofs.Xml.Writing
import ItemQuery.Xml.Element

/-! Text that was written is read as the events it was written from, and these build the elements again. Names are made
    of letters and underscores, and a text has no spacing at its ends, which the reader would drop. -/

namespace ItemQuery.Xml

/-! ### References -/

theorem unescape?_escapedChar (c : Char) (rest : List Char) :
    unescape? none (escapedChar c ++ rest) = (unescape? none rest).map (c :: ·) := by
  unfold escapedChar
  split
  · rfl
  · rfl
  · rfl
  · rfl
  · rfl
  next hand _ _ =>
    rw [List.singleton_append, unescape?]
    exact fun h => hand h

theorem unescaped?_escaped (s : String) : unescaped? (escaped s).toList = some s := by
  have hchars : ∀ cs : List Char, unescape? none (cs.flatMap escapedChar) = some cs := by
    intro cs
    induction cs with
    | nil => rfl
    | cons c cs ih => rw [List.flatMap_cons, unescape?_escapedChar, ih]; rfl
  rw [unescaped?, escaped, String.toList_ofList, hchars, Option.map_some, String.ofList_toList]

/-- What stands for a character is the character, if it is none of markup, or a reference. -/
theorem mem_escapedChar {source c : Char} (h : c ∈ escapedChar source) :
    c = source ∧ c ≠ '<' ∧ c ≠ '>' ∧ c ≠ '\'' ∧ c ≠ '"' ∨ c ∈ "&agloqmpstu;".toList := by
  unfold escapedChar at h
  split at h
  next => exact .inr (by revert c; decide)
  next => exact .inr (by revert c; decide)
  next => exact .inr (by revert c; decide)
  next => exact .inr (by revert c; decide)
  next => exact .inr (by revert c; decide)
  next hlt hgt _ hsingle hdouble =>
    cases List.mem_singleton.mp h
    exact .inl ⟨rfl, hlt, hgt, hsingle, hdouble⟩

theorem ne_of_mem_escaped {s : String} {c : Char} (h : c ∈ (escaped s).toList) :
    c ≠ '<' ∧ c ≠ '>' ∧ c ≠ '\'' ∧ c ≠ '"' := by
  rw [escaped, String.toList_ofList] at h
  obtain ⟨source, -, hc⟩ := List.mem_flatMap.mp h
  have hreference : ∀ c ∈ "&agloqmpstu;".toList, c ≠ '<' ∧ c ≠ '>' ∧ c ≠ '\'' ∧ c ≠ '"' := by decide
  exact (mem_escapedChar hc).elim (·.2) (hreference c)

/-! ### Spacing -/

/-- No spacing at the ends. -/
def Trimmed (cs : List Char) : Prop :=
  ∀ c, cs.head? = some c ∨ cs.getLast? = some c → Text.isSpacing c = false

instance (cs : List Char) : Decidable (Trimmed cs) :=
  decidable_of_iff (cs.head?.all (!Text.isSpacing ·) = true ∧ cs.getLast?.all (!Text.isSpacing ·) = true) <| by
    simp only [Trimmed, or_imp, forall_and]
    cases cs.head? <;> cases cs.getLast? <;> simp

theorem Trimmed.trimWhile_eq {cs : List Char} (h : Trimmed cs) : Text.trimWhile Text.isSpacing cs = cs :=
  Text.trimWhile_eq_self_iff.mpr h

theorem isSpacing_of_escapedChar {source c : Char} (hsource : Text.isSpacing source = false)
    (hc : c ∈ escapedChar source) : Text.isSpacing c = false := by
  have hreference : ∀ c ∈ "&agloqmpstu;".toList, Text.isSpacing c = false := by decide
  exact (mem_escapedChar hc).elim (fun hsame => hsame.1 ▸ hsource) (hreference c)

theorem escapedChar_ne_nil (c : Char) : escapedChar c ≠ [] := by
  unfold escapedChar
  split <;> exact List.cons_ne_nil _ _

theorem Trimmed.escaped {s : String} (h : Trimmed s.toList) : Trimmed (escaped s).toList := by
  intro c hc
  rw [Xml.escaped, String.toList_ofList, ← List.head?_reverse, List.reverse_flatMap] at hc
  rw [Trimmed] at h
  rcases hc with hc | hc
  · cases hs : s.toList with
    | nil => rw [hs] at hc; cases hc
    | cons first rest =>
      rw [hs, List.flatMap_cons, List.head?_append, Option.or_of_isSome (by simpa using escapedChar_ne_nil first)] at hc
      exact isSpacing_of_escapedChar (h first (.inl (by rw [hs]; rfl))) (List.mem_of_head? hc)
  · cases hs : s.toList.reverse with
    | nil => rw [hs] at hc; cases hc
    | cons last rest =>
      have hne : (List.reverse ∘ escapedChar) last ≠ [] := by simpa using escapedChar_ne_nil last
      rw [hs, List.flatMap_cons, List.head?_append, Option.or_of_isSome (by simpa using hne)] at hc
      have hmem : c ∈ escapedChar last := List.mem_reverse.mp (List.mem_of_head? hc)
      exact isSpacing_of_escapedChar (h last (.inr (by rw [← List.head?_reverse, hs]; rfl))) hmem

/-! ### Names -/

/-- Whether a name needs no care. -/
def isTagChar (c : Char) : Bool :=
  c.isAlpha || c == '_'

/-- Names of elements and attributes that stand in a tag as they are. -/
structure IsTagName (name : String) : Prop where
  ne_nil : name.toList ≠ []
  plain : name.toList.all isTagChar = true
  declaresNone : declaresSpace name.toList = false

instance (name : String) : Decidable (IsTagName name) :=
  decidable_of_iff (name.toList ≠ [] ∧ name.toList.all isTagChar = true ∧ declaresSpace name.toList = false)
    ⟨fun ⟨h₁, h₂, h₃⟩ => ⟨h₁, h₂, h₃⟩, fun ⟨h₁, h₂, h₃⟩ => ⟨h₁, h₂, h₃⟩⟩

theorem isSpacing_of_isTagChar {c : Char} (h : isTagChar c = true) : Text.isSpacing c = false := by
  have hne : ∀ x, isTagChar x = false → c ≠ x := by
    rintro x hx rfl
    rw [h] at hx
    cases hx
  simp [Text.isSpacing, hne ' ' (by decide), hne '\t' (by decide), hne '\r' (by decide), hne '\n' (by decide)]

section
variable {name : String} (h : IsTagName name)
include h

theorem IsTagName.isTagChar {c : Char} (hc : c ∈ name.toList) : isTagChar c = true :=
  List.all_eq_true.mp h.plain c hc

theorem IsTagName.ne {c x : Char} (hc : c ∈ name.toList) (hx : Xml.isTagChar x = false) : c ≠ x := by
  rintro rfl
  rw [h.isTagChar hc] at hx
  cases hx

end

theorem IsTagName.nameOf {name : String} (h : IsTagName name) : nameOf name.toList = { localName := name } := by
  rw [Xml.nameOf, Text.cut?_eq_none (fun c hc => h.ne hc (by decide)) [], String.ofList_toList]

end ItemQuery.Xml
