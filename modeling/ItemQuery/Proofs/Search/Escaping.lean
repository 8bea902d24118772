import ItemQuery.Proofs.Search.Values

/-! Plain texts in search boxes are escaped without loss. Whatever wildcards, delimiters and escapes they hold, what is
    written for one text or for a list of texts is cut into as many pieces, and each is read as its text. -/

namespace ItemQuery.Search

open Pattern

variable {s : SearchSettings} {escape : Char} {p : PropertyRef}

/-- The criterion that a property has one of these texts: an equality for a single one, and a list for several. -/
def equalsAny (p : PropertyRef) : List String → Expr
  | [value] => .comparison .eq (.property p) (.text value)
  | values => .inList (.property p) (values.map .text) false none

/-! ### Joining equalities -/

theorem comparedValue?_text (op : ComparisonOp) (l : Expr) (value : String) :
    comparedValue? op (.comparison op l (.text value)) = some (.text value) := by
  simp [comparedValue?, Expr.text, Expr.isLiteral]

theorem mapM_comparedValue? (op : ComparisonOp) (l : Expr) (values : List String) :
    (values.map fun value => Expr.comparison op l (.text value)).mapM (comparedValue? op) =
      some (values.map .text) := by
  induction values with
  | nil => rfl
  | cons value values ih =>
    rw [List.map_cons, List.mapM_cons, comparedValue?_text, ih]
    rfl

/-- Equalities with texts are joined to one criterion. -/
theorem combine_equalities {values : List String} (hne : values ≠ []) :
    combine (values.map fun value => .comparison .eq (.property p) (.text value)) = some (equalsAny p values) := by
  match values, hne with
  | [value], _ => rfl
  | first :: second :: more, _ =>
    have hvalues := mapM_comparedValue? .eq (.property p) (first :: second :: more)
    have hmany : 1 < ((first :: second :: more).map fun value =>
        Expr.comparison .eq (.property p) (.text value)).length := by simp
    rw [combine, if_pos hmany, valueList?, hvalues]
    rfl

/-! ### Writing -/

/-- What is written for several texts. -/
theorem render_equalsAny {mark : Char} (hmark : s.orDelimiters.toList.head? = some mark) {values showns : List String}
    (hne : values ≠ []) (h : values.mapM (literalText s) = .ok showns) :
    render s (equalsAny p values) = .ok ((String.singleton mark).intercalate showns) := by
  match values, hne with
  | [value], _ =>
    obtain ⟨shown, rest, hshown, hrest, rfl⟩ := List.forall₂_cons_left_iff.mp (Result.mapM_eq_ok_iff.mp h)
    cases hrest
    rw [String.intercalate_singleton]
    have htext : valueText s (.literal (.string value)) = .ok shown := hshown
    show comparisonText s .eq (.literal (.string value)) = .ok shown
    simp [comparisonText, htext]
  | first :: second :: more, _ =>
    obtain ⟨marks, hmarks⟩ := List.head?_eq_some_iff.mp hmark
    have hdelimiter : delimiter s = .ok (String.singleton mark) := by rw [delimiter, hmarks]
    have htexts : ((first :: second :: more).map Expr.text).mapM (valueText s) = .ok showns := by
      rw [List.mapM_map]
      exact h
    show (do
      let mark ← delimiter s
      return mark.intercalate (← ((first :: second :: more).map Expr.text).mapM (valueText s)) : Result String) = _
    rw [hdelimiter, Result.ok_bind, htexts]
    rfl

/-! ### Reading back -/

/-- With an escape that is told apart, the criterion that a property has one of some texts, none of them empty or with
    white space at its ends, is written and read back as it was. -/
theorem exists_render_equalsAny (hs : Escapes s escape) (hmarks : s.orDelimiters ≠ "") (p : PropertyRef)
    {values : List String} (hne : values ≠ []) (hvalues : ∀ value ∈ values, value ≠ "" ∧ Trimmed value.toList) :
    ∃ shown, render s (equalsAny p values) = .ok shown ∧
      Reader.read { settings := s, dataType := .string } p shown = .ok (some (equalsAny p values)) := by
  obtain ⟨mark, marks, hmark⟩ := List.exists_cons_of_ne_nil fun hnil => hmarks (String.toList_inj.mp hnil)
  have hseparates : Separates s mark := by
    have hmem : mark ∈ s.orDelimiters.toList := hmark ▸ List.mem_cons_self
    refine ⟨hmem, fun heq => hs.delimiter ?_⟩
    rwa [Option.some.inj (hs.eq.symm.trans heq)]
  -- Every text is written as one piece that is read as an equality with it.
  have heach : ∀ value ∈ values, ∃ shown piece, literalText s value = .ok shown ∧ Cuts s shown.toList [piece] ∧
      Solid piece ∧ Reader.alternative { settings := s, dataType := .string } (.property p) (String.ofList piece) =
        .ok (.comparison .eq (.property p) (.text value)) := by
    intro value hmem
    obtain ⟨hvalue, htrim⟩ := hvalues value hmem
    obtain ⟨piece, hcuts, hpiece, hpieceTrim, hread⟩ := exists_of_literalText hs hvalue htrim (literalText_eq hs hvalue)
    exact ⟨_, piece, literalText_eq hs hvalue, hcuts, ⟨hpiece, hpieceTrim⟩, alternative_text hvalue hread⟩
  choose! shownOf pieceOf hshown hcuts hsolid hread using heach
  have hshowns : values.mapM (literalText s) = .ok (values.map shownOf) := by
    refine Result.mapM_eq_ok_iff.mpr (List.forall₂_map_right_iff.mpr (List.forall₂_same.mpr hshown))
  have hcut : Cuts s ((String.singleton mark).intercalate (values.map shownOf)).toList (values.map pieceOf) := by
    refine cuts_intercalate hseparates ?_ (by simpa using hne)
    exact List.forall₂_map_left_iff.mpr (List.forall₂_map_right_iff.mpr (List.forall₂_same.mpr hcuts))
  refine ⟨_, render_equalsAny (by rw [hmark]; rfl) hne hshowns, ?_⟩
  have hpieces := alternatives_of_trimmed hcut (List.forall_mem_map.mpr hsolid)
  have hterms : (alternatives s ((String.singleton mark).intercalate (values.map shownOf))).mapM
      (Reader.alternative { settings := s, dataType := .string } (.property p)) =
        .ok (values.map fun value => .comparison .eq (.property p) (.text value)) := by
    rw [hpieces, List.map_map, List.mapM_map]
    exact Result.mapM_eq_ok_iff.mpr (List.forall₂_map_right_iff.mpr (List.forall₂_same.mpr hread))
  have hfull : (alternatives s ((String.singleton mark).intercalate (values.map shownOf))).isEmpty = false := by
    simpa [hpieces] using hne
  simp only [Reader.read, hfull, hterms, Bool.false_eq_true, if_false, reduceCtorEq, or_self, Result.ok_bind,
    combine_equalities hne]
  rfl

/-- `50~*~~~;;~|a;~~~~` for the texts `50*~;`, `|a` and `~~`. -/
theorem exists_render_equalsAny_mixture :
    let s : SearchSettings := { orDelimiters := ";|", escape := some '~' }
    let p : PropertyRef := { table := ⟨0, 0⟩, name := "name" }
    let values := ["50*~;", "|a", "~~"]
    (Escapes s '~' ∧ s.orDelimiters ≠ "" ∧ values ≠ [] ∧ ∀ value ∈ values, value ≠ "" ∧ Trimmed value.toList) ∧
      ∃ shown, render s (equalsAny p values) = .ok shown ∧
        Reader.read { settings := s, dataType := .string } p shown = .ok (some (equalsAny p values)) := by
  intro s p values
  have hs : Escapes s '~' := by refine ⟨rfl, ?_, ?_, ?_, ?_⟩ <;> decide
  have hvalues : ∀ value ∈ values, value ≠ "" ∧ Trimmed value.toList := by
    simp only [values, List.forall_mem_cons, List.not_mem_nil, false_imp_iff, implies_true, Trimmed]
    decide
  exact ⟨⟨hs, by decide, by decide, hvalues⟩, exists_render_equalsAny hs (by decide) p (by decide) hvalues⟩

end ItemQuery.Search
