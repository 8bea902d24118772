import ItemQuery.Proofs.Pattern.Translation
import ItemQuery.Proofs.Text.Cutting
import ItemQuery.Search.Writer

/-! Alternatives in search boxes. A written text is cut where it was joined: a delimiter inside of an alternative
    stands behind an escape, which the cut takes away again, and the other escapes stay for the wildcards. -/

namespace ItemQuery.Search

variable {s : SearchSettings} {cs ds shown : List Char} {mark escape : Char}

/-! ### Cutting -/

/-- The cut by the delimiters and the escape of the settings. -/
abbrev cut (s : SearchSettings) (cs : List Char) : List (List Char) :=
  cutPieces s.orDelimiters.toList s.escape cs

/-- A character that separates alternatives wherever it stands without an escape. -/
def Separates (s : SearchSettings) (mark : Char) : Prop :=
  mark ∈ s.orDelimiters.toList ∧ s.escape ≠ some mark

/-- A character without a meaning in the cut. -/
def Plain (s : SearchSettings) (c : Char) : Prop :=
  c ∉ s.orDelimiters.toList ∧ s.escape ≠ some c

theorem separates_bar : Separates {} '|' := by
  simp [Separates]

/-- A text that is cut into one piece. -/
inductive Bound (s : SearchSettings) : List Char → List Char → Prop
  | nil : Bound s [] []
  | plain {c : Char} {cs ds : List Char} (h : Plain s c) (hrest : Bound s cs ds) : Bound s (c :: cs) (c :: ds)
  | delimiter {escape mark : Char} {cs ds : List Char} (hescape : s.escape = some escape)
    (hmark : mark ∈ s.orDelimiters.toList) (hrest : Bound s cs ds) : Bound s (escape :: mark :: cs) (mark :: ds)
  | escaped {escape c : Char} {cs ds : List Char} (hescape : s.escape = some escape) (h : c ∉ s.orDelimiters.toList)
    (hrest : Bound s cs ds) : Bound s (escape :: c :: cs) (escape :: c :: ds)

/-- A text that is cut into these pieces, also in front of a delimiter. -/
structure Cuts (s : SearchSettings) (shown : List Char) (pieces : List (List Char)) : Prop where
  alone : cut s shown = pieces
  before : ∀ {mark}, Separates s mark → ∀ rest, cut s (shown ++ mark :: rest) = pieces ++ cut s rest

theorem cut_mark (h : Separates s mark) (cs : List Char) : cut s (mark :: cs) = [] :: cut s cs := by
  cases cs with
  | nil => simp [cut, cutPieces, h.1, h.2]
  | cons c cs => simp [cut, cutPieces, h.1, h.2]

theorem cut_plain {c : Char} (h : Plain s c) {piece : List Char} {pieces : List (List Char)}
    (hrest : cut s cs = piece :: pieces) : cut s (c :: cs) = (c :: piece) :: pieces := by
  cases cs with
  | nil =>
    cases hrest
    simp [cut, cutPieces, h.1, h.2]
  | cons d cs =>
    simp only [cut] at hrest ⊢
    simp [cutPieces, h.1, h.2, hrest]

theorem cut_delimiter (hescape : s.escape = some escape) (hmark : mark ∈ s.orDelimiters.toList) {piece : List Char}
    {pieces : List (List Char)} (hrest : cut s cs = piece :: pieces) :
    cut s (escape :: mark :: cs) = (mark :: piece) :: pieces := by
  simp only [cut] at hrest ⊢
  simp [cutPieces, hescape, hmark] at hrest ⊢
  simp [hrest]

theorem cut_escaped (hescape : s.escape = some escape) {c : Char} (h : c ∉ s.orDelimiters.toList) {piece : List Char}
    {pieces : List (List Char)} (hrest : cut s cs = piece :: pieces) :
    cut s (escape :: c :: cs) = (escape :: c :: piece) :: pieces := by
  simp only [cut] at hrest ⊢
  simp [cutPieces, hescape, h] at hrest ⊢
  simp [hrest]

theorem Bound.cuts (h : Bound s shown ds) : Cuts s shown [ds] := by
  have hall : ∀ {rest pieces}, cut s rest = [] :: pieces → cut s (shown ++ rest) = ds :: pieces := by
    intro rest pieces hrest
    induction h with
    | nil => exact hrest
    | plain hc _ ih => exact cut_plain hc ih
    | delimiter hescape hmark _ ih => exact cut_delimiter hescape hmark ih
    | escaped hescape hc _ ih => exact cut_escaped hescape hc ih
  refine ⟨?_, fun hmark rest => hall (cut_mark hmark rest)⟩
  have halone : cut s (shown ++ []) = [ds] := hall rfl
  rwa [List.append_nil] at halone

theorem Cuts.joined (hmark : Separates s mark) {ps qs : List (List Char)} (h : Cuts s cs ps) (h' : Cuts s ds qs) :
    Cuts s (cs ++ mark :: ds) (ps ++ qs) where
  alone := by rw [h.before hmark, h'.alone]
  before hnext rest := by rw [List.append_assoc, List.cons_append, h.before hmark, h'.before hnext, List.append_assoc]

/-- Texts that are joined by a delimiter are cut one by one. -/
theorem cuts_intercalate (hmark : Separates s mark) {showns : List String} {pieces : List (List Char)}
    (h : List.Forall₂ (fun shown piece => Cuts s shown.toList [piece]) showns pieces) (hne : showns ≠ []) :
    Cuts s ((String.singleton mark).intercalate showns).toList pieces := by
  induction h with
  | nil => exact absurd rfl hne
  | @cons shown piece showns pieces hfirst hrest ih =>
    cases hrest with
    | nil => rwa [String.intercalate_singleton]
    | @cons next piece' showns pieces hnext hmore =>
      have htext : ((String.singleton mark).intercalate (shown :: next :: showns)).toList =
          shown.toList ++ mark :: ((String.singleton mark).intercalate (next :: showns)).toList := by
        simp [String.intercalate_cons_cons]
      rw [htext]
      exact hfirst.joined hmark (ih nofun)

theorem bound_of_forall (h : ∀ c ∈ cs, Plain s c) : Bound s cs cs := by
  induction cs with
  | nil => exact .nil
  | cons c cs ih =>
    rw [List.forall_mem_cons] at h
    exact .plain h.1 (ih h.2)

/-! ### Alternatives -/

theorem alternatives_of_cuts {value : String} {pieces : List (List Char)} (h : Cuts s value.toList pieces)
    (hne : ∀ piece ∈ pieces, Text.trimWhile Text.isBlank piece ≠ []) :
    alternatives s value = pieces.map fun piece => String.ofList (Text.trimWhile Text.isBlank piece) := by
  have hcut : cutPieces s.orDelimiters.toList s.escape value.toList = pieces := h.alone
  show (((cutPieces s.orDelimiters.toList s.escape value.toList).map _).filter _) = _
  rw [hcut, List.filter_eq_self]
  intro shown hmem
  obtain ⟨piece, hpiece, rfl⟩ := List.mem_map.mp hmem
  simpa [String.isEmpty_iff, ← String.toList_inj] using hne piece hpiece

theorem alternatives_of_trimmed {value : String} {pieces : List (List Char)} (h : Cuts s value.toList pieces)
    (htrim : ∀ piece ∈ pieces, piece ≠ [] ∧ Text.trimWhile Text.isBlank piece = piece) :
    alternatives s value = pieces.map String.ofList := by
  rw [alternatives_of_cuts h fun piece hmem => (htrim piece hmem).2.symm ▸ (htrim piece hmem).1]
  exact List.map_congr_left fun piece hmem => congrArg String.ofList (htrim piece hmem).2

/-! ### Joined criteria -/

/-- Criteria are joined to a list of values, if there are several, or to a chain. -/
theorem of_combine {es : List Expr} {e : Expr} (h : combine es = some e) :
    1 < es.length ∧ (valueList? .eq false es = some e ∨ valueList? .ne true es = some e) ∨ Expr.anyOf es = some e := by
  unfold combine at h
  rw [Option.orElse_eq_or, Option.or_eq_some_iff] at h
  obtain hlisted | ⟨-, hjoin⟩ := h
  · split at hlisted
    next hmany =>
      rw [Option.orElse_eq_or, Option.or_eq_some_iff] at hlisted
      exact .inl ⟨hmany, hlisted.imp_right And.right⟩
    next => cases hlisted
  · exact .inr hjoin

theorem exists_combine {es : List Expr} (hne : es ≠ []) : ∃ e, combine es = some e := by
  obtain ⟨first, rest, rfl⟩ := List.exists_cons_of_ne_nil hne
  have hjoin : Expr.anyOf (first :: rest) = some (rest.foldl (.logical .or) first) := rfl
  unfold combine
  rw [hjoin, Option.orElse_eq_or, Option.or_some]
  exact ⟨_, rfl⟩

end ItemQuery.Search
