import ItemQuery.Proofs.Expr.Grouping
import ItemQuery.Proofs.Expr.Truth
import ItemQuery.Proofs.Normalize.Rules
import ItemQuery.Proofs.Search.Values

/-! Criteria in search boxes. The alternatives of a criterion are written one after another, and each is read as tests of
    the property with the same truth; what is joined from the tests has the truth of the criterion. -/

namespace ItemQuery.Search

open ItemQuery.Expr Pattern

variable {p : PropertyRef} {type : DataType} {x : Expr}

/-! ### What can be said -/

/-- The values in a test are values of the data type; a pattern is tested in texts, and what is written for it has no
    white space at its ends. -/
structure Typed (type : DataType) (x : Expr) : Prop where
  values : ∀ e ∈ x.children, e.isLiteral = true → IsValue type e
  patterns : ∀ l q negated, x = .like l (.pattern q) negated →
    type = .string ∧ ∀ shown, toWildcard (wildcards {}) q = .ok shown → Solid shown.toList

/-- A test that is read as it was written. A box shows neither what is done with the property in a list, a range, a
    pattern or a test for null, nor an empty list, and the operators of texts are read as part of the text. -/
def Faithful (type : DataType) : Expr → Prop
  | .comparison op _ _ => type = .string → op = .eq
  | .between l _ _ _ _ => l.property?.isSome = true ∧ type ≠ .string
  | .inList l items negated _ => l.property?.isSome = true ∧ (items = [] → negated = true)
  | .like l q _ => l.property?.isSome = true ∧ ∀ pattern, q = .pattern pattern → pattern.Sound
  | .is l _ => l.property?.isSome = true
  | _ => True

/-- A test for another value. -/
def isInequality : Expr → Bool
  | .comparison .ne _ _ => true
  | _ => false

/-- A criterion whose alternatives are read as they were written. Alternatives that are all inequalities would be read
    as a list of excluded values. -/
structure Readable (type : DataType) (e : Expr) : Prop where
  faithful : ∀ x ∈ e.flatten .or, Faithful type x
  mixed : 1 < (e.flatten .or).length → ∃ x ∈ e.flatten .or, isInequality x = false

theorem mem_properties_of_mem_flatten {op : LogicalOp} {e : Expr} (hx : x ∈ e.flatten op) (hp : p ∈ x.properties) :
    p ∈ e.properties := by
  fun_induction flatten op e with
  | case1 l r ihl ihr =>
    rw [List.mem_append] at hx
    exact List.mem_append.mpr (hx.imp ihl ihr)
  | case2 inner l r => rwa [List.mem_singleton.mp hx] at hp
  | case3 e => rwa [List.mem_singleton.mp hx] at hp

theorem eq_property_of_isSome {l : Expr} (hp : ∀ r ∈ x.properties, r = p) (hl : l.property?.isSome = true)
    (hmem : ∀ r ∈ l.properties, r ∈ x.properties) : l = .property p := by
  cases l with
  | property r => rw [hp r (hmem r (List.mem_singleton_self r))]
  | _ => cases hl

/-! ### Texts that are read -/

/-- A text that is cut into pieces; where they can be read, the criteria that are read satisfy `Q`. -/
def Conveys (read : String → Result Expr) (shown : List Char) (Q : List Expr → Prop) : Prop :=
  ∃ pieces, Cuts {} shown pieces ∧ pieces ≠ [] ∧ (∀ piece ∈ pieces, Solid piece) ∧
    ∀ es, pieces.mapM (fun piece => read (String.ofList piece)) = .ok es → Q es

section
variable {read : String → Result Expr} {shown cs ds : List Char} {Q R : List Expr → Prop}

theorem Conveys.mono (h : Conveys read shown Q) (hQ : ∀ es, Q es → R es) : Conveys read shown R := by
  obtain ⟨pieces, hcuts, hne, hsolid, hrun⟩ := h
  exact ⟨pieces, hcuts, hne, hsolid, fun es hes => hQ es (hrun es hes)⟩

theorem Conveys.of_piece {piece : List Char} (hcuts : Cuts {} shown [piece]) (hsolid : Solid piece)
    (h : ∀ e, read (String.ofList piece) = .ok e → Q [e]) :
    Conveys read shown Q := by
  refine ⟨[piece], hcuts, nofun, List.forall_mem_singleton.mpr hsolid, fun es hes => ?_⟩
  obtain ⟨e, rest, he, hrest, rfl⟩ := List.forall₂_cons_left_iff.mp (Result.mapM_eq_ok_iff.mp hes)
  cases hrest
  exact h e he

theorem Conveys.bar (h : Conveys read cs Q) (h' : Conveys read ds R) :
    Conveys read (cs ++ '|' :: ds) fun es => ∃ fs gs, es = fs ++ gs ∧ Q fs ∧ R gs := by
  obtain ⟨ps, hcuts, hne, hsolid, hrun⟩ := h
  obtain ⟨qs, hcuts', -, hsolid', hrun'⟩ := h'
  refine ⟨ps ++ qs, hcuts.joined separates_bar hcuts', by simp [hne], List.forall_mem_append.mpr ⟨hsolid, hsolid'⟩,
    fun es hes => ?_⟩
  rw [List.mapM_append] at hes
  obtain ⟨fs, hfs, hes⟩ := Result.bind_eq_ok.mp hes
  obtain ⟨gs, hgs, hes⟩ := Result.bind_eq_ok.mp hes
  exact ⟨fs, gs, (Result.pure_eq_ok.mp hes).symm, hrun fs hfs, hrun' gs hgs⟩

/-- Texts that are joined by the delimiter are read one after another. -/
theorem conveys_intercalate {xs : List Expr} {showns : List String} {R : Expr → List Expr → Prop}
    (h : List.Forall₂ (fun x shown => Conveys read shown.toList (R x)) xs showns) (hne : xs ≠ []) :
    Conveys read ("|".intercalate showns).toList fun es => ∃ ess, List.Forall₂ R xs ess ∧ es = ess.flatten := by
  induction h with
  | nil => exact absurd rfl hne
  | @cons x shown xs showns hfirst hrest ih =>
    cases hrest with
    | nil =>
      rw [String.intercalate_singleton]
      exact hfirst.mono fun es hes => ⟨[es], .cons hes .nil, by simp⟩
    | @cons y next xs showns hnext hmore =>
      have hbar := hfirst.bar (ih nofun)
      have htext : ("|".intercalate (shown :: next :: showns)).toList =
          shown.toList ++ '|' :: ("|".intercalate (next :: showns)).toList := by
        simp [String.intercalate_cons_cons]
      rw [htext]
      refine hbar.mono ?_
      rintro es ⟨fs, gs, rfl, hfs, ess, hess, rfl⟩
      exact ⟨fs :: ess, .cons hfs hess, rfl⟩

/-- Values that are read each as one criterion. -/
theorem conveys_values {items : List Expr} {showns : List String} (f : Expr → Expr)
    (h : List.Forall₂ (fun item shown => Conveys read shown.toList (· = [f item])) items showns) (hne : items ≠ []) :
    Conveys read ("|".intercalate showns).toList (· = items.map f) := by
  refine (conveys_intercalate h hne).mono ?_
  rintro es ⟨ess, hess, rfl⟩
  clear h hne
  induction hess with
  | nil => rfl
  | cons hfirst hrest ih => rw [List.flatten_cons, hfirst, ih, List.map_cons, List.singleton_append]

end

/-! ### Tests -/

/-- The test that is read for an alternative if no condition is chosen. -/
abbrev test (type : DataType) (p : PropertyRef) : String → Result Expr :=
  (reader type none).alternative (.property p)

/-- Tests of the property, one of which holds where the criterion holds. An inequality is not split. -/
structure Restates (p : PropertyRef) (x : Expr) (es : List Expr) : Prop where
  ne_nil : es ≠ []
  truth : ∀ I v, Truth.any (es.map (Expr.truth I v)) = x.truth I v
  subject : ∀ e ∈ es, ∀ left, comparedSubject? e = some left → left = .property p
  single : isInequality x = true → es.length = 1
  others : isInequality x = false → ∀ e ∈ es, isInequality e = false

theorem restates_comparison {op : ComparisonOp} {value : Expr}
    (htruth : ∀ I v, (comparison op (.property p) value).truth I v = x.truth I v)
    (hx : isInequality x = isInequality (.comparison op (.property p) value)) :
    Restates p x [.comparison op (.property p) value] where
  ne_nil := nofun
  truth I v := by simp [htruth I v]
  subject e he left hleft := by
    rw [List.mem_singleton.mp he] at hleft
    exact (Option.some.inj hleft).symm
  single _ := rfl
  others h := List.forall_mem_singleton.mpr (hx ▸ h)

/-- A test that is no comparison. -/
theorem restates_of_isTest {e : Expr} (htruth : ∀ I v, e.truth I v = x.truth I v)
    (hsubject : comparedSubject? e = none) (hother : isInequality e = false) (hx : isInequality x = false) :
    Restates p x [e] where
  ne_nil := nofun
  truth I v := by simp [htruth I v]
  subject e' he left hleft := by
    rw [List.mem_singleton.mp he, hsubject] at hleft
    cases hleft
  single h := absurd h (by simp [hx])
  others _ := List.forall_mem_singleton.mpr hother

theorem isLiteral_of_valueText {s : SearchSettings} {e : Expr} {shown : String} (h : valueText s e = .ok shown) :
    e.isLiteral = true := by
  unfold valueText at h
  split at h <;> first | rfl | cases h

theorem isLiteral_of_comparisonText {s : SearchSettings} {op : ComparisonOp} {e : Expr} {shown : String}
    (h : comparisonText s op e = .ok shown) : e.isLiteral = true := by
  cases e with
  | literal => rfl
  | object => rfl
  | _ =>
    obtain ⟨text, htext, -⟩ := Result.bind_eq_ok.mp h
    exact isLiteral_of_valueText htext

theorem conveys_comparisonText {op : ComparisonOp} {value : Expr} {shown : String} (hvalue : IsValue type value)
    (hop : type = .string → op = .eq) (h : comparisonText {} op value = .ok shown) :
    Conveys (test type p) shown.toList (· = [.comparison op (.property p) value]) := by
  obtain ⟨piece, hcuts, hsolid, hread⟩ := exists_of_comparisonText hvalue hop h
  exact .of_piece hcuts hsolid fun e he => by rw [hread e he]

theorem comparisonText_eq {value : Expr} (hvalue : IsValue type value) :
    comparisonText {} .eq value = valueText {} value := by
  rw [comparisonText_of_isValue hvalue]
  cases valueText {} value <;> rfl

theorem exists_of_listText (l : Expr) {items : List Expr} (table : Option TableId) {shown : String}
    (h : termText {} (.inList l items false table) = .ok shown) :
    ∃ showns, items.mapM (valueText {}) = .ok showns ∧ shown = "|".intercalate showns := by
  obtain ⟨mark, hmark, h⟩ := Result.bind_eq_ok.mp h
  obtain ⟨showns, hshowns, h⟩ := Result.bind_eq_ok.mp h
  obtain rfl : "|" = mark := Except.ok.inj hmark
  exact ⟨showns, hshowns, (Except.ok.inj h).symm⟩

/-- A list of values is read value by value. -/
theorem conveys_inList {l : Expr} {items : List Expr} {table : Option TableId} {showns : List String}
    (hl : l = .property p) (hne : items ≠ []) (hitems : ∀ e ∈ items, e.isLiteral = true → IsValue type e)
    (h : items.mapM (valueText {}) = .ok showns) :
    Conveys (test type p) ("|".intercalate showns).toList (Restates p (.inList l items false table)) := by
  have hshowns := Result.mapM_eq_ok_iff.mp h
  have heach : List.Forall₂ (fun item shown =>
      Conveys (test type p) shown.toList (· = [.comparison .eq (.property p) item])) items showns := by
    refine List.forall₂_iff_get.mpr ⟨hshowns.length_eq, fun i hi hi' => ?_⟩
    have htext := hshowns.get hi hi'
    have hvalue := hitems _ (List.get_mem items ⟨i, hi⟩) (isLiteral_of_valueText htext)
    exact conveys_comparisonText hvalue (fun _ => rfl) (comparisonText_eq hvalue ▸ htext)
  refine (conveys_values _ heach hne).mono ?_
  rintro es rfl
  exact {
    ne_nil := by simpa using hne
    truth := fun I v => by rw [truth_inList, isIn_eval, hl, List.map_map]; rfl
    subject := by
      intro e he left hleft
      obtain ⟨item, -, rfl⟩ := List.mem_map.mp he
      exact (Option.some.inj hleft).symm
    single := nofun
    others := by
      intro _ e he
      obtain ⟨item, -, rfl⟩ := List.mem_map.mp he
      rfl }

/-- What is read for a pattern: the pattern, or the text that it alone is found in. -/
theorem restates_like {l : Expr} {q q' : Pattern} {shown : String} (hl : l = .property p)
    (hread : ofWildcard (wildcards {}) shown = .ok q') (hfinds : ∀ s, q'.Finds s ↔ q.Finds s) {e : Expr}
    (h : test .string p shown = .ok e) :
    Restates p (.like l (.pattern q) false) [e] := by
  have hmatch : ∀ (I : Interpretation) v, (like l (.pattern q) false).truth I v =
      I.matching (v.property p) (.pattern q) := fun I v => by
    rw [truth_like, hl]
    rfl
  have hsame : ∀ (I : Interpretation) a, I.matching a (.pattern q') = I.matching a (.pattern q) := by
    intro I a
    cases a <;> simp [Interpretation.matching, hfinds]
  simp only [test, Reader.alternative, DataType.isNumeric, Reader.textual, Reader.allowsWildcards, Reader.defaultOp,
    hread, Result.ok_bind] at h
  cases hliteral : q'.literal? with
  | some text =>
    obtain rfl : e = .comparison .eq (.property p) (.text text) := by
      simpa [hliteral, pure, Except.pure, bind, Except.bind, eq_comm] using h
    refine restates_comparison (fun I v => ?_) rfl
    rw [hmatch, ← hsame, truth_comparison]
    have hfound := finds_of_ofWildcard hread hliteral
    rw [Expr.eval]
    cases v.property p with
    | text s =>
      have hiff : q'.Finds s.toList ↔ s = text := (hfound s.toList).trans String.toList_inj
      exact (Value.compare_text s text false).trans (by simp [Truth.negated, Interpretation.matching, hiff])
    | _ => rfl
  | none =>
    obtain rfl : e = .like (.property p) (.pattern q') false := by
      simpa [hliteral, eq_comm] using h
    refine restates_of_isTest (fun I v => ?_) rfl rfl rfl
    rw [hmatch, ← hsame]
    exact truth_like ..

/-- What is written for a test is read as tests that restate it. -/
theorem conveys_termText {shown : String} (htyped : Typed type x) (hfaithful : Faithful type x)
    (hp : ∀ r ∈ x.properties, r = p) (h : termText {} x = .ok shown) :
    Conveys (test type p) shown.toList (Restates p x) := by
  unfold termText at h
  split at h
  next op l r =>
    split at h
    next hl hr =>
      -- The property stands at the left.
      have hliteral := htyped.values r (by simp [children]) (isLiteral_of_comparisonText h)
      obtain rfl := eq_property_of_isSome (l := l) hp (by simp [hl]) fun r hr => List.mem_append_left _ hr
      refine (conveys_comparisonText hliteral hfaithful h).mono ?_
      rintro es rfl
      exact restates_comparison (fun I v => rfl) (by cases op <;> rfl)
    next hl hr =>
      have hliteral := htyped.values l (by simp [children]) (isLiteral_of_comparisonText h)
      obtain rfl := eq_property_of_isSome (l := r) hp (by simp [hr]) fun r hr => List.mem_append_right _ hr
      have hop : type = .string → op.flip = .eq := fun htype => by rw [hfaithful htype]; rfl
      refine (conveys_comparisonText hliteral hop h).mono ?_
      rintro es rfl
      refine restates_comparison (fun I v => ?_) (by cases op <;> rfl)
      exact congrArg (fun t => (Value.ofTruth t).truth) (Value.compare_flip op _ _)
    next => cases h
  next l low high negated table =>
    split at h
    next date hday =>
      -- Times are no values here.
      unfold wholeDay? at hday
      split at hday
      next first last =>
        have htime := htyped.values (.literal (.dateTime first)) (by simp [children]) rfl
        cases type <;> exact htime.elim
      next => cases hday
    next =>
      cases negated with
      | true => cases h
      | false =>
        obtain ⟨-, -, h⟩ := Result.bind_eq_ok.mp h
        obtain ⟨lowText, hlow, h⟩ := Result.bind_eq_ok.mp h
        obtain ⟨highText, hhigh, h⟩ := Result.bind_eq_ok.mp h
        cases h
        obtain rfl := eq_property_of_isSome hp hfaithful.1 fun r hr => by simp [properties, hr]
        obtain ⟨piece, hcuts, hsolid, hread⟩ := exists_of_rangeText
          (htyped.values low (by simp [children]) (isLiteral_of_valueText hlow))
          (htyped.values high (by simp [children]) (isLiteral_of_valueText hhigh)) hfaithful.2 hlow hhigh
        refine .of_piece hcuts hsolid fun e he => ?_
        rw [hread e he]
        exact restates_of_isTest (fun I v => rfl) rfl rfl rfl
  next l items table =>
    obtain ⟨showns, hshowns, rfl⟩ := exists_of_listText l table h
    have hl := eq_property_of_isSome hp hfaithful.1 fun r hr => by simp [properties, hr]
    exact conveys_inList hl (fun hnil => by cases hfaithful.2 hnil)
      (fun e he => htyped.values e (List.mem_cons_of_mem _ he)) hshowns
  next l q =>
    obtain ⟨value, hvalue, h⟩ := Result.bind_eq_ok.mp h
    cases h
    have hl := eq_property_of_isSome hp hfaithful.1 fun r hr => by simp [properties, hr]
    obtain ⟨rfl, hsolid⟩ := htyped.patterns l q false rfl
    obtain ⟨hcuts, q', hread, hfinds⟩ := exists_ofWildcard_search (hfaithful.2 q rfl) hvalue
    refine .of_piece hcuts (hsolid value hvalue) fun e he => ?_
    rw [String.ofList_toList] at he
    exact restates_like hl hread hfinds he
  next => cases h

/-! ### Chains -/

theorem alternativeTexts_eq (s : SearchSettings) (e : Expr) :
    alternativeTexts s e = (e.flatten .or).mapM (termText s) := by
  fun_induction alternativeTexts s e with
  | case1 l r ihl ihr =>
    rw [flatten, if_pos rfl, List.mapM_append, ihl, ihr]
  | case2 e h =>
    have hflatten : e.flatten .or = [e] := flatten_of_ne fun l r heq => h l r heq
    rw [hflatten, List.mapM_cons, List.mapM_nil]
    cases termText s e <;> rfl

theorem render_eq (e : Expr) :
    render {} e = ((e.flatten .or).mapM (termText {})).map ("|".intercalate ·) := by
  rw [← alternativeTexts_eq]
  unfold render
  split
  next l r =>
    have hmark : delimiter {} = .ok "|" := rfl
    rw [hmark, Result.ok_bind]
    cases alternativeTexts {} (.logical .or l r) <;> rfl
  next h =>
    have htexts : alternativeTexts {} e = (termText {} e).map fun shown => [shown] := by
      unfold alternativeTexts
      split
      next l r => exact absurd rfl (h l r)
      next => rfl
    rw [htexts]
    cases termText {} e with
    | error => rfl
    | ok shown => exact congrArg Except.ok String.intercalate_singleton.symm

/-- What is written for a criterion is read as tests of its alternatives. -/
theorem conveys_render {e : Expr} {shown : String} (htyped : ∀ x ∈ e.flatten .or, Typed type x)
    (h : Readable type e) (hp : ∀ r ∈ e.properties, r = p) (hrender : render {} e = .ok shown) :
    Conveys (test type p) shown.toList fun es =>
      ∃ ess, List.Forall₂ (Restates p) (e.flatten .or) ess ∧ es = ess.flatten := by
  rw [render_eq] at hrender
  obtain ⟨showns, hshowns, rfl⟩ := Result.map_eq_ok.mp hrender
  have heach := Result.mapM_eq_ok_iff.mp hshowns
  refine conveys_intercalate (List.forall₂_iff_get.mpr ⟨heach.length_eq, fun i hi hi' => ?_⟩) (flatten_ne_nil .or e)
  have hmem := List.get_mem (e.flatten .or) ⟨i, hi⟩
  exact conveys_termText (htyped _ hmem) (h.faithful _ hmem)
    (fun r hr => hp r (mem_properties_of_mem_flatten hmem hr)) (heach.get hi hi')

section
variable {xs : List Expr} {ess : List (List Expr)}

theorem truth_of_restates (h : List.Forall₂ (Restates p) xs ess) (I : Interpretation) (v : Valuation) :
    Truth.any (ess.flatten.map (Expr.truth I v)) = Truth.any (xs.map (Expr.truth I v)) := by
  induction h with
  | nil => rfl
  | cons hfirst hrest ih =>
    rw [List.flatten_cons, List.map_append, Truth.any_append, hfirst.truth, ih, List.map_cons, Truth.any_cons]

theorem flatten_ne_nil_of_restates (h : List.Forall₂ (Restates p) xs ess) (hne : xs ≠ []) : ess.flatten ≠ [] := by
  cases h with
  | nil => exact absurd rfl hne
  | cons hfirst hrest => exact fun hnil => hfirst.ne_nil (List.append_eq_nil_iff.mp hnil).1

theorem exists_of_mem_flatten {e : Expr} (h : List.Forall₂ (Restates p) xs ess) (he : e ∈ ess.flatten) :
    ∃ x es, Restates p x es ∧ e ∈ es := by
  induction h with
  | nil => cases he
  | cons hfirst hrest ih =>
    rw [List.flatten_cons, List.mem_append] at he
    exact he.elim (fun he => ⟨_, _, hfirst, he⟩) ih

theorem exists_of_isInequality_eq_false (h : List.Forall₂ (Restates p) xs ess) (hx : x ∈ xs)
    (hother : isInequality x = false) : ∃ e ∈ ess.flatten, isInequality e = false := by
  induction h with
  | nil => cases hx
  | @cons y es ys ess hfirst hrest ih =>
    rw [List.flatten_cons]
    rcases List.mem_cons.mp hx with rfl | hx
    · obtain ⟨e, he⟩ := List.exists_mem_of_ne_nil es hfirst.ne_nil
      exact ⟨e, List.mem_append_left _ he, hfirst.others hother e he⟩
    · obtain ⟨e, he, hother⟩ := ih hx
      exact ⟨e, List.mem_append_right _ he, hother⟩

/-- Of several tests one is no inequality if one of several alternatives is none. -/
theorem exists_other (h : List.Forall₂ (Restates p) xs ess)
    (hmixed : 1 < xs.length → ∃ x ∈ xs, isInequality x = false) (hmany : 1 < ess.flatten.length) :
    ∃ e ∈ ess.flatten, isInequality e = false := by
  cases h with
  | nil => cases hmany
  | @cons x es xs ess hfirst hrest =>
    cases hrest with
    | nil =>
      cases hx : isInequality x with
      | true => simp [hfirst.single hx] at hmany
      | false => exact exists_of_isInequality_eq_false (.cons hfirst .nil) List.mem_cons_self hx
    | cons hnext hmore =>
      obtain ⟨y, hy, hother⟩ := hmixed (by simp)
      exact exists_of_isInequality_eq_false (.cons hfirst (.cons hnext hmore)) hy hother

end

/-! ### Joined tests -/

theorem eq_of_comparedValue? {op : ComparisonOp} {e value : Expr} (h : comparedValue? op e = some value) :
    ∃ left, e = .comparison op left value := by
  unfold comparedValue? at h
  split at h
  next o left right =>
    split at h
    next hop =>
      cases h
      exact ⟨left, hop.1 ▸ rfl⟩
    next => cases h
  next => cases h

theorem eq_map_of_comparedValues {op : ComparisonOp} {es items : List Expr}
    (hsubject : ∀ e ∈ es, ∀ left, comparedSubject? e = some left → left = .property p)
    (h : es.mapM (comparedValue? op) = some items) : es = items.map (.comparison op (.property p) ·) := by
  induction es generalizing items with
  | nil =>
    cases h
    rfl
  | cons e es ih =>
    rw [List.forall_mem_cons] at hsubject
    rw [List.mapM_cons] at h
    obtain ⟨value, hvalue, h⟩ := Option.bind_eq_some_iff.mp h
    obtain ⟨rest, hrest, h⟩ := Option.bind_eq_some_iff.mp h
    cases h
    obtain ⟨left, rfl⟩ := eq_of_comparedValue? hvalue
    rw [ih hsubject.2 hrest, hsubject.1 left rfl, List.map_cons]

theorem exists_of_valueList? {op : ComparisonOp} {negated : Bool} {es : List Expr} {e : Expr}
    (hsubject : ∀ e ∈ es, ∀ left, comparedSubject? e = some left → left = .property p)
    (h : valueList? op negated es = some e) :
    ∃ items, es = items.map (.comparison op (.property p) ·) ∧ e = .inList (.property p) items negated none := by
  obtain ⟨items, hitems, h⟩ := Option.bind_eq_some_iff.mp h
  obtain ⟨left, hleft, rfl⟩ := Option.map_eq_some_iff.mp h
  obtain ⟨first, hfirst, hleft⟩ := Option.bind_eq_some_iff.mp hleft
  rw [hsubject first (List.mem_of_head? hfirst) left hleft]
  exact ⟨items, eq_map_of_comparedValues hsubject hitems, rfl⟩

/-- Tests of the property are joined to a criterion that holds where one of them holds, unless there are several and all
    are inequalities. -/
theorem filterTruth_combine {I : Interpretation} {v : Valuation} {es : List Expr} (hne : es ≠ [])
    (hsubject : ∀ e ∈ es, ∀ left, comparedSubject? e = some left → left = .property p)
    (hmixed : 1 < es.length → ∃ e ∈ es, isInequality e = false) :
    filterTruth I v (combine es) = Truth.any (es.map (Expr.truth I v)) := by
  obtain ⟨e, he⟩ := exists_combine hne
  rw [he]
  obtain ⟨hmany, hequal | hunequal⟩ | hjoin := of_combine he
  · obtain ⟨items, rfl, rfl⟩ := exists_of_valueList? hsubject hequal
    rw [List.map_map]
    exact (truth_inList ..).trans (isIn_eval (property p) items)
  · obtain ⟨items, rfl, -⟩ := exists_of_valueList? hsubject hunequal
    obtain ⟨e, he, hother⟩ := hmixed hmany
    obtain ⟨item, -, rfl⟩ := List.mem_map.mp he
    cases hother
  · exact truth_of_joinAll hjoin

end ItemQuery.Search
