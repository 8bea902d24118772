import ItemQuery.Proofs.Dictionary
import ItemQuery.Proofs.Query.Calls
import ItemQuery.Proofs.Search.Terms
import ItemQuery.Search.Criteria

/-! Search grids. A criterion that can be shown in a box is read from the box with the same truth. Applying a grid to the
    table that it was read from replaces each criterion that is shown by what is read for it, so that the filter keeps
    its truth if the boxes show all that is tested about their properties. -/

namespace ItemQuery.Search

open ItemQuery.Expr Pattern

variable {ctx : Context} {q : Query} {t : TableId} {I : Interpretation} {v : Valuation} {type : DataType}
  {p : PropertyRef} {e : Expr} {shown : String} {found : Option Expr}

/-! ### Boxes -/

theorem exists_of_alternatives {read : String → Result Expr} {Q : List Expr → Prop}
    (h : Conveys read shown.toList Q) :
    (alternatives {} shown).isEmpty = false ∧ ∀ es, (alternatives {} shown).mapM read = .ok es → Q es := by
  obtain ⟨pieces, hcuts, hne, hsolid, hrun⟩ := h
  rw [alternatives_of_trimmed hcuts hsolid, List.mapM_map]
  exact ⟨by simpa using hne, hrun⟩

theorem filterTruth_read (htyped : ∀ x ∈ e.flatten .or, Typed type x) (h : Readable type e)
    (hp : ∀ r ∈ e.properties, r = p) (hrender : render {} e = .ok shown)
    (hread : (reader type none).read p shown = .ok found) : filterTruth I v found = e.truth I v := by
  obtain ⟨hne, hrun⟩ := exists_of_alternatives (conveys_render htyped h hp hrender)
  simp only [Reader.read, hne, Bool.false_eq_true, if_false, reduceCtorEq, or_self] at hread
  obtain ⟨es, hes, hread⟩ := Result.bind_eq_ok.mp hread
  obtain ⟨ess, hess, rfl⟩ := hrun es hes
  cases hread
  have hsubject : ∀ x ∈ ess.flatten, ∀ left, comparedSubject? x = some left → left = .property p := by
    intro x hx
    obtain ⟨y, es, hrestates, hmem⟩ := exists_of_mem_flatten hess hx
    exact hrestates.subject x hmem
  rw [filterTruth_combine (flatten_ne_nil_of_restates hess (flatten_ne_nil .or e)) hsubject (exists_other hess h.mixed),
    truth_of_restates hess]
  exact truth_flatten .or e

/-- Excluded values are read as a list again; without a value nothing is excluded. -/
theorem filterTruth_read_notIn {l : Expr} {items : List Expr} {table : Option TableId} (hl : l = .property p)
    (hitems : ∀ item ∈ items, item.isLiteral = true → IsValue type item)
    (htext : termText {} (.inList l items false table) = .ok shown)
    (hread : (reader type (some .notIn)).read p shown = .ok found) :
    filterTruth I v found = (inList l items true table).truth I v := by
  obtain ⟨showns, hshowns, rfl⟩ := exists_of_listText l table htext
  by_cases hempty : items = []
  · subst hempty
    cases hshowns
    cases hread
    rfl
  · have heach := Result.mapM_eq_ok_iff.mp hshowns
    have hvalues : List.Forall₂ (fun item shown =>
        Conveys (reader type (some .notIn)).literal shown.toList (· = [id item])) items showns := by
      refine List.forall₂_iff_get.mpr ⟨heach.length_eq, fun i hi hi' => ?_⟩
      have hvalue := hitems _ (List.get_mem items ⟨i, hi⟩) (isLiteral_of_valueText (heach.get hi hi'))
      obtain ⟨piece, hcuts, hsolid, hliteral⟩ := exists_of_valueText hvalue (heach.get hi hi')
      refine .of_piece hcuts hsolid fun e he => ?_
      rw [hliteral] at he
      rw [← Except.ok.inj he, id]
    obtain ⟨hne, hrun⟩ := exists_of_alternatives (conveys_values id hvalues hempty)
    simp only [Reader.read, hne, Bool.false_eq_true, if_false, or_true, if_true] at hread
    obtain ⟨es, hes, hread⟩ := Result.bind_eq_ok.mp hread
    rw [hrun es hes, List.map_id] at hread
    cases hread
    rw [hl]
    rfl

theorem exists_of_patternText {l q : Expr} (h : termText {} (.like l q false) = .ok shown) :
    ∃ pattern, q = .pattern pattern := by
  cases q with
  | pattern pattern => exact ⟨pattern, rfl⟩
  | _ => cases h

/-- An excluded pattern is read as a pattern, also where it has no wildcards. -/
theorem filterTruth_read_notLike {l : Expr} {pattern : Pattern} (hl : l = .property p) (hpattern : pattern.Sound)
    (hsolid : ∀ shown, toWildcard (wildcards {}) pattern = .ok shown → Solid shown.toList)
    (htext : termText {} (.like l (.pattern pattern) false) = .ok shown)
    (hread : (reader .string (some .notLike)).read p shown = .ok found) :
    filterTruth I v found = (like l (.pattern pattern) true).truth I v := by
  obtain ⟨value, hvalue, htext⟩ := Result.bind_eq_ok.mp htext
  cases htext
  obtain ⟨hcuts, q', hq', hfinds⟩ := exists_ofWildcard_search hpattern hvalue
  have hconveys : Conveys ((reader .string (some .notLike)).alternative (.property p))
      (escapeDelimiters {} value).toList (· = [.like (.property p) (.pattern q') true]) := by
    refine .of_piece hcuts (hsolid value hvalue) fun e he => ?_
    rw [String.ofList_toList] at he
    simp only [Reader.alternative, DataType.isNumeric, Reader.textual, Reader.allowsWildcards, hq',
      Result.ok_bind] at he
    simpa [eq_comm] using he
  obtain ⟨hne, hrun⟩ := exists_of_alternatives hconveys
  simp only [Reader.read, hne, Bool.false_eq_true, if_false] at hread
  obtain ⟨es, hes, hread⟩ := Result.bind_eq_ok.mp hread
  rw [hrun es hes] at hread
  cases hread
  have hsame : ∀ a, I.matching a (.pattern q') = I.matching a (.pattern pattern) := by
    intro a
    cases a <;> simp [Interpretation.matching, hfinds]
  rw [hl]
  exact congrArg (fun t => (Value.ofTruth (.negated true t)).truth) (hsame (v.property p))

/-- What is read from the description of a criterion has its truth. -/
theorem filterTruth_of_describe {condition : Option Condition} (hdefined : ∀ a, I.defined a = !a.isNull)
    (htyped : ∀ x ∈ e.flatten .or, Typed type x) (h : Readable type e) (hp : ∀ r ∈ e.properties, r = p)
    (hdescribe : describe {} e = .ok (condition, shown)) (hread : (reader type condition).read p shown = .ok found) :
    filterTruth I v found = e.truth I v := by
  have hself : ∀ {x : Expr}, x.flatten .or = [x] → x ∈ x.flatten .or := fun hx => hx ▸ List.mem_singleton_self _
  unfold describe at hdescribe
  split at hdescribe
  next l operand =>
    have hl := eq_property_of_isSome hp (h.faithful _ (hself rfl)) fun r hr => hr
    have htest : ∀ a, I.test a operand = I.test a (if operand.wantsNull then .null else .notNull) := by
      intro a
      cases operand <;> simp [Interpretation.test, IsOperand.wantsNull, hdefined]
    have hfound : found = some (.is (.property p) (if operand.wantsNull then .null else .notNull)) := by
      cases hdescribe
      cases operand <;> cases hread <;> rfl
    rw [hfound, hl]
    exact congrArg some (htest (v.property p)).symm
  next l items table =>
    obtain ⟨text, htext, hpair⟩ := Result.map_eq_ok.mp hdescribe
    cases hpair
    have hl := eq_property_of_isSome hp (h.faithful _ (hself rfl)).1 fun r hr => by simp [properties, hr]
    have hitems := fun item hitem => (htyped _ (hself rfl)).values item (List.mem_cons_of_mem _ hitem)
    exact filterTruth_read_notIn hl hitems htext hread
  next l q =>
    obtain ⟨text, htext, hpair⟩ := Result.map_eq_ok.mp hdescribe
    cases hpair
    have hl := eq_property_of_isSome hp (h.faithful _ (hself rfl)).1 fun r hr => by simp [properties, hr]
    obtain ⟨pattern, rfl⟩ := exists_of_patternText htext
    obtain ⟨rfl, hsolid⟩ := (htyped _ (hself rfl)).patterns l pattern true rfl
    exact filterTruth_read_notLike hl ((h.faithful _ (hself rfl)).2 pattern rfl) hsolid htext hread
  next =>
    obtain ⟨text, htext, hpair⟩ := Result.map_eq_ok.mp hdescribe
    cases hpair
    exact filterTruth_read htyped h hp htext hread

/-! ### Grids -/

theorem eq_of_singleProperty? {name : String} (h : singleProperty? e t = some name) :
    ∀ r ∈ e.properties, r = ⟨t, name⟩ := by
  unfold singleProperty? at h
  split at h
  next => cases h
  next first rest heq =>
    split at h
    next hall =>
      cases h
      have hfirst : first = ⟨t, first.name⟩ := by rw [← hall.1]
      rw [heq, List.forall_mem_cons]
      refine ⟨hfirst, fun r hr => ?_⟩
      rw [beq_iff_eq.mp (List.all_eq_true.mp hall.2 r hr)]
      exact hfirst
    next => cases h

/-- The criteria of a filter. -/
def filterTerms (filter : Option Expr) : List Expr :=
  filter.elim [] (·.flatten .and)

theorem filterTruth_eq (filter : Option Expr) :
    filterTruth I v filter = Truth.all ((filterTerms filter).map (Expr.truth I v)) := by
  cases filter with
  | none => rfl
  | some e => exact (truth_flatten .and e).symm

namespace Criteria

variable {c : Criteria} {terms : List Expr} {item : QueryItem} {q' : Query}

/-- Each box of the grid shows one of the criteria. -/
structure Shows (s : SearchSettings) (t : TableId) (terms : List Expr) (c : Criteria) : Prop where
  ordered : c.values.Ordered
  box : ∀ name shown, c.values.get? name = some shown →
    ∃ e ∈ terms, singleProperty? e t = some name ∧ describe s e = .ok (c.conditions.get? name, shown)
  blank : ∀ name, c.values.get? name = none → c.conditions.get? name = none

theorem shows_empty (s : SearchSettings) (t : TableId) (terms : List Expr) : Shows s t terms {} where
  ordered := List.Pairwise.nil
  box := nofun
  blank _ _ := rfl

/-- A criterion is shown in a box that is still empty. -/
theorem Shows.add {s : SearchSettings} (h : Shows s t terms c) (he : e ∈ terms) : Shows s t terms (c.add s t e) := by
  unfold Criteria.add
  split
  next => exact h
  next name hname =>
    split
    next => exact h
    next hempty =>
      split
      next => exact h
      next condition shown hdescribe =>
        have hblank : c.conditions.get? name = none :=
          h.blank name (by simpa [Dictionary.contains] using hempty)
        have hconditions : ∀ other,
            (condition.elim c.conditions fun chosen => c.conditions.insert name chosen).get? other =
            if other = name then condition else c.conditions.get? other := by
          intro other
          cases condition with
          | none =>
            rw [Option.elim_none]
            split
            next heq => rw [heq, hblank]
            next => rfl
          | some chosen => exact Dictionary.get?_insert c.conditions name chosen other
        refine ⟨h.ordered.insert name shown, fun other found hfound => ?_, fun other hfound => ?_⟩
        · rw [hconditions]
          rw [Dictionary.get?_insert] at hfound
          split at hfound
          next heq =>
            cases hfound
            rw [if_pos heq, heq]
            exact ⟨e, he, hname, hdescribe⟩
          next hne =>
            rw [if_neg hne]
            exact h.box other found hfound
        · rw [hconditions]
          rw [Dictionary.get?_insert] at hfound
          split at hfound
          next => cases hfound
          next hne =>
            rw [if_neg hne]
            exact h.blank other hfound

theorem Shows.foldl {s : SearchSettings} {es : List Expr} (h : Shows s t terms c) (hes : ∀ e ∈ es, e ∈ terms) :
    Shows s t terms (es.foldl (Criteria.add s t) c) := by
  induction es generalizing c with
  | nil => exact h
  | cons e es ih =>
    rw [List.forall_mem_cons] at hes
    exact ih (h.add hes.1) hes.2

theorem shows_ofTable (hitem : q.get? t = some item) :
    Shows ctx.settings.search t (filterTerms item.filter) (ofTable ctx q t) := by
  unfold ofTable
  rw [hitem]
  cases hfilter : item.filter with
  | none => simpa [hfilter] using shows_empty _ t _
  | some filter => simpa [hfilter, filterTerms] using (shows_empty _ t (filter.flatten .and)).foldl fun e he => he

/-- What the grid does to the table that it was read from. -/
theorem exists_of_apply (hitem : q.get? t = some item)
    (h : c.apply ctx q t = .ok q') :
    ∃ found, c.values.entries.mapM (fun entry =>
        Search.parse ctx q ⟨t, entry.1⟩ (c.conditions.get? entry.1) entry.2) = .ok found ∧
      q'.get? t = some { item with filter := Expr.allOf ((filterTerms item.filter).filter (fun e =>
        !(singleProperty? e t).any (c.values.contains ·)) ++ found.filterMap id) } := by
  obtain ⟨parsed, hparsed, h⟩ := Result.bind_eq_ok.mp h
  obtain ⟨found, hfound, hparsed⟩ := Result.bind_eq_ok.mp hparsed
  rw [hitem] at h
  cases h
  cases hparsed
  refine ⟨found, hfound, ?_⟩
  rw [Query.get?_modify, if_pos rfl, hitem]
  rfl

theorem truth_found (found : List (Option Expr)) :
    Truth.all ((found.filterMap id).map (Expr.truth I v)) = Truth.all (found.map (filterTruth I v)) := by
  induction found with
  | nil => rfl
  | cons e found ih =>
    cases e with
    | none => simpa [filterTruth] using ih
    | some e => simpa [filterTruth] using congrArg _ ih

/-- A grid that is applied to the table that it was read from keeps the truth of the filter, if each box shows all that
    is tested about its property, in a form that is read as it was written. -/
theorem filterTruth_apply (hsearch : ctx.settings.search = {})
    (hitem : q.get? t = some item)
    (hschema : ∀ e ∈ filterTerms item.filter, ∀ name, singleProperty? e t = some name →
      ∃ type, ctx.dataType? q ⟨t, name⟩ = some type ∧ ∀ x ∈ e.flatten .or, Typed type x)
    (hreadable : ∀ e ∈ filterTerms item.filter, ∀ name, singleProperty? e t = some name →
      (ofTable ctx q t).values.contains name = true → ∀ type, ctx.dataType? q ⟨t, name⟩ = some type → Readable type e)
    (hsingle : ∀ e ∈ filterTerms item.filter, ∀ e' ∈ filterTerms item.filter, ∀ name,
      singleProperty? e t = some name → singleProperty? e' t = some name →
      (ofTable ctx q t).values.contains name = true → e = e')
    (hdefined : ∀ a, I.defined a = !a.isNull) (happly : (ofTable ctx q t).apply ctx q t = .ok q') :
    ∃ item', q'.get? t = some item' ∧ filterTruth I v item'.filter = filterTruth I v item.filter := by
  obtain ⟨found, hfound, hget⟩ := exists_of_apply hitem happly
  refine ⟨_, hget, ?_⟩
  have hshows : Shows {} t (filterTerms item.filter) (ofTable ctx q t) := hsearch ▸ shows_ofTable hitem
  -- What is read from a box has the truth of the one criterion about its property.
  have hbox : ∀ name shown, (name, shown) ∈ (ofTable ctx q t).values.entries →
      ∃ e ∈ filterTerms item.filter, singleProperty? e t = some name ∧
        ∀ found, Search.parse ctx q ⟨t, name⟩ ((ofTable ctx q t).conditions.get? name) shown = .ok found →
          filterTruth I v found = e.truth I v := by
    intro name shown hmem
    have hvalue := hshows.ordered.get?_eq_some_iff.mpr hmem
    obtain ⟨e, he, hname, hdescribe⟩ := hshows.box name shown hvalue
    obtain ⟨type, htype, htyped⟩ := hschema e he name hname
    have hcontains : (ofTable ctx q t).values.contains name = true := Dictionary.contains_iff.mpr ⟨shown, hvalue⟩
    refine ⟨e, he, hname, fun found hparse => ?_⟩
    rw [parse, htype, hsearch] at hparse
    exact filterTruth_of_describe hdefined htyped (hreadable e he name hname hcontains type htype)
      (eq_of_singleProperty? hname) hdescribe hparse
  rw [filterTruth_allOf, List.map_append, Truth.all_append, truth_found, ← Truth.all_append, filterTruth_eq]
  refine Truth.all_congr fun truth hne => ?_
  rw [List.mem_append]
  constructor
  · rintro (hkept | hread)
    · obtain ⟨e, he, rfl⟩ := List.mem_map.mp hkept
      exact List.mem_map_of_mem (List.mem_of_mem_filter he)
    · obtain ⟨e, he, rfl⟩ := List.mem_map.mp hread
      obtain ⟨⟨name, shown⟩, hentry, hparse⟩ := Result.exists_of_mem hfound he
      obtain ⟨e', he', -, htruth⟩ := hbox name shown hentry
      rw [htruth e hparse]
      exact List.mem_map_of_mem he'
  · intro hmem
    obtain ⟨e, he, rfl⟩ := List.mem_map.mp hmem
    by_cases hshown : ∃ name, singleProperty? e t = some name ∧ (ofTable ctx q t).values.contains name = true
    · obtain ⟨name, hname, hcontains⟩ := hshown
      obtain ⟨shown, hvalue⟩ := Dictionary.contains_iff.mp hcontains
      have hentry := hshows.ordered.get?_eq_some_iff.mp hvalue
      obtain ⟨e', he', hname', htruth⟩ := hbox name shown hentry
      obtain ⟨o, ho, hparse⟩ := Result.exists_mem_of_mapM hfound hentry
      rw [hsingle e he e' he' name hname hname' hcontains, ← htruth o hparse]
      exact .inr (List.mem_map_of_mem ho)
    · refine .inl (List.mem_map_of_mem (List.mem_filter.mpr ⟨he, ?_⟩))
      simp only [Bool.not_eq_true', Option.any_eq_false]
      exact fun name hname => Bool.eq_false_iff.mpr fun hcontains => hshown ⟨name, hname, hcontains⟩

/-- Parts with a quantity and a name. -/
def parts : Context :=
  { schema := { itemTypes := [{
      name := "Part"
      properties := [{ name := "quantity", dataType := .integer }, { name := "name", dataType := .string }] }] } }

/-- The parts that pass a filter. -/
def filtered (filter : Expr) : Query :=
  .ofItem { typeName := some "Part", filter := some filter }

/-- A comparison with the quantity. -/
def quantityTest (op : ComparisonOp) (n : Int64) : Expr :=
  .comparison op (.prop ⟨0, 0⟩ "quantity") (.int n)

theorem typed_quantityTest (op : ComparisonOp) (n : Int64) : Typed .integer (quantityTest op n) where
  values := by
    simp only [quantityTest, children, List.forall_mem_cons]
    exact ⟨by simp [prop, isLiteral], fun _ => trivial, List.forall_mem_nil _⟩
  patterns := by simp [quantityTest]

/-- A value is defined if it is there. -/
def plain : Interpretation where
  object _ := .null
  row _ _ := .null
  call _ _ := .null
  like _ _ := false
  defined a := !a.isNull

/-- Many of a part with a name. -/
def plenty : Expr :=
  .and (quantityTest .gt 5) (.is (.prop ⟨0, 0⟩ "name") .notNull)

theorem filterTruth_apply_plenty :
    ∃ q', (ofTable parts (filtered plenty) ⟨0, 0⟩).apply parts (filtered plenty) ⟨0, 0⟩ = .ok q' ∧
      ∀ v, ∃ item', q'.get? ⟨0, 0⟩ = some item' ∧ filterTruth plain v item'.filter = plenty.truth plain v := by
  have hsome : ((ofTable parts (filtered plenty) ⟨0, 0⟩).apply parts (filtered plenty) ⟨0, 0⟩).toOption.isSome = true := by
    decide +kernel
  obtain ⟨q', happly⟩ := Option.isSome_iff_exists.mp hsome
  rw [Result.toOption_eq_some] at happly
  have hitem : (filtered plenty).get? ⟨0, 0⟩ = some { typeName := some "Part", filter := some plenty } := rfl
  have hterms : filterTerms (some plenty) = [quantityTest .gt 5, .is (.prop ⟨0, 0⟩ "name") .notNull] := rfl
  have hnames : singleProperty? (quantityTest .gt 5) ⟨0, 0⟩ = some "quantity" ∧
      singleProperty? (.is (.prop ⟨0, 0⟩ "name") .notNull) ⟨0, 0⟩ = some "name" := ⟨rfl, rfl⟩
  have hquantity : parts.dataType? (filtered plenty) ⟨⟨0, 0⟩, "quantity"⟩ = some .integer := by decide +kernel
  have hname : parts.dataType? (filtered plenty) ⟨⟨0, 0⟩, "name"⟩ = some .string := by decide +kernel
  refine ⟨q', happly, fun v => filterTruth_apply rfl hitem ?_ ?_ ?_ (fun _ => rfl) happly⟩
  · simp only [hterms, List.forall_mem_cons, hnames, Option.some.injEq, forall_eq']
    have hnull : Typed .string (.is (.prop ⟨0, 0⟩ "name") .notNull) :=
      ⟨by simp [children, prop, isLiteral], by simp⟩
    exact ⟨⟨_, hquantity, List.forall_mem_singleton.mpr (typed_quantityTest _ _)⟩,
      ⟨_, hname, List.forall_mem_singleton.mpr hnull⟩, by simp⟩
  · simp only [hterms, List.forall_mem_cons, hnames, hquantity, hname, Option.some.injEq, forall_eq']
    exact ⟨fun _ => ⟨List.forall_mem_singleton.mpr (by rintro ⟨⟩), (absurd · (by decide))⟩,
      fun _ => ⟨List.forall_mem_singleton.mpr rfl, (absurd · (by decide))⟩, List.forall_mem_nil _⟩
  · simp [hterms, hnames]

/-- More than five of a part and fewer than ten. -/
def several : Expr :=
  .and (quantityTest .gt 5) (quantityTest .lt 10)

/-- Every property is twenty. -/
def twenty : Valuation where
  property _ := .integer 20
  parameter _ := none

/-- The first criterion about a property is shown, and all of them are replaced: twenty parts are not accepted before
    the grid is applied, and they are afterwards. -/
theorem filterTruth_apply_several :
    (∀ e ∈ several.flatten .and, singleProperty? e ⟨0, 0⟩ = some "quantity" ∧ Typed .integer e) ∧
      parts.dataType? (filtered several) ⟨⟨0, 0⟩, "quantity"⟩ = some .integer ∧
      ∃ q' item, (ofTable parts (filtered several) ⟨0, 0⟩).apply parts (filtered several) ⟨0, 0⟩ = .ok q' ∧
        q'.get? ⟨0, 0⟩ = some item ∧ filterTruth plain twenty item.filter = some true ∧
        several.truth plain twenty = some false := by
  have hcomputed : ((ofTable parts (filtered several) ⟨0, 0⟩).apply parts (filtered several) ⟨0, 0⟩).toOption.bind
      (fun q' => (q'.get? ⟨0, 0⟩).map fun item => filterTruth plain twenty item.filter) = some (some true) := by
    decide +kernel
  obtain ⟨q', happly, hitem⟩ := Option.bind_eq_some_iff.mp hcomputed
  obtain ⟨item, hitem, haccepted⟩ := Option.map_eq_some_iff.mp hitem
  have hname : ∀ op n, singleProperty? (quantityTest op n) ⟨0, 0⟩ = some "quantity" := fun op n => by
    simp [singleProperty?, quantityTest, properties, prop, int]
  have hterms : several.flatten .and = [quantityTest .gt 5, quantityTest .lt 10] := rfl
  refine ⟨?_, by decide +kernel, q', item, Result.toOption_eq_some.mp happly, hitem, haccepted, by decide +kernel⟩
  simp [hterms, hname, typed_quantityTest]

end Criteria
end ItemQuery.Search
