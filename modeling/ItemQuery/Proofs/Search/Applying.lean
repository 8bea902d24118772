import ItemQuery.Proofs.Query.Filters
import ItemQuery.Proofs.Search.Grid

/-! Applying a search grid. Every text is read before the filter is touched, so that a text that cannot be read changes
    nothing. What is read for a property tests this property alone and is no conjunction: a second application finds it
    again, term by term, and puts the same criteria in its place. -/

namespace ItemQuery.Search

open ItemQuery.Expr

variable {ctx : Context} {q q' : Query} {t : TableId} {p : PropertyRef} {r : Reader} {e : Expr} {value : String}

/-! ### What is tested -/

/-- The criterion tests this property and no other. -/
structure TestsOnly (p : PropertyRef) (e : Expr) : Prop where
  tests : e.properties ≠ []
  only : ∀ r ∈ e.properties, r = p

theorem singleProperty?_eq_some {name : String} : singleProperty? e t = some name ↔ TestsOnly ⟨t, name⟩ e := by
  constructor
  · intro h
    refine ⟨fun hnil => ?_, eq_of_singleProperty? h⟩
    rw [singleProperty?, hnil] at h
    cases h
  · intro h
    obtain ⟨first, rest, heq⟩ := List.exists_cons_of_ne_nil h.tests
    have honly := h.only
    rw [heq, List.forall_mem_cons] at honly
    obtain ⟨rfl, hrest⟩ := honly
    have hall : (rest.all fun r => r == ⟨t, name⟩) = true :=
      List.all_eq_true.mpr fun r hr => beq_iff_eq.mpr (hrest r hr)
    rw [singleProperty?, heq]
    exact if_pos ⟨rfl, hall⟩

/-- The properties that are tested by one of the criteria are tested by their disjunction. -/
theorem testsOnly_joinAll {op : LogicalOp} {es : List Expr} (hes : ∀ x ∈ es, TestsOnly p x)
    (h : joinAll op es = some e) : TestsOnly p e := by
  match es with
  | [] => cases h
  | first :: rest =>
    obtain rfl : rest.foldl (logical op) first = e := Option.some.inj h
    clear h
    induction rest using List.reverseRecOn with
    | nil => exact hes first List.mem_cons_self
    | append_singleton rest last ih =>
      have hrest := ih fun x hx => hes x (by rw [← List.cons_append]; exact List.mem_append_left _ hx)
      have hlast := hes last (by simp)
      rw [List.foldl_append, List.foldl_cons, List.foldl_nil]
      refine ⟨fun hnil => hlast.tests (List.append_eq_nil_iff.mp hnil).2, fun r hr => ?_⟩
      exact (List.mem_append.mp hr).elim (hrest.only r) (hlast.only r)

/-! ### What is read -/

/-- A test of the property against values. -/
inductive ValueTest (p : PropertyRef) : Expr → Prop
  | comparison (op : ComparisonOp) (a : Literal) : ValueTest p (.comparison op (.property p) (.literal a))
  | range (a b : Literal) (negated : Bool) :
    ValueTest p (.between (.property p) (.literal a) (.literal b) negated none)
  | like (pattern : Pattern) (negated : Bool) : ValueTest p (.like (.property p) (.pattern pattern) negated)

theorem ValueTest.testsOnly (h : ValueTest p e) : TestsOnly p e := by
  cases h <;> exact ⟨by simp [properties], by simp [properties]⟩

theorem ValueTest.flatten (h : ValueTest p e) (op : LogicalOp) : e.flatten op = [e] := by
  cases h <;> rfl

theorem ValueTest.comparedSubject (h : ValueTest p e) (left : Expr) (hleft : comparedSubject? e = some left) :
    left = .property p := by
  cases h with
  | comparison => exact (Option.some.inj hleft).symm
  | _ => cases hleft

theorem exists_of_literal (h : r.literal value = .ok e) : ∃ a, e = .literal a := by
  unfold Reader.literal at h
  split at h
  case h_1 =>
    obtain ⟨b, -, rfl⟩ := Result.map_eq_ok.mp h
    exact ⟨.bool b, rfl⟩
  case h_6 =>
    obtain ⟨pattern, -, h⟩ := Result.bind_eq_ok.mp h
    cases h
    exact ⟨_, rfl⟩
  all_goals
    dsimp only at h
    split at h
    next a _ => exact ⟨a, (Except.ok.inj h).symm⟩
    next => cases h

theorem exists_literal_of_bound {last : Bool} (h : r.bound value last = .ok e) : ∃ a, e = .literal a := by
  unfold Reader.bound at h
  split at h
  next =>
    split at h
    next => cases h
    next time => exact ⟨_, (Except.ok.inj h).symm⟩
  next => exact exists_of_literal h

theorem valueTest_dayCriterion (op : ComparisonOp) (a b : Literal) :
    ValueTest p (Reader.dayCriterion (.property p) op (.literal a) (.literal b)) := by
  cases op
  case eq => exact .range a b false
  case ne => exact .range a b true
  case gt => exact .comparison _ b
  case le => exact .comparison _ b
  case ge => exact .comparison _ a
  case lt => exact .comparison _ a

theorem valueTest_of_compared (h : r.compared (.property p) value = .ok e) : ValueTest p e := by
  have hby : ∀ {op shown}, (if r.dataType = .date && DateTime.isDateOnly shown then do
      let first ← r.bound shown false
      let last ← r.bound shown true
      return Reader.dayCriterion (.property p) op first last
      else return .comparison op (.property p) (← r.literal shown) : Result Expr) = .ok e → ValueTest p e := by
    intro op shown h
    split at h
    next =>
      obtain ⟨first, hfirst, h⟩ := Result.bind_eq_ok.mp h
      obtain ⟨last, hlast, h⟩ := Result.bind_eq_ok.mp h
      cases h
      obtain ⟨a, rfl⟩ := exists_literal_of_bound hfirst
      obtain ⟨b, rfl⟩ := exists_literal_of_bound hlast
      exact valueTest_dayCriterion op a b
    next =>
      obtain ⟨v, hv, h⟩ := Result.bind_eq_ok.mp h
      cases h
      obtain ⟨a, rfl⟩ := exists_of_literal hv
      exact .comparison op a
  unfold Reader.compared at h
  dsimp only at h
  split at h
  next => exact hby h
  next =>
    obtain ⟨op, -, h⟩ := Result.bind_eq_ok.mp h
    exact hby h

theorem valueTest_of_ordered (h : r.ordered (.property p) value = .ok e) : ValueTest p e := by
  unfold Reader.ordered at h
  dsimp only at h
  split at h
  next =>
    obtain ⟨first, hfirst, h⟩ := Result.bind_eq_ok.mp h
    obtain ⟨last, hlast, h⟩ := Result.bind_eq_ok.mp h
    cases h
    obtain ⟨a, rfl⟩ := exists_literal_of_bound hfirst
    obtain ⟨b, rfl⟩ := exists_literal_of_bound hlast
    exact .range a b false
  next =>
    split at h
    next => cases h
    next => exact valueTest_of_compared h

theorem valueTest_of_textual (h : r.textual (.property p) value = .ok e) : ValueTest p e := by
  unfold Reader.textual at h
  obtain ⟨pattern, -, h⟩ := Result.bind_eq_ok.mp h
  dsimp only at h
  split at h
  next =>
    split at h
    next => exact Except.ok.inj h ▸ .like pattern _
    next => cases h
  next =>
    split at h
    next literal _ =>
      obtain ⟨op, -, h⟩ := Result.bind_eq_ok.mp h
      cases h
      exact .comparison op (.string literal)
    next =>
      split at h
      next => exact Except.ok.inj h ▸ .like pattern _
      next => cases h

theorem valueTest_of_alternative (h : r.alternative (.property p) value = .ok e) : ValueTest p e := by
  unfold Reader.alternative at h
  split at h
  next =>
    obtain ⟨op, -, h⟩ := Result.bind_eq_ok.mp h
    obtain ⟨b, -, h⟩ := Result.bind_eq_ok.mp h
    cases h
    exact .comparison op (.bool b)
  next =>
    split at h
    next => exact valueTest_of_ordered h
    next => exact valueTest_of_textual h

theorem testsOnly_inList {items : List Expr} (hitems : ∀ x ∈ items, ∃ a, x = .literal a) (negated : Bool) :
    TestsOnly p (.inList (.property p) items negated none) := by
  have hnone : listProperties items = [] := by
    induction items with
    | nil => rfl
    | cons item items ih =>
      obtain ⟨⟨a, rfl⟩, hrest⟩ := List.forall_mem_cons.mp hitems
      exact ih hrest
  refine ⟨?_, ?_⟩ <;> simp [properties, hnone]

theorem valueTest_of_mem {pieces : List String} {es : List Expr} {read : String → Result Expr} {Q : Expr → Prop}
    (hread : ∀ {value e}, read value = .ok e → Q e) (h : pieces.mapM read = .ok es) : ∀ x ∈ es, Q x := by
  intro x hx
  obtain ⟨piece, -, hpiece⟩ := Result.exists_of_mem h hx
  exact hread hpiece

theorem single_of_combine {es : List Expr} (hes : ∀ x ∈ es, ValueTest p x) (h : combine es = some e) :
    TestsOnly p e ∧ e.flatten .and = [e] := by
  have hlist : ∀ {op negated list}, valueList? op negated es = some list →
      TestsOnly p list ∧ list.flatten .and = [list] := by
    intro op negated list hlist
    obtain ⟨items, rfl, rfl⟩ := exists_of_valueList? (fun x hx => (hes x hx).comparedSubject) hlist
    refine ⟨testsOnly_inList (fun item hitem => ?_) negated, rfl⟩
    cases hes _ (List.mem_map_of_mem hitem)
    exact ⟨_, rfl⟩
  obtain ⟨-, hequal | hunequal⟩ | hjoin := of_combine h
  · exact hlist hequal
  · exact hlist hunequal
  · -- A conjunction would be the only operand of the disjunction, and no test is one.
    refine ⟨testsOnly_joinAll (fun x hx => (hes x hx).testsOnly) hjoin, flatten_of_ne fun l m heq => ?_⟩
    subst heq
    have hflatten := flatten_joinAll (fun x hx => (hes x hx).flatten .or) hjoin
    cases hes (.logical .and l m) (by rw [← hflatten]; exact List.mem_singleton_self _)

/-- Whatever is read for a property tests this property alone and is no conjunction. -/
theorem single_of_read (h : r.read p value = .ok (some e)) : TestsOnly p e ∧ e.flatten .and = [e] := by
  unfold Reader.read at h
  dsimp only at h
  split at h
  next =>
    cases h
    exact ⟨⟨by simp [properties], by simp [properties]⟩, rfl⟩
  next =>
    cases h
    exact ⟨⟨by simp [properties], by simp [properties]⟩, rfl⟩
  next =>
    split at h
    next => cases h
    next =>
      split at h
      next =>
        obtain ⟨items, hitems, h⟩ := Result.bind_eq_ok.mp h
        cases h
        exact ⟨testsOnly_inList (valueTest_of_mem exists_of_literal hitems) _, rfl⟩
      next =>
        obtain ⟨es, hes, h⟩ := Result.bind_eq_ok.mp h
        exact single_of_combine (valueTest_of_mem valueTest_of_alternative hes) (Except.ok.inj h)

/-! ### Putting criteria in the place of others -/

theorem filterTerms_allOf {es : List Expr} (hes : ∀ x ∈ es, x.flatten .and = [x]) : filterTerms (allOf es) = es := by
  cases hjoin : allOf es with
  | none =>
    cases es with
    | nil => rfl
    | cons => cases hjoin
  | some e => exact flatten_joinAll hes hjoin

theorem flatten_of_mem_filterTerms {filter : Option Expr} (he : e ∈ filterTerms filter) : e.flatten .and = [e] := by
  cases filter with
  | none => cases he
  | some filter => exact flatten_of_mem_flatten he

theorem filterMap_of_mapM {α β : Type} {f : α → Result (Option β)} {as : List α} {found : List (Option β)}
    (h : as.mapM f = .ok found) : found.filterMap id = as.filterMap fun a => (f a).toOption.join := by
  have heach := Result.mapM_eq_ok_iff.mp h
  clear h
  induction heach with
  | nil => rfl
  | @cons a first as found hfirst _ ih =>
    have htake : (f a).toOption.join = first := congrArg (fun outcome => outcome.toOption.join) hfirst
    rw [List.filterMap_cons, List.filterMap_cons, ih, htake]
    rfl

theorem parse_refilters (h : q.Refilters q') (p : PropertyRef) (condition : Option Condition) (value : String) :
    parse ctx q' p condition value = parse ctx q p condition value := by
  rw [parse, h.dataType?_eq, parse]

namespace Criteria

variable {c : Criteria}

/-- The criterion tests one property of the grid and no other. -/
def Covers (c : Criteria) (t : TableId) (e : Expr) : Prop :=
  ∃ name, c.values.contains name = true ∧ TestsOnly ⟨t, name⟩ e

theorem covers_iff : c.Covers t e ↔ (singleProperty? e t).any (c.values.contains ·) = true := by
  simp only [Covers, Option.any_eq_true, singleProperty?_eq_some, and_comm]

instance : Decidable (c.Covers t e) :=
  decidable_of_iff _ covers_iff.symm

/-- The criteria of a filter that stay next to a grid. -/
def kept (c : Criteria) (t : TableId) (filter : Option Expr) : List Expr :=
  (filterTerms filter).filter fun e => ¬c.Covers t e

theorem apply_eq_ok : c.apply ctx q t = .ok q' ↔ ∃ parsed item, c.terms ctx q t = .ok parsed ∧ q.get? t = some item ∧
    q' = q.modify t ({ · with filter := allOf (c.kept t item.filter ++ parsed) }) := by
  have hkept : ∀ filter : Option Expr, (filter.elim [] (·.flatten .and)).filter
      (fun e => !(singleProperty? e t).any (c.values.contains ·)) = c.kept t filter := by
    intro filter
    refine List.filter_congr fun e _ => ?_
    simp only [covers_iff, Bool.not_eq_true, Bool.decide_eq_false]
  rw [apply, Result.bind_eq_ok]
  refine exists_congr fun parsed => ?_
  cases q.get? t with
  | none => simp
  | some item =>
    simp only [hkept, pure, Except.pure, Except.ok.injEq, Option.some.injEq, exists_and_left, exists_eq_left',
      eq_comm (a := q')]

theorem single_of_mem_terms {parsed : List Expr} (h : c.terms ctx q t = .ok parsed) (he : e ∈ parsed) :
    c.Covers t e ∧ e.flatten .and = [e] := by
  obtain ⟨found, hfound, h⟩ := Result.bind_eq_ok.mp h
  cases h
  obtain ⟨read, hread, rfl⟩ := List.mem_filterMap.mp he
  obtain ⟨entry, hentry, hparse⟩ := Result.exists_of_mem hfound hread
  obtain ⟨htests, hflatten⟩ := single_of_read hparse
  exact ⟨⟨entry.1, Dictionary.contains_iff_mem_keys.mpr (List.mem_map_of_mem hentry), htests⟩, hflatten⟩

/-- What a grid does to a query: only the filter of one table changes. Its criteria that test one property of the grid
    alone go, the others stay in their order, and what is read for the properties follows in the order of their
    names. -/
structure Replaces (c : Criteria) (ctx : Context) (t : TableId) (q q' : Query) : Prop extends q.Refilters q' where
  live : q.contains t = true
  others : ∀ u, u ≠ t → q'.filterOf u = q.filterOf u
  filter : ∃ named : List (String × Expr), (named.map (·.1)).Pairwise (· < ·) ∧
    (∀ name e, (name, e) ∈ named ↔ ∃ text, c.values.get? name = some text ∧
      Search.parse ctx q ⟨t, name⟩ (c.conditions.get? name) text = .ok (some e)) ∧
    filterTerms (q'.filterOf t) = c.kept t (q.filterOf t) ++ named.map (·.2) ∧
    q'.filterOf t = allOf (c.kept t (q.filterOf t) ++ named.map (·.2))

/-- What is read for the properties, by name. -/
theorem exists_named (hordered : c.values.Ordered) {parsed : List Expr} (h : c.terms ctx q t = .ok parsed) :
    ∃ named : List (String × Expr), (named.map (·.1)).Pairwise (· < ·) ∧
      (∀ name e, (name, e) ∈ named ↔ ∃ text, c.values.get? name = some text ∧
        Search.parse ctx q ⟨t, name⟩ (c.conditions.get? name) text = .ok (some e)) ∧ parsed = named.map (·.2) := by
  obtain ⟨found, hfound, h⟩ := Result.bind_eq_ok.mp h
  cases h
  let read (entry : String × String) : Option Expr :=
    (Search.parse ctx q ⟨t, entry.1⟩ (c.conditions.get? entry.1) entry.2).toOption.join
  have hread : ∀ name text e, read (name, text) = some e ↔
      Search.parse ctx q ⟨t, name⟩ (c.conditions.get? name) text = .ok (some e) := by
    intro name text e
    rw [Option.join_eq_some_iff, Result.toOption_eq_some]
  refine ⟨c.values.entries.filterMap fun entry => (read entry).map (entry.1, ·), ?_, fun name e => ?_, ?_⟩
  · rw [List.map_filterMap, List.pairwise_filterMap]
    refine (List.pairwise_map.mp hordered).imp fun {a b} hlt name hname name' hname' => ?_
    simp only [Option.map_map, Option.map_eq_some_iff, Function.comp_apply] at hname hname'
    obtain ⟨-, -, rfl⟩ := hname
    obtain ⟨-, -, rfl⟩ := hname'
    exact hlt
  · simp only [List.mem_filterMap, Option.map_eq_some_iff, Prod.mk.injEq]
    constructor
    · rintro ⟨⟨name, text⟩, hmem, e, he, rfl, rfl⟩
      exact ⟨text, hordered.get?_eq_some_iff.mpr hmem, (hread _ _ _).mp he⟩
    · rintro ⟨text, htext, hparse⟩
      exact ⟨(name, text), hordered.get?_eq_some_iff.mp htext, e, (hread _ _ _).mpr hparse, rfl, rfl⟩
  · rw [filterMap_of_mapM hfound, List.map_filterMap]
    refine List.filterMap_congr fun entry _ => ?_
    rw [Option.map_map]
    exact (Option.map_id' ..).symm

theorem replaces_of_apply (hordered : c.values.Ordered) (h : c.apply ctx q t = .ok q') : c.Replaces ctx t q q' := by
  obtain ⟨parsed, item, hparsed, hitem, rfl⟩ := apply_eq_ok.mp h
  obtain ⟨named, hsorted, hmem, rfl⟩ := exists_named hordered hparsed
  have hfilter : q.filterOf t = item.filter := by rw [Query.filterOf, hitem, Option.bind_some]
  have hnew : (q.modify t ({ · with filter := allOf (c.kept t item.filter ++ named.map (·.2)) })).filterOf t =
      allOf (c.kept t item.filter ++ named.map (·.2)) := by
    rw [Query.filterOf_modify, if_pos rfl, hitem, Option.bind_some]
  have hflat : ∀ x ∈ c.kept t item.filter ++ named.map (·.2), x.flatten .and = [x] := by
    intro x hx
    rcases List.mem_append.mp hx with hx | hx
    · exact flatten_of_mem_filterTerms (List.mem_filter.mp hx).1
    · exact (single_of_mem_terms hparsed hx).2
  have hlive : q.contains t = true := Query.contains_iff.mpr ⟨item, hitem⟩
  refine ⟨Query.refilters_modify t _, hlive, fun u hu => ?_, named, hsorted, hmem, ?_, ?_⟩
  · rw [Query.filterOf_modify, if_neg hu]
  · rw [hnew, hfilter, filterTerms_allOf hflat]
  · rw [hnew, hfilter]

/-- A second application finds the criteria of the first one and puts the same in their place. -/
theorem apply_apply (h : c.apply ctx q t = .ok q') : c.apply ctx q' t = .ok q' := by
  obtain ⟨parsed, item, hparsed, hitem, rfl⟩ := apply_eq_ok.mp h
  generalize hterms : c.kept t item.filter ++ parsed = terms
  have hrefilters : q.Refilters (q.modify t ({ · with filter := allOf terms })) := Query.refilters_modify t _
  have hsame : c.terms ctx (q.modify t ({ · with filter := allOf terms })) t = c.terms ctx q t := by
    simp only [Criteria.terms, parse_refilters hrefilters]
  have hget : (q.modify t ({ · with filter := allOf terms })).get? t = some { item with filter := allOf terms } := by
    rw [Query.get?_modify, if_pos rfl, hitem]
    rfl
  have hflat : ∀ x ∈ terms, x.flatten .and = [x] := by
    intro x hx
    rcases List.mem_append.mp (hterms ▸ hx) with hx | hx
    · exact flatten_of_mem_filterTerms (List.mem_filter.mp hx).1
    · exact (single_of_mem_terms hparsed hx).2
  have hkept : c.kept t (allOf terms) = c.kept t item.filter := by
    have hstay : (c.kept t item.filter).filter (fun e => ¬c.Covers t e) = c.kept t item.filter :=
      List.filter_eq_self.mpr fun e he => (List.mem_filter.mp he).2
    have hgo : parsed.filter (fun e => ¬c.Covers t e) = [] :=
      List.filter_eq_nil_iff.mpr fun e he => by simpa using (single_of_mem_terms hparsed he).1
    rw [kept, filterTerms_allOf hflat, ← hterms, List.filter_append, hstay, hgo, List.append_nil]
  refine apply_eq_ok.mpr ⟨parsed, _, hsame.trans hparsed, hget, ?_⟩
  rw [hkept, hterms]
  refine (Query.modify_eq_self fun item' hitem' => ?_).symm
  rw [hget] at hitem'
  cases hitem'
  rfl

end Criteria

/-! ### In place -/

/-- A computation that may change a query and may fail. -/
abbrev Update (α : Type) : Type :=
  ExceptT QueryError (StateM Query) α

theorem run_bind_ok {α β : Type} {x : Update α} {f : α → Update β} {a : α} (h : x.run.run q = (.ok a, q')) :
    (x >>= f).run.run q = (f a).run.run q' := by
  rw [ExceptT.run_bind, StateT.run_bind, h]
  rfl

theorem run_bind_error {α β : Type} {x : Update α} {f : α → Update β} {err : QueryError}
    (h : x.run.run q = (.error err, q')) : (x >>= f).run.run q = (.error err, q') := by
  rw [ExceptT.run_bind, StateT.run_bind, h]
  rfl

theorem run_get (q : Query) : (get : Update Query).run.run q = (.ok q, q) :=
  rfl

theorem run_modify (f : Query → Query) (q : Query) : (modify f : Update PUnit).run.run q = (.ok ⟨⟩, f q) :=
  rfl

/-- What is read from the query changes nothing. -/
theorem run_read {β : Type} (f : Query → Result β) (q : Query) :
    (do MonadExcept.ofExcept (f (← get)) : Update β).run.run q = (f q, q) := by
  rw [run_bind_ok (run_get q)]
  cases f q <;> rfl

theorem run_mapM {α β : Type} (f : Query → α → Result β) (as : List α) (q : Query) :
    (as.mapM fun a => do MonadExcept.ofExcept (f (← get) a) : Update (List β)).run.run q = (as.mapM (f q), q) := by
  induction as with
  | nil => rfl
  | cons a as ih =>
    have hfirst := run_read (fun q => f q a) q
    rw [List.mapM_cons, List.mapM_cons]
    cases hf : f q a with
    | error err =>
      rw [hf] at hfirst
      rw [run_bind_error hfirst]
      rfl
    | ok b =>
      rw [hf] at hfirst
      rw [run_bind_ok hfirst, Result.ok_bind]
      cases hrest : as.mapM (f q) with
      | error err =>
        rw [hrest] at ih
        rw [run_bind_error ih]
        rfl
      | ok bs =>
        rw [hrest] at ih
        rw [run_bind_ok ih]
        rfl

namespace Criteria

variable {c : Criteria}

/-- The grid applied to a query in place: the texts are read one after another, then the table is looked up, and its
    filter is taken out and put together anew. -/
def applyInPlace (ctx : Context) (t : TableId) (c : Criteria) : Update PUnit := do
  let found ← c.values.entries.mapM fun entry => do
    MonadExcept.ofExcept (Search.parse ctx (← get) ⟨t, entry.1⟩ (c.conditions.get? entry.1) entry.2)
  match (← get).get? t with
  | none => throw (.ambiguous ("table " ++ t.name ++ " is not part of the query"))
  | some item =>
    modify (·.modify t ({ · with filter := none }))
    modify (·.modify t ({ · with filter := allOf (c.kept t item.filter ++ found.filterMap id) }))

/-- In place, a grid that cannot be applied leaves the query as it is. -/
theorem run_applyInPlace (c : Criteria) (ctx : Context) (q : Query) (t : TableId) : (c.applyInPlace ctx t).run.run q =
    match c.apply ctx q t with
    | .ok q' => (.ok ⟨⟩, q')
    | .error err => (.error err, q) := by
  have hread := run_mapM (fun q (entry : String × String) =>
    Search.parse ctx q ⟨t, entry.1⟩ (c.conditions.get? entry.1) entry.2) c.values.entries q
  cases hfound : c.values.entries.mapM (fun entry =>
      Search.parse ctx q ⟨t, entry.1⟩ (c.conditions.get? entry.1) entry.2) with
  | error err =>
    have happly : c.apply ctx q t = .error err := by rw [apply, Criteria.terms, hfound]; rfl
    rw [hfound] at hread
    rw [applyInPlace, run_bind_error hread, happly]
  | ok found =>
    have hterms : c.terms ctx q t = .ok (found.filterMap id) := by rw [Criteria.terms, hfound]; rfl
    rw [hfound] at hread
    rw [applyInPlace, run_bind_ok hread, run_bind_ok (run_get q)]
    cases hitem : q.get? t with
    | none =>
      rw [apply, hterms, Result.ok_bind, hitem]
      rfl
    | some item =>
      rw [apply_eq_ok.mpr ⟨_, item, hterms, hitem, rfl⟩]
      dsimp only
      rw [run_bind_ok (run_modify _ q), run_modify, Query.modify_modify]

/-- Applying a grid is all or nothing: where it fails the query stays as it is, where it succeeds only the filter of the
    table changes, as `Replaces` says, and applying the grid once more succeeds and changes nothing. -/
theorem applyInPlace_cases (c : Criteria) (ctx : Context) (q : Query) (t : TableId) (hordered : c.values.Ordered) :
    (∃ err, c.apply ctx q t = .error err ∧ (c.applyInPlace ctx t).run.run q = (.error err, q)) ∨
      ∃ q', c.apply ctx q t = .ok q' ∧ (c.applyInPlace ctx t).run.run q = (.ok ⟨⟩, q') ∧ c.Replaces ctx t q q' ∧
        c.apply ctx q' t = .ok q' ∧ (c.applyInPlace ctx t).run.run q' = (.ok ⟨⟩, q') := by
  have hrun := run_applyInPlace c ctx q t
  cases happly : c.apply ctx q t with
  | error err =>
    rw [happly] at hrun
    exact .inl ⟨err, rfl, hrun⟩
  | ok q' =>
    rw [happly] at hrun
    have hagain := run_applyInPlace c ctx q' t
    rw [apply_apply happly] at hagain
    exact .inr ⟨q', rfl, hrun, replaces_of_apply hordered happly, apply_apply happly, hagain⟩

/-- Names that start with "bolt", or "nut", and quantities above 7. -/
def boltsOrNuts : Criteria where
  values := .ofList [("quantity", ">7"), ("name", "bolt*|nut")]

theorem applyInPlace_cases_boltsOrNuts : boltsOrNuts.values.Ordered ∧
    ∃ q', boltsOrNuts.apply parts (filtered plenty) ⟨0, 0⟩ = .ok q' ∧
      boltsOrNuts.Replaces parts ⟨0, 0⟩ (filtered plenty) q' ∧ boltsOrNuts.apply parts q' ⟨0, 0⟩ = .ok q' := by
  have hordered : boltsOrNuts.values.Ordered := Dictionary.ordered_ofList _
  have hok : (boltsOrNuts.apply parts (filtered plenty) ⟨0, 0⟩).toOption.isSome = true := by decide +kernel
  obtain ⟨err, herr, -⟩ | ⟨q', happly, -, hreplaces, hagain, -⟩ :=
    applyInPlace_cases boltsOrNuts parts (filtered plenty) ⟨0, 0⟩ hordered
  · rw [herr] at hok
    cases hok
  · exact ⟨hordered, q', happly, hreplaces, hagain⟩

end Criteria
end ItemQuery.Search
