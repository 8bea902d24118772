import ItemQuery.Normalize
import ItemQuery.Proofs.Query.Filters

/-! Normalizing all filters of a query. The filters are taken in turn, by slot, and a run ends at the first one without
    a normal form: the filters before it are in normal form, those behind it are untouched, and this one is lost. -/

namespace ItemQuery.Query

variable {q q' q₁ : Query} {ids : List TableId} {id t : TableId} {err : QueryError}

/-- A table has a filter if it had one, either the same or its normal form. -/
def KeepsFilter (q q' : Query) (t : TableId) : Prop :=
  Option.Rel (fun e e' => e' = e ∨ e.normalize = .ok e') (q.filterOf t) (q'.filterOf t)

/-- The filters of `ids`, and no others, are in normal form. -/
structure Renewed (q q' : Query) (ids : List TableId) : Prop extends q.Refilters q' where
  normal : ∀ t ∈ ids, ∀ e, q.filterOf t = some e → ∃ n, e.normalize = .ok n ∧ q'.filterOf t = some n
  unfiltered : ∀ t, q.filterOf t = none → q'.filterOf t = none
  other : ∀ t, t ∉ ids → q'.filterOf t = q.filterOf t

/-- `q'` is what is left of `q` by a run that ends at the filter of `id`. -/
structure Interrupted (q q' : Query) (id : TableId) (err : QueryError) : Prop extends q.Refilters q' where
  failed : ∃ e, q.filterOf id = some e ∧ e.normalize = .error err
  lost : q'.filterOf id = none
  before : ∀ t e, t.slot < id.slot → q.filterOf t = some e → ∃ n, e.normalize = .ok n ∧ q'.filterOf t = some n
  unfiltered : ∀ t, q.filterOf t = none → q'.filterOf t = none
  after : ∀ t, id.slot < t.slot → q'.filterOf t = q.filterOf t

/-! ### One filter after another -/

theorem renewed_nil (q : Query) : q.Renewed q [] where
  toRefilters := .refl q
  normal := nofun
  unfiltered _ h := h
  other _ _ := rfl

/-- A table without a filter is passed over. -/
theorem Renewed.skip (h : q.Renewed q' ids) (hid : q.filterOf id = none) : q.Renewed q' (id :: ids) where
  toRefilters := h.toRefilters
  normal t ht e he := by
    rcases List.mem_cons.mp ht with rfl | ht
    · rw [hid] at he
      cases he
    · exact h.normal t ht e he
  unfiltered := h.unfiltered
  other t ht := h.other t fun hmem => ht (List.mem_cons_of_mem _ hmem)

/-- A filter is replaced by its normal form before the others. -/
theorem Renewed.next {e n : Expr} (h : (q.modify id fun item => { item with filter := some n }).Renewed q' ids)
    (hid : id ∉ ids) (he : q.filterOf id = some e) (hn : e.normalize = .ok n) : q.Renewed q' (id :: ids) := by
  have hfirst : (q.modify id fun item => { item with filter := some n }).filterOf id = some n := by
    obtain ⟨item, hitem, -⟩ := Option.bind_eq_some_iff.mp he
    rw [filterOf_modify, if_pos rfl, hitem]
    rfl
  have hothers : ∀ t, t ≠ id → (q.modify id fun item => { item with filter := some n }).filterOf t = q.filterOf t := by
    intro t ht
    rw [filterOf_modify, if_neg ht]
  refine ⟨(refilters_modify id (some n)).trans h.toRefilters, fun t ht e' he' => ?_, fun t ht => ?_, fun t ht => ?_⟩
  · by_cases heq : t = id
    · subst heq
      obtain rfl := Option.some.inj (he.symm.trans he')
      exact ⟨n, hn, (h.other t hid).trans hfirst⟩
    · exact h.normal t ((List.mem_cons.mp ht).resolve_left heq) e' ((hothers t heq).trans he')
  · have hne : t ≠ id := by
      rintro rfl
      rw [he] at ht
      cases ht
    exact h.unfiltered t ((hothers t hne).trans ht)
  · rw [List.mem_cons, not_or] at ht
    exact (h.other t ht.2).trans (hothers t ht.1)

/-- A run without failure renews all of its filters. -/
theorem renewed_normalizeTables (hids : ids.Nodup) (h : q.normalizeTables ids = (q', none)) : q.Renewed q' ids := by
  fun_induction normalizeTables q ids with
  | case1 =>
    cases h
    exact renewed_nil _
  | case2 q id ids hnone ih => exact (ih (List.nodup_cons.mp hids).2 h).skip hnone
  | case3 q id ids e he n hn ih => exact (ih (List.nodup_cons.mp hids).2 h).next (List.nodup_cons.mp hids).1 he hn
  | case4 => cases h

/-- A run that fails goes well up to a filter without a normal form. -/
theorem exists_of_normalizeTables (h : q.normalizeTables ids = (q', some err)) :
    ∃ before id after q₁ e, ids = before ++ id :: after ∧ q.normalizeTables before = (q₁, none) ∧
      q₁.filterOf id = some e ∧ e.normalize = .error err ∧
        q' = q₁.modify id fun item => { item with filter := none } := by
  fun_induction normalizeTables q ids with
  | case1 => cases h
  | case2 q first ids hnone ih =>
    obtain ⟨before, id, after, q₁, e, rfl, hrun, hrest⟩ := ih h
    refine ⟨first :: before, id, after, q₁, e, rfl, ?_, hrest⟩
    rw [normalizeTables, hnone]
    exact hrun
  | case3 q first ids e' he n hn ih =>
    obtain ⟨before, id, after, q₁, e, rfl, hrun, hrest⟩ := ih h
    refine ⟨first :: before, id, after, q₁, e, rfl, ?_, hrest⟩
    simp only [normalizeTables, he, hn]
    exact hrun
  | case4 q id ids e he err' herr =>
    cases h
    exact ⟨[], id, ids, q, e, rfl, rfl, he, herr, rfl⟩

/-! ### The whole query -/

/-- Whatever filter has no normal form, a normalization that fails loses exactly one criterion: the filter of the first
    such table. Every other table has a filter if it had one, either the same or its normal form. -/
theorem exists_interrupted_of_normalizeAll (h : q.normalizeAll = (q', some err)) :
    ∃ id, q.Interrupted q' id err ∧ ¬q.KeepsFilter q' id ∧ ∀ t, t ≠ id → q.KeepsFilter q' t := by
  obtain ⟨before, id, after, q₁, e, hids, hrun, he, herr, rfl⟩ := exists_of_normalizeTables h
  have hslots : (before ++ id :: after).Pairwise fun a b => a.slot < b.slot := hids ▸ Arena.pairwise_ids
  have hnodup : (before ++ id :: after).Nodup := hids ▸ Arena.nodup_ids
  obtain ⟨-, hafter, hacross⟩ := List.pairwise_append.mp hslots
  have hrenewed := renewed_normalizeTables (List.nodup_append.mp hnodup).1 hrun
  have hfresh : id ∉ before := fun hmem => (List.nodup_append.mp hnodup).2.2 id hmem id List.mem_cons_self rfl
  have hlive : ∀ t e, q.filterOf t = some e → t ∈ before ∨ t = id ∨ t ∈ after := by
    intro t e ht
    have hmem : t ∈ before ++ id :: after := hids ▸ Arena.mem_ids.mpr (contains_of_filterOf ht)
    rwa [List.mem_append, List.mem_cons] at hmem
  have hothers : ∀ t, t ≠ id → (q₁.modify id fun item => { item with filter := none }).filterOf t = q₁.filterOf t :=
    fun t ht => by rw [filterOf_modify, if_neg ht]
  have hlost : (q₁.modify id fun item => { item with filter := none }).filterOf id = none := by
    rw [filterOf_modify, if_pos rfl]
    cases q₁.get? id <;> rfl
  have hfilter : q.filterOf id = some e := (hrenewed.other id hfresh).symm.trans he
  refine ⟨id, ⟨hrenewed.toRefilters.trans (refilters_modify id none), ⟨e, hfilter, herr⟩, hlost, ?_, ?_, ?_⟩,
    ?_, fun t ht => ?_⟩
  · intro t e' hslot he'
    have hne : t ≠ id := fun heq => Nat.ne_of_lt hslot (heq ▸ rfl)
    rcases hlive t e' he' with hmem | heq | hmem
    · obtain ⟨n, hn, hkept⟩ := hrenewed.normal t hmem e' he'
      exact ⟨n, hn, (hothers t hne).trans hkept⟩
    · exact absurd heq hne
    · exact absurd ((List.pairwise_cons.mp hafter).1 t hmem) (Nat.not_lt_of_lt hslot)
  · intro t hnone
    by_cases heq : t = id
    · rw [heq, hlost]
    · rw [hothers t heq, hrenewed.unfiltered t hnone]
  · intro t hslot
    have hne : t ≠ id := fun heq => Nat.ne_of_gt hslot (heq ▸ rfl)
    rw [hothers t hne]
    exact hrenewed.other t fun hmem => Nat.not_lt_of_lt hslot (hacross t hmem id List.mem_cons_self)
  · rw [KeepsFilter, hfilter, hlost]
    rintro ⟨⟩
  · rw [KeepsFilter, hothers t ht]
    cases hold : q.filterOf t with
    | none =>
      rw [hrenewed.unfiltered t hold]
      exact .none
    | some e' =>
      by_cases hmem : t ∈ before
      · obtain ⟨n, hn, hkept⟩ := hrenewed.normal t hmem e' hold
        rw [hkept]
        exact .some (.inr hn)
      · rw [hrenewed.other t hmem, hold]
        exact .some (.inl rfl)

/-- Three tables with filters, of which the second one is a range over two tables. -/
def threeFilters : Query :=
  let differs (t : TableId) (name : String) : Expr := .not (.comparison .eq (.prop t name) (.text "Released"))
  let range : Expr := .between (.prop ⟨1, 0⟩ "cost") (.int 1) (.prop ⟨0, 0⟩ "limit") false none
  let first := ofItem { typeName := some "Part", filter := some (differs ⟨0, 0⟩ "state") }
  let second := (first.addTable { typeName := some "User", filter := some range }).2
  (second.addTable { typeName := some "Document", filter := some (differs ⟨2, 0⟩ "state") }).2

theorem exists_interrupted_threeFilters : ∃ q' err, threeFilters.normalizeAll = (q', some err) ∧
    ∃ id, threeFilters.Interrupted q' id err ∧ ¬threeFilters.KeepsFilter q' id ∧
      ∀ t, t ≠ id → threeFilters.KeepsFilter q' t := by
  obtain ⟨q', err, h⟩ : ∃ q' err, threeFilters.normalizeAll = (q', some err) := ⟨_, _, rfl⟩
  exact ⟨q', err, h, exists_interrupted_of_normalizeAll h⟩

/-- The range over two tables is lost. -/
theorem not_keepsFilter_threeFilters : ∃ q' err e, threeFilters.normalizeAll = (q', some err) ∧
    threeFilters.filterOf ⟨1, 0⟩ = some e ∧ q'.filterOf ⟨1, 0⟩ = none ∧ ¬threeFilters.KeepsFilter q' ⟨1, 0⟩ := by
  obtain ⟨q', err, h, hlost⟩ : ∃ q' err, threeFilters.normalizeAll = (q', some err) ∧ q'.filterOf ⟨1, 0⟩ = none :=
    ⟨_, _, rfl, rfl⟩
  refine ⟨q', err, _, h, rfl, hlost, ?_⟩
  rw [KeepsFilter, hlost]
  rintro ⟨⟩

end ItemQuery.Query
