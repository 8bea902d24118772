import ItemQuery.Proofs.Expr.Nodes
import ItemQuery.Sql.Statement

/-! What happens to a criterion before it is written: equalities are collected to value lists, and the starts of
    `substring` calls are counted from one. Neither touches a node that is not concerned, apart from its parts. -/

namespace ItemQuery.Expr

variable {P : Expr → Prop} {e t : Expr} {terms : List Expr}

/-! ### Collected equalities -/

theorem regroup_singleton (t : Expr) : regroup [t] = t := by
  have hfew : ∀ p, (valuesOf p [t]).length ≤ 1 := fun p => List.length_filterMap_le _ _
  have hgroup : groupTerms [t] [] [t] = [t] := by
    rw [groupTerms]
    cases t.equality? with
    | none => rfl
    | some pair =>
      simp only [hfew, if_true]
      rfl
  rw [regroup, hgroup]
  rfl

theorem eq_of_equality? {p : PropertyRef} {value : Expr} (h : t.equality? = some (p, value)) :
    t = comparison .eq (property p) value ∧ value.isLiteral = true := by
  unfold equality? at h
  split at h
  next =>
    split at h
    next hliteral =>
      cases h
      exact ⟨rfl, hliteral⟩
    next => cases h
  next => cases h

theorem equality?_eq_some {p : PropertyRef} {value : Expr} :
    t.equality? = some (p, value) ↔ t = comparison .eq (property p) value ∧ value.isLiteral = true := by
  constructor
  · exact eq_of_equality?
  · rintro ⟨rfl, hliteral⟩
    rw [equality?, if_pos hliteral]

theorem mem_valuesOf_iff {p : PropertyRef} {value : Expr} :
    value ∈ valuesOf p terms ↔ comparison .eq (property p) value ∈ terms ∧ value.isLiteral = true := by
  simp only [valuesOf, List.mem_filterMap, Option.bind_eq_some_iff, Option.ite_none_right_eq_some, Option.some.injEq]
  constructor
  · rintro ⟨term, hterm, ⟨p, value⟩, hequality, rfl, rfl⟩
    obtain ⟨rfl, hliteral⟩ := eq_of_equality? hequality
    exact ⟨hterm, hliteral⟩
  · rintro ⟨hterm, hliteral⟩
    exact ⟨_, hterm, (p, value), equality?_eq_some.mpr ⟨rfl, hliteral⟩, rfl, rfl⟩

theorem mem_valuesOf {p : PropertyRef} {value : Expr} (h : value ∈ valuesOf p terms) :
    comparison .eq (property p) value ∈ terms :=
  (mem_valuesOf_iff.mp h).1

/-- What stands among the collected terms: the terms whose property has no other equality, and the list of each other
    property that has none yet. -/
theorem mem_groupTerms_iff {all rest : List Expr} {done : List PropertyRef} : t ∈ groupTerms all done rest ↔
    (t ∈ rest ∧ ∀ p value, t.equality? = some (p, value) → (valuesOf p all).length ≤ 1) ∨
      ∃ u ∈ rest, ∃ p value, u.equality? = some (p, value) ∧ 1 < (valuesOf p all).length ∧ p ∉ done ∧
        t = inList (property p) (valuesOf p all) false none := by
  fun_induction groupTerms all done rest with
  | case1 => simp
  | case2 | case3 | case4 | case5 => grind

/-- A collected term is a term, or a list of the values of some of the terms. -/
theorem mem_groupTerms {all rest : List Expr} {done : List PropertyRef} (h : t ∈ groupTerms all done rest) :
    t ∈ rest ∨ ∃ p value, comparison .eq (property p) value ∈ rest ∧ 1 < (valuesOf p all).length ∧
      t = inList (property p) (valuesOf p all) false none := by
  rcases mem_groupTerms_iff.mp h with ⟨ht, -⟩ | ⟨u, hu, p, value, hequality, hmany, -, rfl⟩
  · exact .inl ht
  · obtain ⟨rfl, -⟩ := eq_of_equality? hequality
    exact .inr ⟨p, value, hu, hmany, rfl⟩

theorem groupTerms_ne_nil (all : List Expr) {rest : List Expr} (hne : rest ≠ []) : groupTerms all [] rest ≠ [] := by
  obtain ⟨term, rest, rfl⟩ := List.exists_cons_of_ne_nil hne
  rw [groupTerms]
  split
  · exact List.cons_ne_nil _ _
  · split
    · exact List.cons_ne_nil _ _
    · exact List.cons_ne_nil _ _

/-- A chain of collected terms starts with the first term, or with a list of the values of its property. -/
theorem exists_regroup (t : Expr) (rest : List Expr) : ∃ first more,
    groupTerms (t :: rest) [] (t :: rest) = first :: more ∧ regroup (t :: rest) = more.foldl (logical .or) first ∧
      (first = t ∧ (more = [] → rest = []) ∨
        ∃ p value values, t = comparison .eq (property p) value ∧ first = inList (property p) values false none) := by
  have hkept : ∃ first more, t :: groupTerms (t :: rest) [] rest = first :: more ∧
      (first = t ∧ (more = [] → rest = []) ∨
        ∃ p value values, t = comparison .eq (property p) value ∧ first = inList (property p) values false none) := by
    refine ⟨t, _, rfl, .inl ⟨rfl, fun hnil => ?_⟩⟩
    cases rest with
    | nil => rfl
    | cons u rest => exact absurd hnil (groupTerms_ne_nil _ (List.cons_ne_nil u rest))
  have hgroup : ∃ first more, groupTerms (t :: rest) [] (t :: rest) = first :: more ∧
      (first = t ∧ (more = [] → rest = []) ∨
        ∃ p value values, t = comparison .eq (property p) value ∧ first = inList (property p) values false none) := by
    rw [groupTerms]
    split
    next => exact hkept
    next p value hequality =>
      obtain ⟨heq, -⟩ := eq_of_equality? hequality
      split
      next => exact hkept
      next => exact ⟨_, _, if_neg (by simp), .inr ⟨p, value, _, heq, rfl⟩⟩
  obtain ⟨first, more, hgroup, hfirst⟩ := hgroup
  refine ⟨first, more, hgroup, ?_, hfirst⟩
  rw [regroup, hgroup]
  rfl

/-! ### Collected trees -/

theorem orTerms_ne_nil (e : Expr) : e.orTerms ≠ [] := by
  induction e using induction_children with
  | h e ih =>
    cases e with
    | logical op l r =>
      cases op with
      | or =>
        rw [orTerms]
        exact List.append_ne_nil_of_left_ne_nil (ih l (by simp [children])) _
      | and => exact List.cons_ne_nil _ _
    | _ => exact List.cons_ne_nil _ _

/-- A chain is collected to a chain, or to a list. -/
theorem collapseIn_or (l r : Expr) : (∃ m s, (logical .or l r).collapseIn = logical .or m s) ∨
    ∃ p items, (logical .or l r).collapseIn = inList (property p) items false none := by
  obtain ⟨t, rest, hl⟩ := List.exists_cons_of_ne_nil (orTerms_ne_nil l)
  obtain ⟨first, more, -, hregroup, hfirst⟩ := exists_regroup t (rest ++ r.orTerms)
  rw [collapseIn, orTerms, hl, List.cons_append, hregroup]
  rcases List.eq_nil_or_concat more with rfl | ⟨before, last, rfl⟩
  · rcases hfirst with ⟨-, hnil⟩ | ⟨p, value, values, -, rfl⟩
    · exact absurd (List.append_eq_nil_iff.mp (hnil rfl)).2 (orTerms_ne_nil r)
    · exact .inr ⟨p, values, rfl⟩
  · rw [List.concat_eq_append, List.foldl_append]
    exact .inl ⟨_, _, rfl⟩

/-- What is no alternative is one alternative. -/
theorem orTerms_of_ne (h : ∀ l r, e ≠ logical .or l r) : e.orTerms = [e.collapseIn] := by
  have hself : ∀ t, e.orTerms = [t] → e.orTerms = [e.collapseIn] := by
    intro t ht
    rw [collapseIn, ht, regroup_singleton]
  cases e with
  | logical op l r =>
    cases op with
    | or => exact absurd rfl (h l r)
    | and => exact hself _ rfl
  | _ => exact hself _ rfl

theorem listCollapse_eq_map (es : List Expr) : listCollapse es = es.map collapseIn := by
  induction es with
  | nil => rfl
  | cons e es ih => rw [listCollapse, ih, List.map_cons, collapseIn]

theorem eq_collapseIn (h : e.orTerms = [t]) : e.collapseIn = t := by
  rw [collapseIn, h, regroup_singleton]

theorem optionCollapse_eq_map (e : Option Expr) : optionCollapse e = e.map collapseIn := by
  cases e <;> rfl

/-- What is no chain stays, with its parts collected. -/
theorem collapseIn_of_ne (h : ∀ l r, e ≠ logical .or l r) : e.collapseIn = e.mapChildren collapseIn := by
  cases e with
  | logical op l r =>
    cases op with
    | or => exact absurd rfl (h l r)
    | and => rw [eq_collapseIn rfl]; rfl
  | parameter name default raw => rw [eq_collapseIn rfl, optionCollapse_eq_map]; rfl
  | list items => rw [eq_collapseIn rfl, listCollapse_eq_map]; rfl
  | call f args => rw [eq_collapseIn rfl, listCollapse_eq_map]; rfl
  | inList l items negated table => rw [eq_collapseIn rfl, listCollapse_eq_map]; rfl
  | _ =>
    rw [eq_collapseIn rfl]
    rfl

theorem children_collapseIn (h : ∀ l r, e ≠ logical .or l r) : e.collapseIn.children = e.children.map collapseIn := by
  rw [collapseIn_of_ne h, children_mapChildren]

/-- A property of nodes that collecting keeps: of all chains and lists, and of a node that is no chain with its parts
    collected. -/
structure Collects (P : Expr → Prop) : Prop where
  chain : ∀ l r, P (logical .or l r)
  values : ∀ p items, P (inList (property p) items false none)
  node : ∀ e, (∀ l r, e ≠ logical .or l r) → P e → P e.collapseIn

theorem everywhere_foldl_or (hP : ∀ l r, P (logical .or l r)) {es : List Expr} (he : e.Everywhere P)
    (hes : ∀ e ∈ es, e.Everywhere P) : (es.foldl (logical .or) e).Everywhere P := by
  induction es generalizing e with
  | nil => exact he
  | cons x es ih =>
    rw [List.forall_mem_cons] at hes
    exact ih (everywhere_pair rfl (hP e x) he hes.1) hes.2

theorem Collects.regroup (hP : Collects P) (hne : terms ≠ []) (h : ∀ t ∈ terms, t.Everywhere P) :
    (regroup terms).Everywhere P := by
  have hall : ∀ t ∈ groupTerms terms [] terms, t.Everywhere P := by
    intro t ht
    rcases mem_groupTerms ht with ht | ⟨p, value, hmem, -, rfl⟩
    · exact h t ht
    · refine everywhere_iff.mpr ⟨hP.values p _, List.forall_mem_cons.mpr ⟨?_, fun value hvalue => ?_⟩⟩
      · exact (everywhere_iff.mp (h _ hmem)).2 _ (by simp [children])
      · exact (everywhere_iff.mp (h _ (mem_valuesOf hvalue))).2 value (by simp [children])
  obtain ⟨t, rest, rfl⟩ := List.exists_cons_of_ne_nil hne
  obtain ⟨first, more, hgroup, hregroup, -⟩ := exists_regroup t rest
  rw [hgroup, List.forall_mem_cons] at hall
  rw [hregroup]
  exact everywhere_foldl_or hP.chain hall.1 hall.2

theorem Everywhere.collapseIn (hP : Collects P) (h : e.Everywhere P) : e.collapseIn.Everywhere P := by
  have hterms : ∀ e : Expr, e.Everywhere P → ∀ t ∈ e.orTerms, t.Everywhere P := by
    intro e
    induction e using induction_children with
    | h e ih =>
      intro h
      obtain ⟨hnode, hparts⟩ := everywhere_iff.mp h
      by_cases hor : ∃ l r, e = logical .or l r
      · obtain ⟨l, r, rfl⟩ := hor
        have hl : l ∈ (logical .or l r).children := by simp [children]
        have hr : r ∈ (logical .or l r).children := by simp [children]
        rw [orTerms]
        exact List.forall_mem_append.mpr ⟨ih l hl (hparts l hl), ih r hr (hparts r hr)⟩
      · have hne : ∀ l r, e ≠ logical .or l r := fun l r heq => hor ⟨l, r, heq⟩
        rw [orTerms_of_ne hne, List.forall_mem_singleton]
        refine everywhere_iff.mpr ⟨hP.node e hne hnode, ?_⟩
        rw [children_collapseIn hne]
        refine List.forall_mem_map.mpr fun d hd => ?_
        exact hP.regroup (orTerms_ne_nil d) (ih d hd (hparts d hd))
  exact hP.regroup (orTerms_ne_nil e) (hterms e h)

/-! ### Places counted from one -/

@[simp] theorem precedence_oneBased (e : Expr) : e.oneBased.precedence = e.precedence := by
  cases e <;> rfl

theorem listOneBased_eq_map (es : List Expr) : listOneBased es = es.map oneBased := by
  induction es with
  | nil => rfl
  | cons e es ih => rw [listOneBased, ih, List.map_cons]

/-- A property of nodes that counting from one keeps: of all numbers and sums, and of a node with its parts changed. -/
structure Counts (P : Expr → Prop) : Prop where
  int : ∀ n, P (int n)
  sum : ∀ op l r, P (arithmetic op l r)
  node : ∀ e, P e → P e.oneBased

theorem Everywhere.nextPlace (hP : Counts P) (h : e.Everywhere P) : e.nextPlace.Everywhere P := by
  have hint : ∀ n, (int n).Everywhere P := fun n => everywhere_leaf rfl (hP.int n)
  have hsum : ∀ {op l r}, l.Everywhere P → r.Everywhere P → (arithmetic op l r).Everywhere P :=
    everywhere_pair rfl (hP.sum _ _ _)
  unfold Expr.nextPlace
  split
  next => exact hint _
  next l n =>
    have hl := (everywhere_iff.mp h).2 l (by simp [children])
    split
    · exact hl
    · exact hsum (hsum hl (hint n)) (hint 1)
  next => exact hsum h (hint 1)

theorem mem_oneBasedArgs {f : Function} {args : List Expr} (h : t ∈ oneBasedArgs f args) :
    t ∈ args ∨ ∃ start ∈ args, t = start.nextPlace := by
  unfold oneBasedArgs at h
  split at h
  next s start count =>
    simp only [List.mem_cons, List.not_mem_nil, or_false] at h
    rcases h with rfl | rfl | rfl
    · exact .inl (by simp)
    · exact .inr ⟨start, by simp, rfl⟩
    · exact .inl (by simp)
  next => exact .inl h

theorem Everywhere.oneBased (hP : Counts P) (h : e.Everywhere P) : e.oneBased.Everywhere P := by
  induction e using induction_children with
  | h e ih =>
    obtain ⟨hnode, hparts⟩ := everywhere_iff.mp h
    refine everywhere_iff.mpr ⟨hP.node e hnode, ?_⟩
    have hmapped : ∀ d ∈ e.children.map Expr.oneBased, d.Everywhere P :=
      List.forall_mem_map.mpr fun d hd => ih d hd (hparts d hd)
    cases e with
    | call f args =>
      intro t ht
      rw [Expr.oneBased, children, listOneBased_eq_map] at ht
      rcases mem_oneBasedArgs ht with ht | ⟨start, hstart, rfl⟩
      · exact hmapped t ht
      · exact (hmapped start hstart).nextPlace hP
    | parameter name default raw => cases default <;> exact hmapped
    | list items =>
      rw [Expr.oneBased, listOneBased_eq_map]
      exact hmapped
    | inList l items negated table =>
      rw [Expr.oneBased, listOneBased_eq_map]
      exact hmapped
    | _ => exact hmapped

end ItemQuery.Expr
