import ItemQuery.Sql.Statement
import ItemQuery.Proofs.Expr.Tables
import ItemQuery.Proofs.Query.Renaming
import ItemQuery.Proofs.Sql.Regrouping

/-! A statement names tables by their aliases only, so that it does not depend on their handles: the statement of a query
    with other handles is the same. -/

namespace ItemQuery.Expr

variable {f : TableId → TableId} {P : TableId → Prop}

@[simp] theorem precedence_mapTables (f : TableId → TableId) (e : Expr) : (e.mapTables f).precedence = e.precedence := by
  cases e <;> rfl

@[simp] theorem isLiteral_mapTables (f : TableId → TableId) (e : Expr) : (e.mapTables f).isLiteral = e.isLiteral := by
  cases e <;> rfl

@[simp] theorem mapTables_eq_literal {e : Expr} {value : Literal} : e.mapTables f = literal value ↔ e = literal value := by
  cases e <;> simp [mapTables]

@[simp] theorem enclose_mapTables (f : TableId → TableId) (parent : Precedence) (e : Expr) (rightSide associative : Bool)
    (shown : String) : enclose parent (e.mapTables f) rightSide associative shown
      = enclose parent e rightSide associative shown := by
  rw [enclose, precedence_mapTables, enclose]

@[simp] theorem length_listMapTables (f : TableId → TableId) (es : List Expr) :
    (listMapTables f es).length = es.length := by
  rw [listMapTables_eq_map, List.length_map]

@[simp] theorem isEmpty_listMapTables (f : TableId → TableId) (es : List Expr) :
    (listMapTables f es).isEmpty = es.isEmpty := by
  cases es <;> rfl

/-! ### Counting from one -/

theorem nextPlace_mapTables (f : TableId → TableId) (e : Expr) : (e.mapTables f).nextPlace = e.nextPlace.mapTables f := by
  fun_cases nextPlace e with
  | case1 n => rfl
  | case2 l => simp [mapTables, nextPlace]
  | case3 l n hn => simp [mapTables, nextPlace, hn, int]
  | case4 e hinteger hsub =>
    rw [nextPlace]
    · rfl
    · cases e <;> simp_all [mapTables]
    · cases e <;> simp_all [mapTables]

theorem Confined.nextPlace {e : Expr} (h : e.Confined P) : e.nextPlace.Confined P := by
  fun_cases Expr.nextPlace e with
  | case1 n => trivial
  | case2 l => exact h.1
  | case3 l n hn => exact ⟨⟨h.1, trivial⟩, trivial⟩
  | case4 e => exact ⟨h, trivial⟩

theorem oneBasedArgs_map (f : TableId → TableId) (function : Function) (args : List Expr) :
    oneBasedArgs function (listMapTables f args) = listMapTables f (oneBasedArgs function args) := by
  fun_cases oneBasedArgs function args with
  | case1 s start count => simp [listMapTables, oneBasedArgs, nextPlace_mapTables]
  | case2 function args hargs =>
    rw [oneBasedArgs]
    rintro s start count rfl heq
    rcases args with _ | ⟨a, _ | ⟨b, _ | ⟨c, _ | ⟨d, args⟩⟩⟩⟩ <;> simp [listMapTables] at heq
    exact hargs a b c rfl rfl

mutual

theorem oneBased_mapTables (f : TableId → TableId) (e : Expr) : (e.mapTables f).oneBased = e.oneBased.mapTables f := by
  cases e with
  | parameter name default raw => simp only [mapTables, oneBased, optionOneBased_map f default]
  | list items => simp only [mapTables, oneBased, listOneBased_map f items]
  | comparison op l r => simp only [mapTables, oneBased, oneBased_mapTables f l, oneBased_mapTables f r]
  | like l p negated => simp only [mapTables, oneBased, oneBased_mapTables f l, oneBased_mapTables f p]
  | between l low high negated table =>
    simp only [mapTables, oneBased, oneBased_mapTables f l, oneBased_mapTables f low, oneBased_mapTables f high]
  | inList l items negated table => simp only [mapTables, oneBased, oneBased_mapTables f l, listOneBased_map f items]
  | is l operand => simp only [mapTables, oneBased, oneBased_mapTables f l]
  | arithmetic op l r => simp only [mapTables, oneBased, oneBased_mapTables f l, oneBased_mapTables f r]
  | negate e => simp only [mapTables, oneBased, oneBased_mapTables f e]
  | not e => simp only [mapTables, oneBased, oneBased_mapTables f e]
  | logical op l r => simp only [mapTables, oneBased, oneBased_mapTables f l, oneBased_mapTables f r]
  | call function args => simp only [mapTables, oneBased, listOneBased_map f args, oneBasedArgs_map]
  | literal value => rfl
  | object value => rfl
  | property p => rfl
  | allProperties table extended => rfl
  | pattern value => rfl

theorem optionOneBased_map (f : TableId → TableId) (e : Option Expr) :
    optionOneBased (optionMapTables f e) = optionMapTables f (optionOneBased e) := by
  cases e with
  | none => rfl
  | some e => simp only [optionMapTables, optionOneBased, oneBased_mapTables f e]

theorem listOneBased_map (f : TableId → TableId) (es : List Expr) :
    listOneBased (listMapTables f es) = listMapTables f (listOneBased es) := by
  cases es with
  | nil => rfl
  | cons e es => simp only [listMapTables, listOneBased, oneBased_mapTables f e, listOneBased_map f es]

end

theorem ListConfined.oneBasedArgs {args : List Expr} (h : ListConfined P args) (function : Function) :
    ListConfined P (oneBasedArgs function args) := by
  fun_cases Expr.oneBasedArgs function args with
  | case1 s start count => exact ⟨h.1, h.2.1.nextPlace, h.2.2⟩
  | case2 => exact h

mutual

theorem Confined.oneBased (e : Expr) (h : e.Confined P) : e.oneBased.Confined P := by
  cases e with
  | parameter name default raw => exact OptionConfined.optionOneBased default h
  | list items => exact ListConfined.listOneBased items h
  | comparison op l r => exact ⟨Confined.oneBased l h.1, Confined.oneBased r h.2⟩
  | like l p negated => exact ⟨Confined.oneBased l h.1, Confined.oneBased p h.2⟩
  | between l low high negated table =>
    exact ⟨Confined.oneBased l h.1, Confined.oneBased low h.2.1, Confined.oneBased high h.2.2.1, h.2.2.2⟩
  | inList l items negated table => exact ⟨Confined.oneBased l h.1, ListConfined.listOneBased items h.2.1, h.2.2⟩
  | is l operand => exact Confined.oneBased l h
  | arithmetic op l r => exact ⟨Confined.oneBased l h.1, Confined.oneBased r h.2⟩
  | negate e => exact Confined.oneBased e h
  | not e => exact Confined.oneBased e h
  | logical op l r => exact ⟨Confined.oneBased l h.1, Confined.oneBased r h.2⟩
  | call function args => exact (ListConfined.listOneBased args h).oneBasedArgs function
  | literal value => trivial
  | object value => exact h
  | property p => exact h
  | allProperties table extended => exact h
  | pattern value => trivial

theorem OptionConfined.optionOneBased (e : Option Expr) (h : OptionConfined P e) :
    OptionConfined P (optionOneBased e) := by
  cases e with
  | none => trivial
  | some e => exact Confined.oneBased e h

theorem ListConfined.listOneBased (es : List Expr) (h : ListConfined P es) : ListConfined P (listOneBased es) := by
  cases es with
  | nil => trivial
  | cons e es => exact ⟨Confined.oneBased e h.1, ListConfined.listOneBased es h.2⟩

end

/-! ### Value lists -/

section
variable (hf : ∀ a, P a → ∀ b, P b → f a = f b → a = b)

/-- A property of the renamed table. -/
def movedProperty (f : TableId → TableId) (p : PropertyRef) : PropertyRef :=
  { p with table := f p.table }

theorem equality?_mapTables (f : TableId → TableId) (e : Expr) :
    (e.mapTables f).equality? = e.equality?.map fun found => (movedProperty f found.1, found.2.mapTables f) := by
  fun_cases equality? e with
  | case1 p value hvalue => simp [mapTables, equality?, hvalue, movedProperty]
  | case2 p value hvalue => simp [mapTables, equality?, hvalue]
  | case3 e hne =>
    rw [equality?]
    · rfl
    · cases e with
      | comparison op l r =>
        simp only [mapTables, comparison.injEq]
        rintro p value ⟨rfl, hl, -⟩
        cases l <;> simp_all [mapTables]
      | _ => simp [mapTables]

theorem confined_of_equality? {e value : Expr} {p : PropertyRef} (h : e.equality? = some (p, value))
    (he : e.Confined P) : P p.table ∧ value.Confined P := by
  fun_cases equality? e with
  | case1 q v hv =>
    rw [equality?, if_pos hv] at h
    cases h
    exact he
  | case2 q v hv => simp [equality?, hv] at h
  | case3 e hne =>
    rw [equality?] at h
    · cases h
    · exact hne

include hf

theorem movedProperty_inj {p p' : PropertyRef} (hp : P p.table) (hp' : P p'.table) :
    movedProperty f p = movedProperty f p' ↔ p = p' := by
  refine ⟨fun heq => ?_, congrArg _⟩
  rw [movedProperty, movedProperty, PropertyRef.mk.injEq] at heq
  cases p
  cases p'
  rw [PropertyRef.mk.injEq]
  exact ⟨hf _ hp _ hp' heq.1, heq.2⟩

theorem valuesOf_map {p : PropertyRef} {terms : List Expr} (hp : P p.table) (hterms : ∀ t ∈ terms, t.Confined P) :
    valuesOf (movedProperty f p) (terms.map (mapTables f)) = (valuesOf p terms).map (mapTables f) := by
  rw [valuesOf, valuesOf, List.filterMap_map, List.map_filterMap]
  refine List.filterMap_congr fun t ht => ?_
  rw [Function.comp_apply, equality?_mapTables]
  cases hfound : t.equality? with
  | none => rfl
  | some found =>
    have hconfined := confined_of_equality? hfound (hterms t ht)
    simp only [Option.map_some, Option.bind_some, movedProperty_inj hf hconfined.1 hp]
    split <;> rfl

theorem groupTerms_map {all rest : List Expr} (done : List PropertyRef) (hall : ∀ t ∈ all, t.Confined P)
    (hrest : ∀ t ∈ rest, t.Confined P) (hdone : ∀ p ∈ done, P p.table) :
    groupTerms (all.map (mapTables f)) (done.map (movedProperty f)) (rest.map (mapTables f))
      = (groupTerms all done rest).map (mapTables f) := by
  induction rest generalizing done with
  | nil => rfl
  | cons term rest ih =>
    rw [List.forall_mem_cons] at hrest
    rw [List.map_cons, groupTerms, groupTerms, equality?_mapTables]
    cases hfound : term.equality? with
    | none => simp only [Option.map_none, ih done hrest.2 hdone, List.map_cons]
    | some found =>
      obtain ⟨p, value⟩ := found
      have hp := (confined_of_equality? hfound hrest.1).1
      have hcontains : (done.map (movedProperty f)).contains (movedProperty f p) = done.contains p := by
        rw [Bool.eq_iff_iff, List.contains_iff_mem, List.contains_iff_mem, List.mem_map]
        constructor
        · rintro ⟨other, hother, heq⟩
          rwa [← (movedProperty_inj hf (hdone other hother) hp).mp heq]
        · exact fun hmem => ⟨p, hmem, rfl⟩
      simp only [Option.map_some, valuesOf_map hf hp hall, List.length_map, hcontains, ih done hrest.2 hdone]
      split
      · rw [List.map_cons]
      · split
        · rfl
        · have hnext := ih (p :: done) hrest.2 (List.forall_mem_cons.mpr ⟨hp, hdone⟩)
          rw [List.map_cons] at hnext
          rw [hnext, List.map_cons, mapTables, listMapTables_eq_map]
          rfl

end

theorem confined_groupTerms {all rest : List Expr} (done : List PropertyRef) (hall : ∀ t ∈ all, t.Confined P)
    (hrest : ∀ t ∈ rest, t.Confined P) : ∀ t ∈ groupTerms all done rest, t.Confined P := by
  intro t ht
  rcases mem_groupTerms ht with ht | ⟨p, value, hmem, -, rfl⟩
  · exact hrest t ht
  · exact ⟨(hrest _ hmem).1, listConfined_iff.mpr fun v hv => (hall _ (mem_valuesOf hv)).2, nofun⟩

theorem foldl_logical_map (f : TableId → TableId) (op : LogicalOp) (e : Expr) (es : List Expr) :
    (es.map (mapTables f)).foldl (logical op) (e.mapTables f) = (es.foldl (logical op) e).mapTables f := by
  induction es generalizing e with
  | nil => rfl
  | cons x es ih => exact ih (logical op e x)

theorem joinAll_map (f : TableId → TableId) (op : LogicalOp) (es : List Expr) :
    joinAll op (es.map (mapTables f)) = (joinAll op es).map (mapTables f) := by
  cases es with
  | nil => rfl
  | cons e es => exact congrArg some (foldl_logical_map f op e es)

theorem confined_regroup {terms : List Expr} (h : ∀ t ∈ terms, t.Confined P) : (regroup terms).Confined P := by
  rw [regroup]
  cases hjoined : anyOf (groupTerms terms [] terms) with
  | none => trivial
  | some e => exact (confined_joinAll hjoined).mpr (confined_groupTerms [] h h)

mutual

theorem Confined.orTerms (e : Expr) (h : e.Confined P) : ∀ t ∈ e.orTerms, t.Confined P := by
  cases e with
  | logical op l r =>
    cases op with
    | or => exact List.forall_mem_append.mpr ⟨Confined.orTerms l h.1, Confined.orTerms r h.2⟩
    | and =>
      refine List.forall_mem_singleton.mpr ⟨?_, ?_⟩
      · exact confined_regroup (Confined.orTerms l h.1)
      · exact confined_regroup (Confined.orTerms r h.2)
  | parameter name default raw => exact List.forall_mem_singleton.mpr (OptionConfined.optionCollapse default h)
  | list items => exact List.forall_mem_singleton.mpr (ListConfined.listCollapse items h)
  | comparison op l r =>
    refine List.forall_mem_singleton.mpr ⟨?_, ?_⟩
    · exact confined_regroup (Confined.orTerms l h.1)
    · exact confined_regroup (Confined.orTerms r h.2)
  | like l p negated =>
    refine List.forall_mem_singleton.mpr ⟨?_, ?_⟩
    · exact confined_regroup (Confined.orTerms l h.1)
    · exact confined_regroup (Confined.orTerms p h.2)
  | between l low high negated table =>
    refine List.forall_mem_singleton.mpr ⟨?_, ?_, ?_, h.2.2.2⟩
    · exact confined_regroup (Confined.orTerms l h.1)
    · exact confined_regroup (Confined.orTerms low h.2.1)
    · exact confined_regroup (Confined.orTerms high h.2.2.1)
  | inList l items negated table =>
    refine List.forall_mem_singleton.mpr ⟨?_, ListConfined.listCollapse items h.2.1, h.2.2⟩
    exact confined_regroup (Confined.orTerms l h.1)
  | is l operand => exact List.forall_mem_singleton.mpr (confined_regroup (Confined.orTerms l h))
  | arithmetic op l r =>
    refine List.forall_mem_singleton.mpr ⟨?_, ?_⟩
    · exact confined_regroup (Confined.orTerms l h.1)
    · exact confined_regroup (Confined.orTerms r h.2)
  | negate e => exact List.forall_mem_singleton.mpr (confined_regroup (Confined.orTerms e h))
  | not e => exact List.forall_mem_singleton.mpr (confined_regroup (Confined.orTerms e h))
  | call function args => exact List.forall_mem_singleton.mpr (ListConfined.listCollapse args h)
  | literal value => exact List.forall_mem_singleton.mpr trivial
  | object value => exact List.forall_mem_singleton.mpr h
  | property p => exact List.forall_mem_singleton.mpr h
  | allProperties table extended => exact List.forall_mem_singleton.mpr h
  | pattern value => exact List.forall_mem_singleton.mpr trivial

theorem OptionConfined.optionCollapse (e : Option Expr) (h : OptionConfined P e) : OptionConfined P (optionCollapse e) := by
  cases e with
  | none => trivial
  | some e => exact confined_regroup (Confined.orTerms e h)

theorem ListConfined.listCollapse (es : List Expr) (h : ListConfined P es) : ListConfined P (listCollapse es) := by
  cases es with
  | nil => trivial
  | cons e es => exact ⟨confined_regroup (Confined.orTerms e h.1), ListConfined.listCollapse es h.2⟩

end

theorem Confined.collapseIn {e : Expr} (h : e.Confined P) : e.collapseIn.Confined P :=
  confined_regroup (Confined.orTerms e h)

section
variable (hf : ∀ a, P a → ∀ b, P b → f a = f b → a = b)
include hf

theorem regroup_map {terms : List Expr} (h : ∀ t ∈ terms, t.Confined P) :
    regroup (terms.map (mapTables f)) = (regroup terms).mapTables f := by
  have hgroup := groupTerms_map hf [] h h nofun
  rw [List.map_nil] at hgroup
  rw [regroup, regroup, hgroup, anyOf, joinAll_map, anyOf]
  cases joinAll .or (groupTerms terms [] terms) <;> rfl

theorem regroup_orTerms_map (e : Expr) (h : e.Confined P) (heq : (e.mapTables f).orTerms = e.orTerms.map (mapTables f)) :
    regroup (e.mapTables f).orTerms = (regroup e.orTerms).mapTables f := by
  rw [heq, regroup_map hf (Confined.orTerms e h)]

mutual

theorem orTerms_mapTables (e : Expr) (h : e.Confined P) : (e.mapTables f).orTerms = e.orTerms.map (mapTables f) := by
  cases e with
  | logical op l r =>
    cases op with
    | or => rw [mapTables, orTerms, orTerms, orTerms_mapTables l h.1, orTerms_mapTables r h.2, List.map_append]
    | and =>
      rw [mapTables, orTerms, orTerms, regroup_orTerms_map hf l h.1 (orTerms_mapTables l h.1),
        regroup_orTerms_map hf r h.2 (orTerms_mapTables r h.2)]
      rfl
  | parameter name default raw =>
    rw [mapTables, orTerms, orTerms, optionCollapse_map default h]
    rfl
  | list items =>
    rw [mapTables, orTerms, orTerms, listCollapse_map items h]
    rfl
  | comparison op l r =>
    rw [mapTables, orTerms, orTerms, regroup_orTerms_map hf l h.1 (orTerms_mapTables l h.1),
      regroup_orTerms_map hf r h.2 (orTerms_mapTables r h.2)]
    rfl
  | like l p negated =>
    rw [mapTables, orTerms, orTerms, regroup_orTerms_map hf l h.1 (orTerms_mapTables l h.1),
      regroup_orTerms_map hf p h.2 (orTerms_mapTables p h.2)]
    rfl
  | between l low high negated table =>
    rw [mapTables, orTerms, orTerms, regroup_orTerms_map hf l h.1 (orTerms_mapTables l h.1),
      regroup_orTerms_map hf low h.2.1 (orTerms_mapTables low h.2.1),
      regroup_orTerms_map hf high h.2.2.1 (orTerms_mapTables high h.2.2.1)]
    rfl
  | inList l items negated table =>
    rw [mapTables, orTerms, orTerms, regroup_orTerms_map hf l h.1 (orTerms_mapTables l h.1),
      listCollapse_map items h.2.1]
    rfl
  | is l operand =>
    rw [mapTables, orTerms, orTerms, regroup_orTerms_map hf l h (orTerms_mapTables l h)]
    rfl
  | arithmetic op l r =>
    rw [mapTables, orTerms, orTerms, regroup_orTerms_map hf l h.1 (orTerms_mapTables l h.1),
      regroup_orTerms_map hf r h.2 (orTerms_mapTables r h.2)]
    rfl
  | negate e =>
    rw [mapTables, orTerms, orTerms, regroup_orTerms_map hf e h (orTerms_mapTables e h)]
    rfl
  | not e =>
    rw [mapTables, orTerms, orTerms, regroup_orTerms_map hf e h (orTerms_mapTables e h)]
    rfl
  | call function args =>
    rw [mapTables, orTerms, orTerms, listCollapse_map args h]
    rfl
  | literal value => rfl
  | object value => rfl
  | property p => rfl
  | allProperties table extended => rfl
  | pattern value => rfl

theorem optionCollapse_map (e : Option Expr) (h : OptionConfined P e) :
    optionCollapse (optionMapTables f e) = optionMapTables f (optionCollapse e) := by
  cases e with
  | none => rfl
  | some e =>
    rw [optionMapTables, optionCollapse, regroup_orTerms_map hf e h (orTerms_mapTables e h)]
    rfl

theorem listCollapse_map (es : List Expr) (h : ListConfined P es) :
    listCollapse (listMapTables f es) = listMapTables f (listCollapse es) := by
  cases es with
  | nil => rfl
  | cons e es =>
    rw [listMapTables, listCollapse, regroup_orTerms_map hf e h.1 (orTerms_mapTables e h.1), listCollapse_map es h.2]
    rfl

end

theorem collapseIn_mapTables {e : Expr} (h : e.Confined P) : (e.mapTables f).collapseIn = e.collapseIn.mapTables f :=
  regroup_orTerms_map hf e h (orTerms_mapTables hf e h)

end

end ItemQuery.Expr
