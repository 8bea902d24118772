import ItemQuery.Proofs.Sql.Regrouping
import ItemQuery.Proofs.Sql.Writing

/-! Criteria survive being written and read. Grouping the chains of an expression from the left does not change its
    text, and the text of an expression so grouped is read as this expression. -/

namespace ItemQuery.Sql

/-! ### Texts of chains -/

/-- Both sides of an associative operator need parentheses for the same operands. -/
theorem enclose_right (p : Precedence) (e : Expr) (associative : Bool) (shown : String) :
    Expr.enclose p e true true shown = Expr.enclose p e false associative shown := by
  simp only [Expr.enclose, Precedence.needsParens, Bool.true_and, Bool.not_true, Bool.and_false, Bool.or_false,
    Bool.false_and]

theorem enclose_same {p : Precedence} {e : Expr} (h : e.precedence = p) (side : Bool) {associative : Bool}
    (hside : side = false ∨ associative = true) (shown : String) : Expr.enclose p e side associative shown = shown := by
  have hparens : p.needsParens e.precedence side associative = false := by
    rcases hside with rfl | rfl <;> simp [Precedence.needsParens, Precedence.weaker, h]
  rw [Expr.enclose, hparens, if_neg Bool.false_ne_true]

section
variable (w : Writer)

theorem asCondition_logical (op : LogicalOp) (l r : Expr) (shown : String) :
    w.asCondition (.logical op l r) shown = shown :=
  rfl

/-- A chain of one connective has the same text however it is grouped. -/
theorem value_attach (op : LogicalOp) (l r : Expr) : w.value (Expr.attach op l r) = w.value (.logical op l r) := by
  induction r using Expr.attach.induct op with
  | case1 m s ih =>
    obtain ⟨a, b, hattach⟩ := Expr.attach_eq_logical op l m
    rw [Expr.attach, if_pos rfl]
    simp only [Writer.value, ih]
    cases w.value l with
    | error e => rfl
    | ok left =>
      cases w.value m with
      | error e => rfl
      | ok middle =>
        cases w.value s with
        | error e => rfl
        | ok right =>
          have hfirst : (Expr.logical op a b).precedence = op.precedence := rfl
          have hlast : (Expr.logical op m s).precedence = op.precedence := rfl
          simp only [bind, Except.bind, pure, Except.pure, Writer.conditionOperand, hattach, asCondition_logical,
            enclose_same hfirst false (Or.inl rfl), enclose_same hlast true (Or.inr rfl)]
          rw [enclose_right op.precedence m true]
          simp only [String.append_assoc]
  | case2 inner m s hne => rw [Expr.attach, if_neg hne]
  | case3 e hne => rw [Expr.attach_of_ne fun m s => hne op m s]

/-- A chain of arithmetic operators of one level has the same text however it is grouped, if its text has no
    parentheses. -/
theorem value_attachArithmetic (op : ArithmeticOp) (l r : Expr) :
    w.value (Expr.attachArithmetic op l r) = w.value (.arithmetic op l r) := by
  induction r using Expr.attachArithmetic.induct op with
  | case1 inner m s h ih =>
    obtain ⟨hassociative, hlevel⟩ := h
    rw [Expr.attachArithmetic, if_pos ⟨hassociative, hlevel⟩]
    simp only [Writer.value, ih]
    cases w.value l with
    | error e => rfl
    | ok left =>
      cases w.value m with
      | error e => rfl
      | ok middle =>
        cases w.value s with
        | error e => rfl
        | ok right =>
          have hfirst := Expr.precedence_attachArithmetic op l m
          rw [← hlevel] at hfirst
          have hlast : (Expr.arithmetic inner m s).precedence = op.precedence := hlevel
          simp only [bind, Except.bind, pure, Except.pure, hassociative, enclose_same hfirst false (Or.inl rfl),
            enclose_same hlast true (Or.inr rfl)]
          rw [enclose_right op.precedence m inner.isAssociative, hlevel]
          simp only [String.append_assoc]
  | case2 inner m s h => rw [Expr.attachArithmetic, if_neg h]
  | case3 e hne => rw [Expr.attachArithmetic]; exact hne

end

/-! ### Grouping -/

section
variable {table : TableId} {names : String → Prop}

theorem Written.attach (op : LogicalOp) {l r : Expr} (hl : Written table names true l) (hr : Written table names true r)
    (hpl : l.isPredicate = true) (hpr : r.isPredicate = true) : Written table names true (Expr.attach op l r) := by
  induction r using Expr.attach.induct op with
  | case1 m s ih =>
    rw [Expr.attach, if_pos rfl]
    cases hr with
    | logical hm hs hpm hps hright => exact .logical (ih hm hpm) hs (Expr.isPredicate_attach op l m) hps hright
  | case2 inner m s hne =>
    rw [Expr.attach, if_neg hne]
    refine .logical hl hr hpl hpr fun _ heq => ?_
    obtain ⟨a, b, hlogical⟩ := Expr.precedence_eq_logical heq
    cases hlogical
    exact hne rfl
  | case3 e hne =>
    rw [Expr.attach_of_ne fun m s => hne op m s]
    refine .logical hl hr hpl hpr fun _ heq => ?_
    obtain ⟨a, b, hlogical⟩ := Expr.precedence_eq_logical heq
    exact hne op a b hlogical

theorem Written.attachArithmetic {op : ArithmeticOp} (hop : op ≠ .concat) {l r : Expr} (hl : Written table names true l)
    (hr : Written table names true r) : Written table names true (Expr.attachArithmetic op l r) := by
  induction r using Expr.attachArithmetic.induct op with
  | case1 inner m s h ih =>
    rw [Expr.attachArithmetic, if_pos h]
    cases hr with
    | arithmetic hinner hm hs hright => exact .arithmetic hinner (ih hm) hs hright
  | case2 inner m s h =>
    rw [Expr.attachArithmetic, if_neg h]
    exact .arithmetic hop hl hr fun _ hassociative heq => h ⟨hassociative, heq⟩
  | case3 e hne =>
    rw [Expr.attachArithmetic]
    · refine .arithmetic hop hl hr fun _ _ heq => ?_
      obtain ⟨inner, a, b, harithmetic⟩ := Expr.precedence_eq_arithmetic heq
      exact hne inner a b harithmetic
    · exact hne

/-- Without recorded tables and with its chains grouped from the left, an expression is strict. -/
theorem Written.leftGrouped {e : Expr} (h : Written table names false e) :
    Written table names true e.withoutTables.leftGrouped := by
  induction h with
  | property h => exact .property h
  | integer h => exact .integer h
  | text s => exact .text s
  | parameter h => exact .parameter h
  | comparison _ _ ihl ihr => exact .comparison ihl ihr
  | like _ hp ihl => exact .like ihl hp
  | between _ _ _ _ ihl ihlow ihhigh => exact .between ihl ihlow ihhigh fun _ => rfl
  | inList _ hne _ _ ihl ihitems =>
    refine .inList ihl ?_ ?_ fun _ => rfl
    · rw [Expr.listLeftGrouped_eq_map, Expr.listWithoutTables_eq_map]
      simpa using hne
    · intro d hd
      rw [Expr.listLeftGrouped_eq_map, Expr.listWithoutTables_eq_map, List.map_map] at hd
      obtain ⟨e, he, rfl⟩ := List.mem_map.mp hd
      exact ihitems e he
  | is _ hoperand ihl => exact .is ihl hoperand
  | arithmetic hop _ _ _ ihl ihr => exact ihl.attachArithmetic hop ihr
  | negate _ ih => exact .negate ih
  | not _ hpredicate ih => exact .not ih (by simpa using hpredicate)
  | logical _ _ hpl hpr _ ihl ihr => exact ihl.attach _ ihr (by simpa using hpl) (by simpa using hpr)

/-- The text of a criterion does not show recorded tables or how chains are grouped. -/
theorem Written.value_leftGrouped {e : Expr} (h : Written table names false e) (w : Writer) :
    w.value e.withoutTables.leftGrouped = w.value e := by
  induction h with
  | property _ | integer _ | text _ | parameter _ => rfl
  | comparison _ _ ihl ihr =>
    simp only [Expr.withoutTables, Expr.leftGrouped, Writer.value, ihl, ihr, Expr.enclose,
      Expr.precedence_leftGrouped, Expr.precedence_withoutTables]
  | like _ _ ihl =>
    simp only [Expr.withoutTables, Expr.leftGrouped, Writer.value, ihl, Expr.enclose, Expr.precedence_leftGrouped,
      Expr.precedence_withoutTables]
  | between _ _ _ _ ihl ihlow ihhigh =>
    simp only [Expr.withoutTables, Expr.leftGrouped, Writer.value, ihl, ihlow, ihhigh, Expr.enclose,
      Expr.precedence_leftGrouped, Expr.precedence_withoutTables]
  | @inList l items negated recorded _ _ _ _ ihl ihitems =>
    have hvalues : w.values (Expr.listLeftGrouped (Expr.listWithoutTables items)) = w.values items := by
      clear * - ihitems
      induction items with
      | nil => rfl
      | cons e items ih =>
        simp only [Expr.listWithoutTables, Expr.listLeftGrouped, Writer.values, ihitems e List.mem_cons_self,
          ih fun d hd => ihitems d (List.mem_cons_of_mem e hd)]
    have hempty : (Expr.listLeftGrouped (Expr.listWithoutTables items)).isEmpty = items.isEmpty := by
      cases items <;> rfl
    simp only [Expr.withoutTables, Expr.leftGrouped, Writer.value, hempty, ihl, hvalues, Expr.enclose,
      Expr.precedence_leftGrouped, Expr.precedence_withoutTables]
  | is _ _ ihl =>
    simp only [Expr.withoutTables, Expr.leftGrouped, Writer.value, ihl, Expr.enclose, Expr.precedence_leftGrouped,
      Expr.precedence_withoutTables]
  | arithmetic _ _ _ _ ihl ihr =>
    rw [Expr.withoutTables, Expr.leftGrouped, value_attachArithmetic]
    simp only [Writer.value, ihl, ihr, Expr.enclose, Expr.precedence_leftGrouped, Expr.precedence_withoutTables]
  | negate _ ih =>
    simp only [Expr.withoutTables, Expr.leftGrouped, Writer.value, ih, Expr.enclose, Expr.precedence_leftGrouped,
      Expr.precedence_withoutTables]
  | not h hpredicate ih =>
    have hgrouped := h.leftGrouped.asCondition (property?_of_isPredicate (by simpa using hpredicate)) w
    simp only [Expr.withoutTables, Expr.leftGrouped, Writer.value, ih, Writer.conditionOperand, hgrouped,
      h.asCondition (property?_of_isPredicate hpredicate), Expr.enclose, Expr.precedence_leftGrouped,
      Expr.precedence_withoutTables]
  | logical hl hr hpl hpr _ ihl ihr =>
    have hleft := hl.leftGrouped.asCondition (property?_of_isPredicate (by simpa using hpl)) w
    have hright := hr.leftGrouped.asCondition (property?_of_isPredicate (by simpa using hpr)) w
    rw [Expr.withoutTables, Expr.leftGrouped, value_attach]
    simp only [Writer.value, ihl, ihr, Writer.conditionOperand, hleft, hright,
      hl.asCondition (property?_of_isPredicate hpl), hr.asCondition (property?_of_isPredicate hpr), Expr.enclose,
      Expr.precedence_leftGrouped, Expr.precedence_withoutTables]

/-! ### Collected alternatives -/

/-- The alternatives of an expression: one that is like it, or several predicates. -/
def Alternatives (table : TableId) (names : String → Prop) (e : Expr) (terms : List Expr) : Prop :=
  (∃ t, terms = [t] ∧ Written table names false t ∧ t.isPredicate = e.isPredicate ∧ t.property? = e.property?) ∨
    (e.isPredicate = true ∧ terms ≠ [] ∧ ∀ t ∈ terms, Written table names false t ∧ t.isPredicate = true)

/-- Collecting equalities gives predicates again. -/
theorem groupTerms_written {all : List Expr} (hall : ∀ t ∈ all, Written table names false t ∧ t.isPredicate = true)
    (done : List PropertyRef) (rest : List Expr) (hrest : ∀ t ∈ rest, t ∈ all) :
    ∀ t ∈ Expr.groupTerms all done rest, Written table names false t ∧ t.isPredicate = true := by
  intro t ht
  rcases Expr.mem_groupTerms ht with ht | ⟨p, value, hmem, hmany, rfl⟩
  · exact hall t (hrest t ht)
  · have hoperands : ∀ v, .comparison .eq (.property p) v ∈ all →
        Written table names false (.property p) ∧ Written table names false v := by
      intro v hv
      cases (hall _ hv).1 with
      | comparison hp hv => exact ⟨hp, hv⟩
    have hne : Expr.valuesOf p all ≠ [] := List.ne_nil_of_length_pos (Nat.zero_lt_of_lt hmany)
    exact ⟨.inList (hoperands value (hrest _ hmem)).1 hne (fun v hv => (hoperands v (Expr.mem_valuesOf hv)).2) nofun, rfl⟩

theorem foldl_or_written {first : Expr} {rest : List Expr} (hfirst : Written table names false first)
    (hpredicate : first.isPredicate = true) (hrest : ∀ t ∈ rest, Written table names false t ∧ t.isPredicate = true) :
    Written table names false (rest.foldl (.logical .or) first) ∧
      (rest.foldl (.logical .or) first).isPredicate = true := by
  induction rest generalizing first with
  | nil => exact ⟨hfirst, hpredicate⟩
  | cons t rest ih =>
    obtain ⟨ht, htp⟩ := hrest t List.mem_cons_self
    exact ih (.logical hfirst ht hpredicate htp nofun) rfl fun u hu => hrest u (List.mem_cons_of_mem t hu)

/-- The alternatives of a criterion make a criterion. -/
theorem Alternatives.regroup {e : Expr} {terms : List Expr} (h : Alternatives table names e terms) :
    Written table names false (Expr.regroup terms) ∧ (Expr.regroup terms).isPredicate = e.isPredicate ∧
      (Expr.regroup terms).property? = e.property? := by
  rcases h with ⟨t, rfl, ht, hpredicate, hproperty⟩ | ⟨hpredicate, hne, hterms⟩
  · rw [Expr.regroup_singleton]
    exact ⟨ht, hpredicate, hproperty⟩
  · have hgroup := groupTerms_written hterms [] terms fun _ ht => ht
    obtain ⟨first, rest, hcons⟩ := List.exists_cons_of_ne_nil (Expr.groupTerms_ne_nil terms hne)
    rw [hcons] at hgroup
    obtain ⟨hfirst, hfirstPredicate⟩ := hgroup first List.mem_cons_self
    obtain ⟨hwritten, hresult⟩ :=
      foldl_or_written hfirst hfirstPredicate fun t ht => hgroup t (List.mem_cons_of_mem first ht)
    have hregroup : Expr.regroup terms = rest.foldl (.logical .or) first := by
      rw [Expr.regroup, hcons]
      rfl
    rw [hregroup]
    refine ⟨hwritten, by rw [hresult, hpredicate], ?_⟩
    rw [property?_of_isPredicate hresult, property?_of_isPredicate hpredicate]

/-- An alternative by itself. -/
theorem alternatives_single {e t : Expr} (h : Written table names false t) (hpredicate : t.isPredicate = e.isPredicate)
    (hproperty : t.property? = e.property?) : Alternatives table names e [t] :=
  Or.inl ⟨t, rfl, h, hpredicate, hproperty⟩

theorem Alternatives.all {e : Expr} {terms : List Expr} (h : Alternatives table names e terms)
    (hpredicate : e.isPredicate = true) :
    terms ≠ [] ∧ ∀ t ∈ terms, Written table names false t ∧ t.isPredicate = true := by
  rcases h with ⟨t, rfl, ht, htp, -⟩ | ⟨-, hne, hterms⟩
  · refine ⟨List.cons_ne_nil _ _, fun u hu => ?_⟩
    rw [List.mem_singleton.mp hu]
    exact ⟨ht, by rw [htp, hpredicate]⟩
  · exact ⟨hne, hterms⟩

theorem Written.alternatives {e : Expr} (h : Written table names false e) : Alternatives table names e e.orTerms := by
  induction h with
  | property h => exact alternatives_single (.property h) rfl rfl
  | integer h => exact alternatives_single (.integer h) rfl rfl
  | text s => exact alternatives_single (.text s) rfl rfl
  | parameter h => exact alternatives_single (.parameter h) rfl rfl
  | comparison _ _ ihl ihr => exact alternatives_single (.comparison ihl.regroup.1 ihr.regroup.1) rfl rfl
  | @like l p negated value _ hp ihl =>
    have hpattern : Expr.regroup (Expr.pattern p).orTerms = .pattern p := by
      rw [Expr.orTerms, Expr.regroup_singleton]
    rw [Expr.orTerms, hpattern]
    exact alternatives_single (.like ihl.regroup.1 hp) rfl rfl
  | between _ _ _ hrecorded ihl ihlow ihhigh =>
    exact alternatives_single (.between ihl.regroup.1 ihlow.regroup.1 ihhigh.regroup.1 hrecorded) rfl rfl
  | @inList l items negated recorded _ hne _ hrecorded ihl ihitems =>
    have hmap : Expr.listCollapse items = items.map Expr.collapseIn := by
      clear * -
      induction items with
      | nil => rfl
      | cons e items ih => rw [Expr.listCollapse, ih, List.map_cons, Expr.collapseIn]
    rw [Expr.orTerms, hmap]
    refine alternatives_single (.inList ihl.regroup.1 (by simpa using hne) (fun d hd => ?_) hrecorded) rfl rfl
    obtain ⟨e, he, rfl⟩ := List.mem_map.mp hd
    exact (ihitems e he).regroup.1
  | is _ hoperand ihl => exact alternatives_single (.is ihl.regroup.1 hoperand) rfl rfl
  | arithmetic hop _ _ _ ihl ihr =>
    exact alternatives_single (.arithmetic hop ihl.regroup.1 ihr.regroup.1 (by simp)) rfl rfl
  | negate _ ih => exact alternatives_single (.negate ih.regroup.1) rfl rfl
  | not _ hpredicate ih =>
    exact alternatives_single (.not ih.regroup.1 (by rw [ih.regroup.2.1, hpredicate])) rfl rfl
  | @logical op l r _ _ hpl hpr _ ihl ihr =>
    cases op with
    | and =>
      have hleft : (Expr.regroup l.orTerms).isPredicate = true := by rw [ihl.regroup.2.1, hpl]
      have hright : (Expr.regroup r.orTerms).isPredicate = true := by rw [ihr.regroup.2.1, hpr]
      exact alternatives_single (.logical ihl.regroup.1 ihr.regroup.1 hleft hright (by simp)) rfl rfl
    | or =>
      obtain ⟨hne, hl⟩ := ihl.all hpl
      obtain ⟨-, hr⟩ := ihr.all hpr
      rw [Expr.orTerms]
      refine Or.inr ⟨rfl, by simp [hne], fun t ht => ?_⟩
      rcases List.mem_append.mp ht with ht | ht
      · exact hl t ht
      · exact hr t ht

/-- Nothing in a criterion is counted from one. -/
theorem Written.oneBased {e : Expr} (h : Written table names false e) : e.oneBased = e := by
  induction h with
  | @inList l items negated recorded _ _ _ _ ihl ihitems =>
    have hitems : Expr.listOneBased items = items := by
      clear * - ihitems
      induction items with
      | nil => rfl
      | cons e items ih =>
        rw [Expr.listOneBased, ihitems e List.mem_cons_self, ih fun d hd => ihitems d (List.mem_cons_of_mem e hd)]
    rw [Expr.oneBased, ihl, hitems]
  | property _ | integer _ | text _ | parameter _ => rfl
  | comparison _ _ ihl ihr => rw [Expr.oneBased, ihl, ihr]
  | like _ _ ihl => rw [Expr.oneBased, ihl, Expr.oneBased]
  | between _ _ _ _ ihl ihlow ihhigh => rw [Expr.oneBased, ihl, ihlow, ihhigh]
  | is _ _ ihl => rw [Expr.oneBased, ihl]
  | arithmetic _ _ _ _ ihl ihr => rw [Expr.oneBased, ihl, ihr]
  | negate _ ih => rw [Expr.oneBased, ih]
  | not _ _ ih => rw [Expr.oneBased, ih]
  | logical _ _ _ _ _ ihl ihr => rw [Expr.oneBased, ihl, ihr]

end

/-! ### Queries -/

/-- The root is joined to nothing and has an alias of letters. -/
structure RootOnly (q : Query) (called : String) : Prop where
  found : ∃ item, q.get? q.root = some item ∧ item.joins = [] ∧ item.aliasName = some called
  ne_empty : called ≠ ""
  letters : ∀ c ∈ called.toList, c.isAlpha = true

section
variable {q : Query} {called : String} (h : RootOnly q called)
include h

theorem RootOnly.ofQuery (ctx : Context) : Aliases.ofQuery ctx q = .ok [(q.root, called)] := by
  obtain ⟨item, hitem, hjoins, halias⟩ := h.found
  have hwalk : q.walk = [q.root] := by
    simp only [Query.walk, Query.walkFrom, List.contains_nil, Bool.false_eq_true, if_false, hitem, hjoins,
      List.map_nil, List.foldl_nil, List.nil_append]
  have hfound : q.item q.root = .ok item := by
    rw [Query.item, hitem]
  rw [Aliases.ofQuery, hwalk]
  simp only [List.foldlM, Aliases.add, hfound, bind, Except.bind, pure, Except.pure, halias, Option.getD_some,
    freshName, Aliases.isTaken, List.any_nil, Bool.not_false, Option.isSome_some, Bool.true_or, Bool.and_self, if_true,
    List.nil_append]

/-- The writer of a query whose root is alone. -/
theorem RootOnly.make (ctx : Context) (dialect : Dialect) :
    Writer.make ctx q dialect = .ok ⟨ctx, q, dialect, [(q.root, called)]⟩ := by
  rw [Writer.make, h.ofQuery]
  rfl

theorem RootOnly.agree {names : String → Prop} (ctx : Context) (hplain : ∀ name, names name → IsPlain name)
    (hplaceholder : ∀ name, names name →
      Writer.value ⟨ctx, q, .sqlServer, [(q.root, called)]⟩ (.parameter (.named name) none false) = .ok ("@" ++ name)) :
    Agree ⟨ctx, q, .sqlServer, [(q.root, called)]⟩ (.ofTable q q.root) names := by
  have hname : Aliases.name [(q.root, called)] q.root = called := by
    simp [Aliases.name]
  have howns : (Scope.ofTable q q.root).owns called = true := by
    obtain ⟨item, hitem, -, halias⟩ := h.found
    simp [Scope.owns, Scope.ofTable, hitem, halias]
  refine ⟨rfl, ?_, ?_, ?_, hplain, hplaceholder⟩
  · intro hnil
    rw [Scope.ofTable, hname] at hnil
    exact h.ne_empty (String.toList_eq_nil_iff.mp hnil)
  · rw [Scope.ofTable, hname]
    exact h.letters
  · rw [← hname] at howns
    exact howns

end

/-- The text of an expression is read as the expression without recorded tables and with its chains grouped. -/
theorem Written.parseWhere {w : Writer} {q : Query} {table : TableId} {names : String → Prop} {e : Expr}
    (he : Written table names false e) (h : Agree w (.ofTable q table) names) :
    ∃ s, w.value e = .ok s ∧ parseWhere q table s = .ok e.withoutTables.leftGrouped := by
  obtain ⟨s, ps, hs⟩ := Written.told h he.leftGrouped
  refine ⟨s, by rw [← he.value_leftGrouped w, hs.value], ?_⟩
  exact parseWhere_of_reads hs.conveys.prints.scanned hs.conveys.spoken hs.conveys.reads

/-- A criterion that is written as SQL and read again comes back with its equalities collected, without recorded
    tables, and with every chain of one connective grouped from the left. -/
theorem parseWhere_renderExpr (ctx : Context) {q : Query} {called : String} {e : Expr} (hq : RootOnly q called)
    (hbound : ctx.settings.parameters.entries = []) (hdeclared : q.parameters = [])
    (he : Written q.root IsPlain false e) (hproperty : e.property? = none) :
    ∃ s, renderExpr ctx q .sqlServer e = .ok s ∧
      parseWhere q q.root s = .ok e.collapseIn.withoutTables.leftGrouped := by
  obtain ⟨hcollapsed, -, hkept⟩ := he.alternatives.regroup
  have hagree := hq.agree ctx (fun _ => id) fun name _ => value_parameter rfl hbound hdeclared name
  obtain ⟨s, hs, hread⟩ := hcollapsed.parseWhere hagree
  refine ⟨s, ?_, hread⟩
  have hcondition := hcollapsed.asCondition (hkept.trans hproperty) ⟨ctx, q, .sqlServer, [(q.root, called)]⟩ s
  rw [renderExpr, hq.make]
  simp only [bind, Except.bind, Writer.condition, Expr.collapseIn, hcollapsed.oneBased, hs, Except.map, hcondition]

/-- A query of parts, which are called `p`. -/
def parts : Query :=
  .ofItem { typeName := some "Part", aliasName := some "p" }

theorem rootOnly_parts : RootOnly parts "p" :=
  ⟨⟨_, rfl, rfl, rfl⟩, by decide, List.all_eq_true.mp (by decide)⟩

/-- Two equalities are collected, a recorded table is dropped, and the alternatives are grouped from the left. -/
theorem parseWhere_renderExpr_alternatives :
    ∃ s, renderExpr {} parts .sqlServer
        (.or (.comparison .eq (.prop parts.root "state") (.text "it's"))
          (.or (.between (.prop parts.root "index") (.int 0) (.parameter (.named "most") none false) true
              (some parts.root))
            (.or (.comparison .eq (.prop parts.root "state") (.text "new"))
              (.not (.is (.prop parts.root "my name") .null))))) = .ok s ∧
      parseWhere parts parts.root s = .ok
        (.or
          (.or (.inList (.prop parts.root "state") [.text "it's", .text "new"] false none)
            (.between (.prop parts.root "index") (.int 0) (.parameter (.named "most") none false) true none))
          (.not (.is (.prop parts.root "my name") .null))) := by
  have hstate : Written parts.root IsPlain false (.prop parts.root "state") := .property (by decide)
  have hindex : Written parts.root IsPlain false (.prop parts.root "index") := .property (by decide)
  have hname : Written parts.root IsPlain false (.prop parts.root "my name") := .property (by decide)
  have hmost : Written parts.root IsPlain false (.parameter (.named "most") none false) :=
    .parameter (List.all_eq_true.mp (by decide))
  have hzero : Written parts.root IsPlain false (.int 0) := .integer (by decide)
  refine parseWhere_renderExpr {} rootOnly_parts rfl rfl ?_ rfl
  refine .logical (.comparison hstate (.text _)) ?_ rfl rfl nofun
  refine .logical (.between hindex hzero hmost nofun) ?_ rfl rfl nofun
  exact .logical (.comparison hstate (.text _)) (.not (.is hname (Or.inl rfl)) rfl) rfl rfl nofun

end ItemQuery.Sql
