import ItemQuery.Proofs.Sql.Renaming

/-! The statement of a copy. Tables are named in the order in which they are reached, which is that of the original, so
    each copy is called as its original; with that, every part of the statement is the same. -/

namespace ItemQuery.Sql

open Result

namespace Writer

/-- A writer for the same query with other handles. -/
structure Renames (w w' : Writer) (f : TableId → TableId) : Prop where
  ctx : w'.ctx = w.ctx
  dialect : w'.dialect = w.dialect
  query : w.query.Renames w'.query f
  rooted : w.query.Rooted
  rooted' : w'.query.Rooted
  live : w.query.contains w.query.root = true
  enclosed : w.query.Enclosed
  aliases : w'.aliases = w.aliases.map fun entry => (f entry.1, entry.2)
  named : ∀ entry ∈ w.aliases, entry.1 ∈ w.query.walk

variable {w w' : Writer} {f : TableId → TableId} {t : TableId}

namespace Renames

variable (h : w.Renames w' f)
include h

/-! ### Expressions -/

theorem name_eq (ht : t ∈ w.query.walk) : w'.aliases.name (f t) = w.aliases.name t := by
  have hfind : ∀ entries : Aliases, (∀ entry ∈ entries, entry.1 ∈ w.query.walk) →
      Aliases.name (entries.map fun entry => (f entry.1, entry.2)) (f t) = Aliases.name entries t := by
    intro entries hentries
    induction entries with
    | nil => rfl
    | cons entry entries ih =>
      rw [List.forall_mem_cons] at hentries
      have hsame : (f entry.1 == f t) = (entry.1 == t) := by
        rw [Bool.eq_iff_iff, beq_iff_eq, beq_iff_eq]
        exact ⟨h.query.injective _ hentries.1 t ht, congrArg f⟩
      rw [List.map_cons, Aliases.name, Aliases.name, List.find?_cons, List.find?_cons, hsame]
      cases entry.1 == t with
      | true => rfl
      | false => exact ih hentries.2
  rw [h.aliases, hfind w.aliases h.named]

theorem column_eq {p : PropertyRef} (hp : p.table ∈ w.query.walk) : w'.column (Expr.movedProperty f p) = w.column p := by
  rw [column, column, Expr.movedProperty, h.name_eq hp, h.dialect]

theorem tableTypeName_eq (ht : t ∈ w.query.walk) :
    w'.ctx.tableTypeName w'.query (f t) = w.ctx.tableTypeName w.query t := by
  rw [h.ctx, Context.tableTypeName_eq h.query h.rooted h.live h.enclosed ht]

theorem coerce_eq {o : ObjectLiteral} (ho : ∀ p, o.property = some p → p.table ∈ w.query.walk) :
    w'.ctx.coerce w'.query { o with property := o.property.map (Expr.movedProperty f) } = w.ctx.coerce w.query o := by
  cases hp : o.property with
  | none => simp [Context.coerce, hp]
  | some p =>
    have htype : w'.ctx.dataType? w'.query (Expr.movedProperty f p) = w.ctx.dataType? w.query p := by
      rw [Context.dataType?, Context.descriptor?, Expr.movedProperty, h.tableTypeName_eq (ho p hp), h.ctx]
      rfl
    simp only [Context.coerce, hp, Option.map_some, Option.bind_some, htype]
    cases w.ctx.dataType? w.query p <;> rfl

theorem parameter_eq (name : ParamName) (raw : Bool) (default : Option String) :
    w'.parameter name raw default = w.parameter name raw default := by
  simp only [parameter, h.ctx, h.dialect, h.query.parameters]

omit h in
theorem soughtText?_mapTables (e : Expr) : soughtText? (e.mapTables f) = soughtText? e := by
  cases e with
  | literal value => cases value <;> rfl
  | _ => rfl

theorem stringTest_eq (function : Function) (subject sought : Expr) (subjectText soughtText : String) :
    w'.stringTest function (subject.mapTables f) (sought.mapTables f) subjectText soughtText
      = w.stringTest function subject sought subjectText soughtText := by
  simp only [stringTest, soughtText?_mapTables, Expr.enclose_mapTables, h.dialect]

theorem call_eq (function : Function) (args : List Expr) (shown : List String) :
    w'.call function (Expr.listMapTables f args) shown = w.call function args shown := by
  unfold call
  split
  · match args, shown with
    | [subject, sought], [subjectText, soughtText] => exact h.stringTest_eq function subject sought subjectText soughtText
    | [], _ => rfl
    | [_], _ => rfl
    | _ :: _ :: _ :: _, _ => rfl
    | [_, _], [] => rfl
    | [_, _], [_] => rfl
    | [_, _], _ :: _ :: _ :: _ => rfl
  · rw [h.dialect]

theorem asCondition_eq (e : Expr) (shown : String) : w'.asCondition (e.mapTables f) shown = w.asCondition e shown := by
  cases e with
  | literal l =>
    cases l with
    | bool b => cases b <;> rfl
    | _ => rfl
  | property p => simp only [Expr.mapTables, asCondition, h.dialect]
  | _ => rfl

theorem conditionOperand_eq (parent : Precedence) (e : Expr) (rightSide : Bool) (shown : String) :
    w'.conditionOperand parent (e.mapTables f) rightSide shown = w.conditionOperand parent e rightSide shown := by
  rw [conditionOperand, conditionOperand, h.asCondition_eq, Expr.enclose_mapTables]

theorem arithmeticSymbol_eq (op : ArithmeticOp) : w'.arithmeticSymbol op = w.arithmeticSymbol op := by
  cases op <;> simp only [arithmeticSymbol, h.dialect]

omit h in
theorem testArity_eq (function : Function) (args : List Expr) :
    testArity function (Expr.listMapTables f args) = testArity function args := by
  rw [testArity, Expr.length_listMapTables, testArity]

end Renames

mutual

theorem Renames.value_eq (h : w.Renames w' f) (e : Expr) (he : e.Confined (· ∈ w.query.walk)) :
    w'.value (e.mapTables f) = w.value e := by
  cases e with
  | literal l => rw [Expr.mapTables, value, value, h.dialect]
  | object o => rw [Expr.mapTables, value, value, h.dialect, ← h.coerce_eq he]; rfl
  | parameter name default raw =>
    have hcomplete : w'.parameter name raw = w.parameter name raw := funext (h.parameter_eq name raw)
    rw [Expr.mapTables, value, value, isBound, isBound, h.ctx, hcomplete, h.optionValue_eq default he]
  | property p => exact congrArg _ (h.column_eq he)
  | allProperties table extended => rw [Expr.mapTables, value, value, h.name_eq he]
  | pattern p => rw [Expr.mapTables, value, value, h.dialect]
  | list items => rw [Expr.mapTables, value, value, h.values_eq items he]
  | comparison op l r =>
    simp only [Expr.mapTables, value, h.value_eq l he.1, h.value_eq r he.2, Expr.enclose_mapTables]
  | like l p negated =>
    simp only [Expr.mapTables, value, h.value_eq l he.1, h.value_eq p he.2, Expr.enclose_mapTables]
  | between l low high negated table =>
    simp only [Expr.mapTables, value, h.value_eq l he.1, h.value_eq low he.2.1, h.value_eq high he.2.2.1,
      Expr.enclose_mapTables]
  | inList l items negated table =>
    simp only [Expr.mapTables, value, Expr.isEmpty_listMapTables, h.value_eq l he.1, h.values_eq items he.2.1,
      Expr.enclose_mapTables]
  | is l operand => simp only [Expr.mapTables, value, h.value_eq l he, Expr.enclose_mapTables]
  | arithmetic op l r =>
    simp only [Expr.mapTables, value, h.value_eq l he.1, h.value_eq r he.2, Expr.enclose_mapTables, h.arithmeticSymbol_eq]
  | negate e => simp only [Expr.mapTables, value, h.value_eq e he, Expr.enclose_mapTables]
  | not e => simp only [Expr.mapTables, value, h.value_eq e he, h.conditionOperand_eq]
  | logical op l r => simp only [Expr.mapTables, value, h.value_eq l he.1, h.value_eq r he.2, h.conditionOperand_eq]
  | call function args => simp only [Expr.mapTables, value, Renames.testArity_eq, h.values_eq args he, h.call_eq]

theorem Renames.optionValue_eq (h : w.Renames w' f) (e : Option Expr) (he : Expr.OptionConfined (· ∈ w.query.walk) e) :
    w'.optionValue (Expr.optionMapTables f e) = w.optionValue e := by
  cases e with
  | none => rfl
  | some e => rw [Expr.optionMapTables, optionValue, optionValue, h.value_eq e he]

theorem Renames.values_eq (h : w.Renames w' f) (es : List Expr) (hes : Expr.ListConfined (· ∈ w.query.walk) es) :
    w'.values (Expr.listMapTables f es) = w.values es := by
  cases es with
  | nil => rfl
  | cons e es => rw [Expr.listMapTables, values, values, h.value_eq e hes.1, h.values_eq es hes.2]

end

namespace Renames

variable (h : w.Renames w' f)
include h

theorem expression_eq {e : Expr} (he : e.Confined (· ∈ w.query.walk)) : w'.expression (e.mapTables f) = w.expression e := by
  rw [expression, Expr.oneBased_mapTables, h.value_eq _ (Expr.Confined.oneBased e he), expression]

theorem condition_eq {e : Expr} (he : e.Confined (· ∈ w.query.walk)) : w'.condition (e.mapTables f) = w.condition e := by
  have hcondition : w'.asCondition (e.mapTables f) = w.asCondition e := funext (h.asCondition_eq e)
  rw [condition, Expr.oneBased_mapTables, h.value_eq _ (Expr.Confined.oneBased e he), hcondition, condition]

/-! ### Tables -/

theorem exists_item (ht : t ∈ w.query.walk) :
    ∃ item, w.query.get? t = some item ∧ w.query.item t = .ok item ∧
      w'.query.item (f t) = .ok (item.mapTables f) ∧ item.Confined (· ∈ w.query.walk) := by
  obtain ⟨item, hitem⟩ := Query.contains_iff.mp (h.rooted.contains_of_mem_walk h.live ht)
  refine ⟨item, hitem, by rw [Query.item, hitem], ?_, h.enclosed t ht item hitem⟩
  rw [Query.item, h.query.get? t ht, hitem, Option.map_some]

theorem tableName_agrees (ht : t ∈ w.query.walk) : Agrees (w'.tableName (f t)) (w.tableName t) := by
  obtain ⟨item, -, hitem, hitem', -⟩ := h.exists_item ht
  unfold tableName
  rw [h.tableTypeName_eq ht, h.dialect]
  cases w.ctx.tableTypeName w.query t with
  | some name => rfl
  | none =>
    rw [hitem, hitem']
    simp only [bind, Except.bind, QueryItem.mapTables]
    cases item.provider <;> rfl

theorem selectList_agrees {tables : List TableId} (htables : ∀ t ∈ tables, t ∈ w.query.walk) :
    Agrees (w'.selectList (tables.map f)) (w.selectList tables) := by
  refine Agrees.bind (Agrees.mapM fun t ht => ?_) fun columns _ => ?_
  · obtain ⟨item, -, hitem, hitem', hconfined⟩ := h.exists_item (htables t ht)
    rw [hitem, hitem']
    refine Agrees.mapM fun s hs => ?_
    rw [h.expression_eq (hconfined.select s hs), h.dialect]
    rfl
  · rw [h.query.root, h.name_eq h.rooted.root_mem_walk]
    rfl

theorem joinText_agrees {j : Join} (hleft : j.left ∈ w.query.walk) (hright : j.right ∈ w.query.walk) :
    Agrees (w'.joinText { j with left := f j.left, right := f j.right }) (w.joinText j) := by
  refine Agrees.bind (h.tableName_agrees hright) fun name _ => ?_
  have hl := h.column_eq (p := ⟨j.left, j.leftProperty⟩) hleft
  have hr := h.column_eq (p := ⟨j.right, j.rightProperty⟩) hright
  rw [Expr.movedProperty] at hl hr
  dsimp only at hl hr ⊢
  rw [hl, hr, h.name_eq hright]
  rfl

/-- The ends of the joins that are stored on a reached table. -/
theorem ends_mem {item : QueryItem} {j : Join} (ht : t ∈ w.query.walk) (hitem : w.query.get? t = some item)
    (hj : j ∈ item.joins) : j.left ∈ w.query.walk ∧ j.right ∈ w.query.walk ∧ w.query.Joined t j.right := by
  have hmem := Query.mem_joinsOf.mpr ⟨item, hitem, hj⟩
  refine ⟨h.rooted.left_eq hmem ▸ ht, h.rooted.right_mem_walk ht hmem, ?_⟩
  exact h.rooted.forest.mem_children.mp (List.mem_map_of_mem hmem)

theorem fromTables_agrees (ht : t ∈ w.query.walk) : Agrees (w'.fromTables (f t)) (w.fromTables t) := by
  refine Agrees.bind (h.tableName_agrees ht) fun name _ => ?_
  rw [h.query.foreignKeyTree_eq h.rooted h.rooted' ht, h.name_eq ht]
  refine Agrees.bind (Agrees.mapM fun a ha => ?_) fun joined _ => rfl
  have hwalk := h.rooted.mem_walk_of_mem_foreignKeyTree ht ha
  obtain ⟨item, hget, hitem, hitem', -⟩ := h.exists_item hwalk
  rw [hitem, hitem']
  simp only [bind, Except.bind]
  rw [Query.Renames.foreignKeys_mapTables]
  refine Agrees.mapM fun j hj => ?_
  obtain ⟨hleft, hright, -⟩ := h.ends_mem hwalk hget (List.mem_of_mem_filter hj)
  exact h.joinText_agrees hleft hright

/-! ### Criteria -/

theorem idTerms_eq (ht : t ∈ w.query.walk) (item : QueryItem) :
    w'.idTerms (f t) (item.mapTables f) = w.idTerms t item := by
  simp only [idTerms, h.name_eq ht, QueryItem.mapTables]

theorem filterTerm_eq {item : QueryItem} (hitem : item.Confined (· ∈ w.query.walk)) :
    w'.filterTerm (item.mapTables f) = w.filterTerm item := by
  unfold filterTerm
  rw [QueryItem.mapTables]
  cases hfilter : item.filter with
  | none => rfl
  | some e =>
    have he := hitem.filter e hfilter
    dsimp only [Option.map_some]
    rw [Expr.collapseIn_mapTables h.query.injective he, h.condition_eq he.collapseIn, Expr.precedence_mapTables]

/-- The bounds on how deep relationships lie differ, but neither is met. -/
theorem terms_agrees {n m : Nat} (ht : t ∈ w.query.walk) (hn : w.query.Deep n t) (hm : w.query.Deep m t) :
    Agrees (w'.terms m (f t)) (w.terms n t) := by
  induction n generalizing m t with
  | zero => exact absurd rfl hn.ne_zero
  | succ n ih =>
    obtain ⟨m, rfl⟩ := Nat.exists_eq_add_one_of_ne_zero hm.ne_zero
    rw [terms, terms, h.query.foreignKeyTree_eq h.rooted h.rooted' ht]
    refine Agrees.bind (Agrees.mapM fun a ha => ?_) fun _ _ => rfl
    have hwalk := h.rooted.mem_walk_of_mem_foreignKeyTree ht ha
    have hreached := h.rooted.reached_of_mem_foreignKeyTree ha
    obtain ⟨item, hget, hitem, hitem', hconfined⟩ := h.exists_item hwalk
    rw [hitem, hitem']
    simp only [Result.ok_bind]
    rw [h.filterTerm_eq hconfined, h.idTerms_eq hwalk]
    refine Agrees.bind rfl fun own _ => Agrees.bind ?_ fun related _ => rfl
    have hrelationships : (item.mapTables f).relationships
        = item.relationships.map fun j => { j with left := f j.left, right := f j.right } := by
      rw [QueryItem.relationships, QueryItem.mapTables, List.filter_map]
      rfl
    rw [hrelationships]
    refine Agrees.mapM fun j hj => ?_
    obtain ⟨hleft, hright, hjoined⟩ := h.ends_mem hwalk hget (List.mem_of_mem_filter hj)
    refine Agrees.bind (ih hright (hn.of_reached hreached hjoined) (hm.of_reached hreached hjoined)) fun inner _ => ?_
    refine Agrees.bind (h.fromTables_agrees hright) fun tables _ => ?_
    have hl := h.column_eq (p := ⟨j.left, j.leftProperty⟩) hleft
    have hr := h.column_eq (p := ⟨j.right, j.rightProperty⟩) hright
    rw [Expr.movedProperty] at hl hr
    dsimp only at hl hr ⊢
    rw [hl, hr]
    rfl

theorem whereClause_agrees : Agrees w'.whereClause w.whereClause := by
  refine Agrees.bind ?_ fun _ _ => rfl
  rw [rootTerms, rootTerms, h.query.root]
  exact h.terms_agrees h.rooted.root_mem_walk (h.rooted.deep _)
    (h.query.deep h.rooted h.rooted' h.rooted.root_mem_walk)

/-! ### Clauses -/

theorem orderList_agrees {tables : List TableId} (htables : ∀ t ∈ tables, t ∈ w.query.walk) :
    Agrees (w'.orderList (tables.map f)) (w.orderList tables) := by
  refine Agrees.bind (Agrees.mapM fun t ht => ?_) fun columns _ => rfl
  obtain ⟨item, -, hitem, hitem', hconfined⟩ := h.exists_item (htables t ht)
  rw [hitem, hitem']
  refine Agrees.mapM fun k hk => ?_
  rw [h.expression_eq (hconfined.orderBy k hk)]
  rfl

theorem statement_agrees (clauses : List SqlClause) : Agrees (w'.statement clauses) (w.statement clauses) := by
  have hroot := h.rooted.root_mem_walk
  have htables : ∀ t ∈ w.query.foreignKeyTree w.query.root, t ∈ w.query.walk := fun t ht =>
    h.rooted.mem_walk_of_mem_foreignKeyTree hroot ht
  have htree : w'.query.foreignKeyTree w'.query.root = (w.query.foreignKeyTree w.query.root).map f := by
    rw [h.query.root, h.query.foreignKeyTree_eq h.rooted h.rooted' hroot]
  have hselect := h.selectList_agrees htables
  have hfrom := h.fromTables_agrees hroot
  have horder := h.orderList_agrees htables
  have hname := h.name_eq hroot
  rw [← htree] at hselect horder
  rw [← h.query.root] at hfrom hname
  obtain ⟨item, -, hitem, hitem', -⟩ := h.exists_item hroot
  unfold statement
  refine hselect.optional (fun select => hfrom.optional
    (fun source => h.whereClause_agrees.optional (fun filter => ?_) _) _) _
  have hoffset : (item.mapTables f).offset = item.offset := rfl
  have hfetch : (item.mapTables f).fetch = item.fetch := rfl
  rw [← h.query.root] at hitem'
  dsimp only
  simp only [hitem, hitem', Result.ok_bind, h.dialect, hname, hoffset, hfetch]
  generalize (clauses.contains .orderBy || clauses.contains .offset && (item.offset.isSome || item.fetch.isSome)) = ordered
  cases ordered with
  | true => exact horder.bind fun _ _ => rfl
  | false => rfl

end Renames

end Writer

/-! ### Names -/

section
variable (ctx : Context) {q q' : Query} {f : TableId → TableId} (h : q.Renames q' f) (hq : q.Rooted)
  (hlive : q.contains q.root = true) (henclosed : q.Enclosed)
include h hq hlive henclosed

theorem baseName_eq {t : TableId} (ht : t ∈ q.walk) (item : QueryItem) :
    baseName ctx q' (f t) (item.mapTables f) = baseName ctx q t item := by
  rw [baseName, Context.tableTypeName_eq h hq hlive henclosed ht, QueryItem.mapTables, baseName]
  cases item.provider <;> rfl

theorem exists_add (aliases : Aliases) {t : TableId} (ht : t ∈ q.walk) :
    ∃ name, Aliases.add ctx q aliases t = .ok (aliases ++ [(t, name)]) ∧
      Aliases.add ctx q' (aliases.map fun entry => (f entry.1, entry.2)) (f t)
        = .ok ((aliases ++ [(t, name)]).map fun entry => (f entry.1, entry.2)) := by
  obtain ⟨item, hitem⟩ := Query.contains_iff.mp (hq.contains_of_mem_walk hlive ht)
  have htaken : ∀ candidate, Aliases.isTaken (aliases.map fun entry => (f entry.1, entry.2)) candidate
      = aliases.isTaken candidate := fun candidate => List.any_map
  have hbase := baseName_eq ctx h hq hlive henclosed ht item
  refine ⟨_, by rw [Aliases.add, Query.item, hitem]; rfl, ?_⟩
  rw [Aliases.add, Query.item, h.get? t ht, hitem, Option.map_some]
  dsimp only
  rw [Result.ok_bind]
  simp only [htaken, hbase, List.length_map, List.map_append]
  rfl

theorem exists_foldlM_add {tables : List TableId} (htables : ∀ t ∈ tables, t ∈ q.walk) {aliases : Aliases}
    (haliases : ∀ entry ∈ aliases, entry.1 ∈ q.walk) :
    ∃ named : Aliases, tables.foldlM (Aliases.add ctx q) aliases = .ok named ∧
      (tables.map f).foldlM (Aliases.add ctx q') (aliases.map fun entry => (f entry.1, entry.2))
        = .ok (named.map fun entry => (f entry.1, entry.2)) ∧
      ∀ entry ∈ named, entry.1 ∈ q.walk := by
  induction tables generalizing aliases with
  | nil => exact ⟨aliases, rfl, rfl, haliases⟩
  | cons t tables ih =>
    rw [List.forall_mem_cons] at htables
    obtain ⟨name, hadd, hadd'⟩ := exists_add ctx h hq hlive henclosed aliases htables.1
    have hnext : ∀ entry ∈ aliases ++ [(t, name)], entry.1 ∈ q.walk := by
      intro entry hentry
      rcases List.mem_append.mp hentry with hentry | hentry
      · exact haliases entry hentry
      · exact List.mem_singleton.mp hentry ▸ htables.1
    obtain ⟨named, hrest, hrest', hnamed⟩ := ih htables.2 hnext
    refine ⟨named, ?_, ?_, hnamed⟩
    · rw [List.foldlM_cons, hadd, Result.ok_bind, hrest]
    · rw [List.map_cons, List.foldlM_cons, hadd', Result.ok_bind, hrest']

/-- Tables under other handles give the same statement. -/
theorem render_agrees (hq' : q'.Rooted) (dialect : Dialect) (clauses : List SqlClause) :
    Agrees (render ctx q' dialect clauses) (render ctx q dialect clauses) := by
  have hnil : ∀ entry ∈ ([] : Aliases), entry.1 ∈ q.walk := fun _ hentry => absurd hentry List.not_mem_nil
  obtain ⟨named, hnames, hnames', hnamed⟩ := exists_foldlM_add ctx h hq hlive henclosed (fun _ ht => ht) hnil
  have hmake : Writer.make ctx q dialect = .ok ⟨ctx, q, dialect, named⟩ := by
    rw [Writer.make, Aliases.ofQuery, hnames]
    rfl
  have hmake' : Writer.make ctx q' dialect
      = .ok ⟨ctx, q', dialect, named.map fun entry => (f entry.1, entry.2)⟩ := by
    rw [Writer.make, Aliases.ofQuery, h.walk_eq hq hq', ← List.map_nil (f := fun entry : TableId × String =>
      (f entry.1, entry.2)), hnames']
    rfl
  have hrenames : Writer.Renames ⟨ctx, q, dialect, named⟩
      ⟨ctx, q', dialect, named.map fun entry => (f entry.1, entry.2)⟩ f :=
    ⟨rfl, rfl, h, hq, hq', hlive, henclosed, rfl, hnamed⟩
  rw [render, hmake', Result.ok_bind, render, hmake, Result.ok_bind]
  exact hrenames.statement_agrees clauses

end

end ItemQuery.Sql

namespace ItemQuery.Query

/-- A query of a forest with a live root is copied, and the copy says the same: tables correspond, and with handles
    replaced they are equal, and so is the statement, in every context. -/
theorem Forest.exists_clone_renames {q : Query} (h : q.Forest) (hlive : q.contains q.root = true)
    (henclosed : q.Enclosed) :
    ∃ q' f, q.clone = .ok q' ∧ q.Renames q' f ∧ ∀ ctx, (q'.toSql ctx).toOption = (q.toSql ctx).toOption := by
  obtain ⟨q', f, hclone, hkept, hrenames⟩ := h.rooted.exists_clone hlive
  refine ⟨q', f, hclone, hrenames, fun ctx => ?_⟩
  exact Sql.render_agrees ctx hrenames h.rooted hlive henclosed hkept.rooted _ _

/-- A type whose criterion is about a relationship, too. -/
def partOfLines : QueryItem :=
  { typeName := some "Part"
    filter := some (.comparison .lt (.prop ⟨2, 0⟩ "quantity") (.object ⟨"5", some ⟨⟨0, 0⟩, "cost"⟩⟩)) }

/-- The type with that relationship, and a table between them that nothing leads to. -/
def partLines : Query :=
  ((ofItem partOfLines).after (.addTable {})).after (.addRelationship ⟨0, 0⟩ "Part BOM")

theorem exists_clone_renames_partLines :
    partLines.Forest ∧ partLines.contains partLines.root = true ∧ partLines.Enclosed ∧
      ∃ q' f, partLines.clone = .ok q' ∧ partLines.Renames q' f ∧
        ∀ ctx, (q'.toSql ctx).toOption = (partLines.toSql ctx).toOption := by
  have hforest : partLines.Forest := by
    have hpart : (ofItem partOfLines).Kept := kept_ofItem rfl
    have hroom : ((ofItem partOfLines).after (.addTable {})).Kept := hpart.after rfl
    exact (hroom.after (c := .addRelationship ⟨0, 0⟩ "Part BOM") (.inl rfl)).rooted.forest
  have hwalk : partLines.walk = [⟨0, 0⟩, ⟨2, 0⟩] := by decide +kernel
  have henclosed : partLines.Enclosed := by
    rw [Enclosed, hwalk, List.forall_mem_cons, List.forall_mem_singleton]
    refine ⟨fun item hitem => ?_, fun item hitem => ?_⟩
    · cases hitem
      refine ⟨?_, nofun, nofun, nofun⟩
      rintro e ⟨⟩
      exact ⟨by simp [Expr.prop], by simp⟩
    · cases hitem
      exact ⟨nofun, nofun, nofun, nofun⟩
  exact ⟨hforest, by decide +kernel, henclosed, hforest.exists_clone_renames (by decide +kernel) henclosed⟩

/-- The query of one table that was removed. -/
def rootRemoved : Query :=
  ((ofType "Part").removeTable (ofType "Part").root).2

/-- A removed root is not copied: it has no content. -/
theorem clone_rootRemoved : rootRemoved.Forest ∧ rootRemoved.Enclosed ∧ rootRemoved.clone = .error (.stale 0) := by
  have hforest : rootRemoved.Forest := ((kept_ofItem rfl).removeTable _).rooted.forest
  refine ⟨hforest, ?_, rfl⟩
  have hwalk : rootRemoved.walk = [⟨0, 0⟩] := by decide +kernel
  rw [Enclosed, hwalk, List.forall_mem_singleton]
  intro item hitem
  cases hitem

end ItemQuery.Query
