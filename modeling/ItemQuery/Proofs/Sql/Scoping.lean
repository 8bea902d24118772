import ItemQuery.Proofs.Query.Near
import ItemQuery.Proofs.Sql.Clauses
import ItemQuery.Proofs.Sql.Spelling

/-! The scopes of a statement. A `from` clause declares tables one after the other, and a subquery adds its own to those
    of the queries around it. A statement names declared tables only, if what stands with a table of its query names
    near tables, and each table that is reached from the root is declared once. -/

namespace ItemQuery

open Relation

/-! ### Lists of a block -/

namespace Query

variable {q : Query} {α : Type} {t : TableId}

/-- A list that a table holds; empty if there is no such table. -/
def listOf (q : Query) (view : QueryItem → List α) (id : TableId) : List α :=
  (q.get? id).elim [] view

theorem listOf_eq {view : QueryItem → List α} {item : QueryItem} (h : q.get? t = some item) :
    q.listOf view t = view item := by
  rw [listOf, h, Option.elim_some]

theorem map_right_listOf (view : QueryItem → List Join) :
    (q.listOf view t).map (·.right) = q.listOf (fun item => (view item).map (·.right)) t := by
  unfold listOf
  cases q.get? t <;> rfl

theorem Forest.left_of_mem_foreignKeys (h : q.Forest) {j : Join} (hj : j ∈ q.listOf (·.foreignKeys) t) : j.left = t := by
  unfold listOf at hj
  cases hitem : q.get? t with
  | none => simp [hitem] at hj
  | some item =>
    rw [hitem] at hj
    exact h.owned t item hitem j (List.mem_of_mem_filter hj)

end Query

namespace Sql

open Writer (Term existsTerm conjunction)

variable {P : TableId → Prop} {α ι κ : Type} {ts ds ds' scope : List TableId}

/-! ### Lists of texts -/

theorem Each.append {R : ι → (Aliases → α) → Prop} {is js : List ι} {fs gs : Aliases → List α} (h : Each R is fs)
    (h' : Each R js gs) : Each R (is ++ js) fun names => fs names ++ gs names := by
  induction h with
  | nil => exact h'
  | cons hf _ ih => exact .cons hf ih

theorem Each.flatten {R : κ → (Aliases → α) → Prop} {g : ι → List κ} {is : List ι} {fss : Aliases → List (List α)}
    (h : Each (fun i => Each R (g i)) is fss) : Each R (is.flatMap g) fun names => (fss names).flatten := by
  induction h with
  | nil => exact .nil
  | cons hf _ ih => exact hf.append ih

theorem Each.isEmpty_eq {R : ι → (Aliases → α) → Prop} {is : List ι} {fs : Aliases → List α} (h : Each R is fs)
    (names : Aliases) : (fs names).isEmpty = is.isEmpty := by
  cases h <;> rfl

theorem intercalate_append (ss ss' : List String) :
    "".intercalate (ss ++ ss') = "".intercalate ss ++ "".intercalate ss' := by
  rcases eq_or_ne ss [] with rfl | hne
  · simp
  rcases eq_or_ne ss' [] with rfl | hne'
  · simp
  rw [String.intercalate_append_of_ne_nil hne hne', String.append_empty]

/-! ### Scopes -/

/-- A `from` clause that declares these tables, one after the other. The condition of a join is about its table and those
    before it. -/
inductive Declares : List TableId → (Aliases → String) → Prop
  | table (typeName : String) (t : TableId) : Declares [t] fun names => typeName ++ " " ++ names.name t
  | join {ts : List TableId} {f on : Aliases → String} (h : Declares ts f) (keyword typeName : String) (t : TableId)
    (hon : Spells (· ∈ ts ++ [t]) on) : Declares (ts ++ [t]) fun names =>
      f names ++ (" " ++ keyword ++ " " ++ typeName ++ " " ++ names.name t ++ " on " ++ on names)

/-- Criteria in the scope of the first tables, with subqueries that declare the second ones. In a subquery its own tables
    are in scope as well. -/
inductive Scoped : List TableId → List TableId → (Aliases → List Term) → Prop
  | nil {scope : List TableId} : Scoped scope [] fun _ => []
  | plain {scope ds : List TableId} {f : Aliases → String} {fs : Aliases → List Term} (strength : Precedence)
    (hf : Spells (· ∈ scope) f) (hfs : Scoped scope ds fs) : Scoped scope ds fun names => (f names, strength) :: fs names
  | subquery {scope ts inner ds : List TableId} {source : Aliases → String} {gs fs : Aliases → List Term}
    (hsource : Declares ts source) (hinner : Scoped (scope ++ ts) inner gs) (hfs : Scoped scope ds fs) :
    Scoped scope (ts ++ inner ++ ds) fun names => existsTerm (source names) (gs names) :: fs names

/-- A statement that declares these tables. Its select list, its criteria and its sort keys are in the scope of its own
    `from` clause. -/
inductive Declared : List TableId → (Aliases → String) → Prop
  | statement {ts ds : List TableId} {select source : Aliases → String} {terms : Aliases → List Term} {ι : Type}
    {is : List ι} {keys : Aliases → List String} (hselect : Spells (· ∈ ts) select) (hsource : Declares ts source)
    (hterms : Scoped ts ds terms) (hkeys : Each (fun _ => Spells (· ∈ ts)) is keys) (paging : List String) :
    Declared (ts ++ ds) fun names => " ".intercalate
      (["select " ++ select names] ++ ["from " ++ source names]
        ++ (if (terms names).isEmpty then [] else ["where " ++ conjunction (terms names)])
        ++ (if (keys names).isEmpty then [] else ["order by " ++ ", ".intercalate (keys names)]) ++ paging)

theorem Scoped.append {fs gs : Aliases → List Term} (h : Scoped scope ds fs) (h' : Scoped scope ds' gs) :
    Scoped scope (ds ++ ds') fun names => fs names ++ gs names := by
  induction h with
  | nil => exact h'
  | plain strength hf _ ih => exact .plain strength hf (ih h')
  | subquery hsource hinner _ _ ih =>
    rw [List.append_assoc]
    exact .subquery hsource hinner (ih h')

theorem Scoped.flatten {g : ι → List TableId} {is : List ι} {fss : Aliases → List (List Term)}
    (h : Each (fun i => Scoped scope (g i)) is fss) : Scoped scope (is.flatMap g) fun names => (fss names).flatten := by
  induction h with
  | nil => exact .nil
  | cons hf _ ih => exact hf.append ih

/-- At most one term. -/
theorem scoped_option {shown : α → Aliases → String} (o : Option α) (h : ∀ a, Spells (· ∈ scope) (shown a)) :
    Scoped scope [] fun names => (o.map fun a => shown a names).toList.map fun s => (s, .comparison) := by
  cases o with
  | none => exact .nil
  | some a => exact .plain .comparison (h a) .nil

namespace Writer

variable {w : Writer} {id t : TableId} {depth : Nat} {outer : List TableId} {item : QueryItem}

theorem spelled_item (w : Writer) (id : TableId) :
    Spelled (fun f => ∃ item, w.query.get? id = some item ∧ f = fun _ => item) fun _ => w.query.item id := by
  unfold Query.item
  cases w.query.get? id with
  | none => exact .error _
  | some item => exact .ok ⟨item, rfl, rfl⟩

/-- What is written for a list of each of some tables. -/
theorem spelled_lists {R : ι → (Aliases → α) → Prop} {write : Aliases → ι → Result α} (view : QueryItem → List ι)
    {tables : List TableId}
    (h : ∀ t ∈ tables, ∀ item, w.query.get? t = some item → ∀ i ∈ view item, Spelled (R i) fun names => write names i) :
    Spelled (Each (fun t => Each R (w.query.listOf view t)) tables) fun names =>
      tables.mapM fun t => (do (view (← w.query.item t)).mapM (write names)) := by
  refine Spelled.mapM fun t ht => ?_
  refine (w.spelled_item t).bind ?_
  rintro _ ⟨item, hitem, rfl⟩
  rw [Query.listOf_eq hitem]
  exact Spelled.mapM (h t ht item hitem)

/-! ### Tables of a block -/

/-- What the kind of a join is written as. -/
def joinKeyword : JoinKind → String
  | .inner => "inner join"
  | .leftOuter => "left join"

/-- The text of a join: its condition is about both its tables. -/
def Joins (j : Join) (f : Aliases → String) : Prop :=
  ∃ keyword typeName on, Spells (fun t => t = j.left ∨ t = j.right) on ∧
    f = fun names => " " ++ keyword ++ " " ++ typeName ++ " " ++ names.name j.right ++ " on " ++ on names

theorem spelled_joinText (w : Writer) (j : Join) : Spelled (Joins j) fun names => (w.named names).joinText j := by
  have hleft : Spells (fun t => t = j.left ∨ t = j.right) fun names => (w.named names).column ⟨j.left, j.leftProperty⟩ :=
    w.spells_column (.inl rfl)
  have hright : Spells (fun t => t = j.left ∨ t = j.right) fun names => (w.named names).column ⟨j.right, j.rightProperty⟩ :=
    w.spells_column (.inr rfl)
  refine (Spelled.const (R := fun f => ∃ typeName, f = fun _ => typeName) (w.tableName j.right) fun s => ⟨s, rfl⟩).bind ?_
  rintro _ ⟨typeName, rfl⟩
  refine .ok ⟨joinKeyword j.kind, typeName, _, .append (.append hleft (.text " = ")) hright, ?_⟩
  funext names
  simp only [String.append_assoc]
  rfl

end Writer

open Writer

/-- The joins of a declared table. -/
theorem Declares.joins {f : Aliases → String} {js : List Join} {gs : Aliases → List String} (h : Declares ts f)
    (hgs : Each Joins js gs) (hleft : ∀ j ∈ js, j.left ∈ ts) :
    Declares (ts ++ js.map (·.right)) fun names => f names ++ "".intercalate (gs names) := by
  induction hgs generalizing ts f with
  | nil => simpa using h
  | @cons j js g gs hg _ ih =>
    obtain ⟨keyword, typeName, on, hon, rfl⟩ := hg
    rw [List.forall_mem_cons] at hleft
    have hone : Declares (ts ++ [j.right]) _ := h.join keyword typeName j.right (hon.mono fun t ht => by
      rcases ht with rfl | rfl
      · exact List.mem_append_left _ hleft.1
      · exact List.mem_append_right _ List.mem_cons_self)
    have hall := ih hone fun k hk => List.mem_append_left _ (hleft.2 k hk)
    have htexts : ∀ s ss, "".intercalate (s :: ss) = s ++ "".intercalate ss := fun s ss => by
      rw [← List.singleton_append, intercalate_append, String.intercalate_singleton]
    simpa only [List.append_assoc, List.singleton_append, List.map_cons, htexts, String.append_assoc] using hall

/-- Along the loop over a block: the tables taken and those in the queue are declared. -/
theorem Declares.spreads {q : Query} (hq : q.Forest) {queue order done : List TableId} (hs : q.Spreads queue order)
    {f : Aliases → String} {gss : Aliases → List (List String)} (h : Declares (done ++ queue) f)
    (hgss : Each (fun t => Each Joins (q.listOf (·.foreignKeys) t)) order gss) :
    Declares (done ++ order) fun names => f names ++ "".intercalate (gss names).flatten := by
  induction hs generalizing done f gss with
  | done =>
    cases hgss
    simpa using h
  | @next id queue order hs ih =>
    obtain _ | ⟨hgs, hgss⟩ := hgss
    have hjoined := h.joins hgs fun j hj => by simp [hq.left_of_mem_foreignKeys hj]
    have hkeyed : (q.listOf (·.foreignKeys) id).map (·.right) = q.keyed id := Query.map_right_listOf _
    have hqueue : done ++ id :: queue ++ q.keyed id = done ++ [id] ++ (queue ++ q.keyed id) := by simp
    rw [hkeyed, hqueue] at hjoined
    have hrest := ih hjoined hgss
    simpa only [List.append_assoc, List.singleton_append, List.flatten_cons, intercalate_append, String.append_assoc]
      using hrest

namespace Writer

variable {w : Writer} {id t : TableId} {depth : Nat} {outer : List TableId} {item : QueryItem}

theorem spelled_fromTables (hq : w.query.Rooted) (id : TableId) :
    Spelled (Declares (w.query.foreignKeyTree id)) fun names => (w.named names).fromTables id := by
  refine (Spelled.const (R := fun f => ∃ typeName, f = fun _ => typeName) (w.tableName id) fun s => ⟨s, rfl⟩).bind ?_
  rintro _ ⟨typeName, rfl⟩
  simp only [query_named, aliases_named]
  refine (w.spelled_lists (·.foreignKeys) fun t _ item _ j _ => w.spelled_joinText j).bind ?_
  intro gss hgss
  refine .ok ?_
  have hfirst : Declares ([] ++ [id]) fun names => typeName ++ " " ++ names.name id := .table typeName id
  exact hfirst.spreads hq.forest (hq.spreads_foreignKeyTree id) hgss

/-! ### Criteria of a block -/

theorem spelled_expression (w : Writer) {e : Expr} (h : e.Names P) :
    Spelled (Spells P) fun names => (w.named names).expression e :=
  w.spelled_value _ h.oneBased

theorem spelled_condition (w : Writer) {e : Expr} (h : e.Names P) :
    Spelled (Spells P) fun names => (w.named names).condition e :=
  (w.spelled_expression h).map fun _ hf => w.spells_asCondition hf e

theorem spelled_filterTerm (w : Writer) (h : ∀ c, item.filter = some c → c.Names (· ∈ scope)) :
    Spelled (Scoped scope []) fun names => (w.named names).filterTerm item := by
  unfold filterTerm
  cases hfilter : item.filter with
  | none => exact .ok .nil
  | some c => exact (w.spelled_condition (h c hfilter).collapseIn).bind fun f hf => .ok (.plain _ hf .nil)

theorem scoped_idTerms (w : Writer) (item : QueryItem) (ht : t ∈ scope) :
    Scoped scope [] fun names => (w.named names).idTerms t item := by
  have hcolumn : ∀ name, Spells (· ∈ scope) fun names => names.name t ++ "." ++ name := fun name =>
    .append (.append (.name ht) (.text ".")) (.text name)
  have hequal : ∀ name (value : String), Spells (· ∈ scope) fun names =>
      names.name t ++ "." ++ name ++ " = " ++ Text.quoted value :=
    fun name value => .append (.append (hcolumn name) (.text " = ")) (.text _)
  have hlisted : Spells (· ∈ scope) fun names =>
      names.name t ++ "." ++ "id" ++ " in (" ++ ", ".intercalate (item.idList.map Text.quoted) ++ ")" :=
    .append (.append (.append (hcolumn "id") (.text " in (")) (.text _)) (.text ")")
  have hlist : Scoped scope [] fun names => (if item.idList.isEmpty then none
      else some (names.name t ++ "." ++ "id" ++ " in ("
        ++ ", ".intercalate (item.idList.map Text.quoted) ++ ")")).toList.map
        fun shown => (shown, Precedence.comparison) := by
    split
    · exact .nil
    · exact .plain _ hlisted .nil
  have hall := ((scoped_option item.id (hequal "id")).append hlist).append (scoped_option item.typeId (hequal "itemtype"))
  simpa only [idTerms, aliases_named, List.map_append, List.append_nil] using hall

/-- The term of a relationship: the tables of its block are declared, and criteria follow that are in their scope. -/
def Subquery (scope ts ds : List TableId) (f : Aliases → Term) : Prop :=
  ∃ source gs, Declares ts source ∧ Scoped (scope ++ ts) ds gs ∧ f = fun names => existsTerm (source names) (gs names)

theorem scoped_subqueries {ts ds : Join → List TableId} {js : List Join} {fs : Aliases → List Term}
    (h : Each (fun j => Subquery scope (ts j) (ds j)) js fs) : Scoped scope (js.flatMap fun j => ts j ++ ds j) fs := by
  induction h with
  | nil => exact .nil
  | cons hf _ ih =>
    obtain ⟨source, gs, hsource, hgs, rfl⟩ := hf
    exact .subquery hsource hgs ih

theorem spelled_relationTerm (hq : w.query.Rooted) {j : Join} (hleft : j.left ∈ scope)
    (hinner : Spelled (Scoped (scope ++ w.query.foreignKeyTree j.right) ds) fun names =>
      (w.named names).terms depth j.right) :
    Spelled (Subquery scope (w.query.foreignKeyTree j.right) ds) fun names => (w.named names).relationTerm depth j := by
  have hright : j.right ∈ w.query.foreignKeyTree j.right := by
    rw [hq.mem_foreignKeyTree]
    exact .refl
  refine hinner.bind fun inner hinner => (spelled_fromTables hq j.right).bind fun source hsource => .ok ?_
  refine ⟨source, _, hsource, .plain .comparison (.append (.append ?_ (.text " = ")) ?_) hinner, rfl⟩
  · exact w.spells_column (List.mem_append_right _ hright)
  · exact w.spells_column (List.mem_append_left _ hleft)

/-- The blocks of the relationships of a table, with those below them. -/
def blocksOf (q : Query) (depth : Nat) (t : TableId) : List TableId :=
  (q.related t).flatMap fun c => q.foreignKeyTree c ++ q.below depth c

theorem spelled_tableTerms (hq : w.query.Rooted) (ht : t ∈ scope)
    (hfilter : ∀ item c, w.query.get? t = some item → item.filter = some c → c.Names (· ∈ scope))
    (hinner : ∀ c, w.query.Joined t c →
      Spelled (Scoped (scope ++ w.query.foreignKeyTree c) (w.query.below depth c)) fun names =>
        (w.named names).terms depth c) :
    Spelled (Scoped scope (blocksOf w.query depth t)) fun names => (w.named names).tableTerms depth t := by
  refine (w.spelled_item t).bind ?_
  rintro _ ⟨item, hitem, rfl⟩
  refine (w.spelled_filterTerm fun c => hfilter item c hitem).bind fun own hown => ?_
  have hrelated : ∀ j ∈ item.relationships, Spelled (Subquery scope (w.query.foreignKeyTree j.right)
      (w.query.below depth j.right)) fun names => (w.named names).relationTerm depth j := by
    intro j hj
    have hmem : j ∈ item.joins := List.mem_of_mem_filter hj
    have hleft : j.left = t := hq.forest.owned t item hitem j hmem
    exact spelled_relationTerm hq (hleft ▸ ht) (hinner j.right (hq.forest.joined_of_mem hitem hmem))
  refine (Spelled.mapM hrelated).bind fun related hrelated => .ok ?_
  have hblocks : blocksOf w.query depth t
      = item.relationships.flatMap fun j => w.query.foreignKeyTree j.right ++ w.query.below depth j.right := by
    rw [blocksOf, Query.related, hitem, Option.elim_some, List.flatMap_map]
  rw [hblocks]
  exact ((w.scoped_idTerms item ht).append hown).append (scoped_subqueries hrelated)

/-- By the depth of blocks: the tables that the root of a block is joined to are in scope around it, and a filter is about
    these and the tables of its own block. -/
theorem spelled_terms (h : w.query.Local) (hparent : ∀ p, w.query.Joined p id → p ∈ outer) :
    Spelled (Scoped (outer ++ w.query.foreignKeyTree id) (w.query.below depth id)) fun names =>
      (w.named names).terms depth id := by
  induction depth generalizing id outer with
  | zero => exact .ok .nil
  | succ depth ih =>
    have htable : ∀ t ∈ w.query.foreignKeyTree id,
        Spelled (Scoped (outer ++ w.query.foreignKeyTree id) (blocksOf w.query depth t))
          fun names => (w.named names).tableTerms depth t := by
      intro t ht
      have hscope := List.mem_append_right outer ht
      refine spelled_tableTerms h.rooted hscope (fun item c hitem hc => ?_) fun c hc => ih fun p hp => ?_
      · refine (h.filter t item c hitem hc).mono fun u hu => List.mem_append.mpr ?_
        exact (h.rooted.near_block ht hu).symm.imp_left (hparent u)
      · exact h.rooted.forest.eq_of_joined hp hc ▸ hscope
    have hbelow : w.query.below (depth + 1) id = (w.query.foreignKeyTree id).flatMap (blocksOf w.query depth) :=
      List.flatMap_assoc
    rw [hbelow]
    exact (Spelled.mapM htable).bind fun found hfound => .ok (.flatten hfound)

theorem spelled_rootTerms (h : w.query.Local) :
    Spelled (Scoped (w.query.foreignKeyTree w.query.root) (w.query.below (w.query.tableCount + 1) w.query.root))
      fun names => (w.named names).rootTerms := by
  have hparent : ∀ p, w.query.Joined p w.query.root → p ∈ ([] : List TableId) := fun p hp => absurd hp (h.rootFree p)
  exact spelled_terms h hparent

/-! ### Clauses -/

section
variable {tables : List TableId}

theorem spelled_selectList (w : Writer) (hroot : w.query.root ∈ scope)
    (h : ∀ t ∈ tables, ∀ item, w.query.get? t = some item → ∀ s ∈ item.select, s.expr.Names (· ∈ scope)) :
    Spelled (Spells (· ∈ scope)) fun names => (w.named names).selectList tables := by
  have hcolumn : ∀ t ∈ tables, ∀ item, w.query.get? t = some item → ∀ s ∈ item.select,
      Spelled (Spells (· ∈ scope)) fun names => do
        let shown ← (w.named names).expression s.expr
        return (s.aliasName.map fun name => shown ++ " as " ++ w.dialect.identifier name).getD shown := by
    intro t ht item hitem s hs
    refine (w.spelled_expression (h t ht item hitem s hs)).bind fun f hf => ?_
    cases s.aliasName with
    | none => exact .ok hf
    | some name => exact .ok (.append (.append hf (.text " as ")) (.text (w.dialect.identifier name)))
  refine (w.spelled_lists (·.select) hcolumn).bind fun fss hfss => ?_
  have hcolumns := hfss.flatten
  simp only [hcolumns.isEmpty_eq]
  split
  · exact .ok (.append (.name hroot) (.text ".*"))
  · exact .ok (spells_intercalate ", " hcolumns)

theorem spelled_orderList (w : Writer)
    (h : ∀ t ∈ tables, ∀ item, w.query.get? t = some item → ∀ k ∈ item.orderBy, k.expr.Names (· ∈ scope)) :
    Spelled (Each (fun _ => Spells (· ∈ scope)) (tables.flatMap (w.query.listOf (·.orderBy)))) fun names =>
      (w.named names).orderList tables := by
  have hkey : ∀ t ∈ tables, ∀ item, w.query.get? t = some item → ∀ key ∈ item.orderBy,
      Spelled (Spells (· ∈ scope)) fun names => do
        let shown ← (w.named names).expression key.expr
        return if key.direction = .descending then shown ++ " desc" else shown := by
    intro t ht item hitem key hk
    refine (w.spelled_expression (h t ht item hitem key hk)).bind fun f hf => .ok ?_
    split
    · exact .append hf (.text " desc")
    · exact hf
  exact (w.spelled_lists (·.orderBy) hkey).bind fun fss hfss => .ok hfss.flatten

end

/-- Paging is by the id of the root if there are no sort keys. -/
def sortTexts (w : Writer) (pages : Bool) (keys : List String) : List String :=
  if keys.isEmpty && pages then [w.aliases.name w.query.root ++ ".id"] else keys

theorem exists_each_sortTexts (hroot : w.query.root ∈ scope) (pages : Bool) {is : List ι} {keys : Aliases → List String}
    (h : Each (fun _ => Spells (· ∈ scope)) is keys) : ∃ (κ : Type) (is : List κ),
      Each (fun _ => Spells (· ∈ scope)) is fun names => (w.named names).sortTexts pages (keys names) := by
  unfold sortTexts
  simp only [h.isEmpty_eq, aliases_named, query_named]
  split
  · exact ⟨Unit, [()], .cons (.append (.name hroot) (.text ".id")) .nil⟩
  · exact ⟨_, _, h⟩

theorem statement_all (w : Writer) : w.statement SqlClause.all = do
    let select ← w.selectList (w.query.foreignKeyTree w.query.root)
    let source ← w.fromTables w.query.root
    let terms ← w.rootTerms
    let item ← w.query.item w.query.root
    let keys ← w.orderList (w.query.foreignKeyTree w.query.root)
    let pages := item.offset.isSome || item.fetch.isSome
    return " ".intercalate (["select " ++ select] ++ ["from " ++ source]
      ++ (if terms.isEmpty then [] else ["where " ++ conjunction terms])
      ++ (if (w.sortTexts pages keys).isEmpty then [] else ["order by " ++ ", ".intercalate (w.sortTexts pages keys)])
      ++ if pages then w.dialect.paging item.offset item.fetch else []) := by
  have hwhere : ∀ terms : List Term, ((if terms.isEmpty then none else some (conjunction terms)).map ("where " ++ ·)).toList
      = if terms.isEmpty then [] else ["where " ++ conjunction terms] := by
    intro terms
    split <;> rfl
  have hall : ∀ c, SqlClause.all.contains c = true := by
    intro c
    cases c <;> rfl
  simp only [statement, whereClause, hall, sortTexts, hwhere, if_true, Bool.true_and, Bool.true_or, bind_assoc, pure_bind]
  rfl

/-- The tables of the statement of a query: the block of the root and those below it. -/
def statementTables (q : Query) : List TableId :=
  q.foreignKeyTree q.root ++ q.below (q.tableCount + 1) q.root

theorem spelled_statement (h : w.query.Local) :
    Spelled (Declared (statementTables w.query)) fun names => (w.named names).statement SqlClause.all := by
  have hnear : ∀ {e : Expr} {t : TableId}, t ∈ w.query.foreignKeyTree w.query.root → e.Names (w.query.Near t) →
      e.Names (· ∈ w.query.foreignKeyTree w.query.root) := fun ht he =>
    he.mono fun u hu => (h.rooted.near_block ht hu).resolve_right (h.rootFree u)
  have hscope : w.query.root ∈ w.query.foreignKeyTree w.query.root := by
    rw [h.rooted.mem_foreignKeyTree]
    exact .refl
  have hselect := w.spelled_selectList hscope fun t ht item hitem s hs => hnear ht (h.select t item hitem s hs)
  have horder := w.spelled_orderList fun t ht item hitem k hk => hnear ht (h.orderBy t item hitem k hk)
  simp only [statement_all, query_named]
  refine hselect.bind fun select hselect => (spelled_fromTables h.rooted _).bind fun source hsource =>
    (spelled_rootTerms h).bind fun terms hterms => (w.spelled_item _).bind ?_
  rintro _ ⟨item, -, rfl⟩
  dsimp only
  refine horder.bind fun keys hkeys => .ok ?_
  obtain ⟨ι, is, hsorts⟩ := exists_each_sortTexts hscope (item.offset.isSome || item.fetch.isSome) hkeys
  exact .statement hselect hsource hterms hsorts
    (if item.offset.isSome || item.fetch.isSome then w.dialect.paging item.offset item.fetch else [])

end Writer

theorem mem_statementTables {q : Query} (h : q.Rooted) {t : TableId} :
    t ∈ Writer.statementTables q ↔ ReflTransGen q.Joined q.root t :=
  h.mem_blocks (h.deep q.root)

end Sql
end ItemQuery
