import ItemQuery.Proofs.Query.Ids
import ItemQuery.Proofs.Query.Renaming
import ItemQuery.Proofs.Sql.Clauses
import ItemQuery.Proofs.Text.Shrinking

/-! The `where` clause of a query with fewer ids. Everything but the terms of ids is written as before, so the clause gets
    shorter with each id that is lost, at every depth of `exists`. -/

namespace ItemQuery.Sql

open Query Relation

namespace Writer

variable {w : Writer} {q' : Query}

/-! ### Expressions -/

theorem parameter_alike (h : w.query.Alike q') : ({ w with query := q' } : Writer).parameter = w.parameter := by
  funext name raw default
  simp only [parameter, h.parameters]

mutual

theorem value_alike (h : w.query.Alike q') : ∀ e : Expr, ({ w with query := q' } : Writer).value e = w.value e
  | .literal _ => rfl
  | .object o => by rw [value, value, h.coerce_eq]
  | .parameter name default raw => by
    rw [value, value, parameter_alike h, optionValue_alike h default]
    rfl
  | .property _ => rfl
  | .allProperties _ _ => rfl
  | .pattern _ => rfl
  | .list items => by rw [value, value, values_alike h items]
  | .comparison _ l r => by rw [value, value, value_alike h l, value_alike h r]
  | .like l p _ => by rw [value, value, value_alike h l, value_alike h p]
  | .between l low high _ _ => by rw [value, value, value_alike h l, value_alike h low, value_alike h high]
  | .inList l items _ _ => by rw [value, value, value_alike h l, values_alike h items]
  | .is l _ => by rw [value, value, value_alike h l]
  | .arithmetic _ l r => by
    rw [value, value, value_alike h l, value_alike h r]
    rfl
  | .negate e => by rw [value, value, value_alike h e]
  | .not e => by
    rw [value, value, value_alike h e]
    rfl
  | .logical _ l r => by
    rw [value, value, value_alike h l, value_alike h r]
    rfl
  | .call _ args => by
    rw [value, value, values_alike h args]
    rfl

theorem optionValue_alike (h : w.query.Alike q') :
    ∀ e : Option Expr, ({ w with query := q' } : Writer).optionValue e = w.optionValue e
  | none => rfl
  | some e => by rw [optionValue, optionValue, value_alike h e]

theorem values_alike (h : w.query.Alike q') :
    ∀ es : List Expr, ({ w with query := q' } : Writer).values es = w.values es
  | [] => rfl
  | e :: es => by rw [values, values, value_alike h e, values_alike h es]

end

/-! ### Terms -/

section
variable (h : w.query.Alike q')
include h

theorem filterTerm_alike {item item' : QueryItem} (hnarrows : item.Narrows item') :
    ({ w with query := q' } : Writer).filterTerm item' = w.filterTerm item := by
  obtain ⟨_, _, _, rfl, -⟩ := hnarrows
  have hcondition : ({ w with query := q' } : Writer).condition = w.condition :=
    funext fun e => by
      rw [condition, value_alike h]
      rfl
  simp only [filterTerm, hcondition]

theorem tableName_alike (id : TableId) : ({ w with query := q' } : Writer).tableName id = w.tableName id := by
  simp only [tableName, h.tableTypeName_eq]
  obtain ⟨err, hitem, hitem'⟩ | ⟨item, item', hitem, hitem', -, -, _, _, _, rfl, -⟩ := h.item_cases id
  · rw [hitem, hitem']
  · rw [hitem, hitem']
    rfl

theorem fromTables_alike (id : TableId) : ({ w with query := q' } : Writer).fromTables id = w.fromTables id := by
  have hjoin : ({ w with query := q' } : Writer).joinText = w.joinText :=
    funext fun j => by
      simp only [joinText, tableName_alike h]
      rfl
  simp only [fromTables, tableName_alike h, h.foreignKeyTree_eq, hjoin]
  refine congrArg (w.tableName id >>= ·) (funext fun first => ?_)
  refine congrArg (· >>= _) ?_
  refine congrArg (List.mapM · _) (funext fun t => ?_)
  obtain ⟨err, hitem, hitem'⟩ | ⟨item, item', hitem, hitem', -, -, _, _, _, rfl, -⟩ := h.item_cases t
  · rw [hitem, hitem']
  · rw [hitem, hitem']
    rfl

end

/-! ### Lengths -/

/-- The length of a term. -/
def Term.size (t : Term) : Nat :=
  t.1.length

/-- A term as it stands among others. -/
def Term.shown (t : Term) : String :=
  if t.2.weaker .and then "(" ++ t.1 ++ ")" else t.1

/-- What a term takes up beside its text: a connective, and parentheses if it is weaker. -/
def extra (p : Precedence) : Nat :=
  if p.weaker .and then 7 else 5

theorem five_le_extra (p : Precedence) : 5 ≤ extra p := by
  unfold extra
  split <;> omega

theorem Term.length_shown (t : Term) : t.shown.length + 5 = t.size + extra t.2 := by
  unfold shown extra size
  split
  next =>
    rw [String.length_append, String.length_append, show "(".length = 1 from rfl, show ")".length = 1 from rfl]
    omega
  next => rfl

theorem size_existsTerm (tables : String) (terms : List Term) : (existsTerm tables terms).size =
    ("exists (select null from " ++ tables ++ " where ").length + (conjunction terms).length + ")".length := by
  unfold Term.size existsTerm
  dsimp only
  rw [String.length_append, String.length_append]

theorem length_conjunction_cons_cons (t u : Term) (ts : List Term) :
    (conjunction (t :: u :: ts)).length + 5 = ((t :: u :: ts).map fun t => t.size + extra t.2).sum := by
  refine (length_intercalate " and " t.shown ((u :: ts).map Term.shown)).trans ?_
  rw [← List.map_cons, List.map_map]
  exact congrArg List.sum (List.map_congr_left fun t _ => t.length_shown)

theorem length_conjunction_le (t : Term) (ts : List Term) :
    (conjunction (t :: ts)).length + 5 ≤ ((t :: ts).map fun t => t.size + extra t.2).sum := by
  cases ts with
  | nil => simpa [conjunction, Term.size] using five_le_extra t.2
  | cons u ts => exact (length_conjunction_cons_cons t u ts).le

/-- What is left of a conjunction is no longer, and shorter if something is lost. -/
theorem length_conjunction_of_leaves {p : Prop} {t t' : Term} {ts ts' : List Term}
    (h : Leaves Term.size (·.2) p (t' :: ts') (t :: ts)) :
    (conjunction (t' :: ts')).length ≤ (conjunction (t :: ts)).length ∧
      (p → (conjunction (t' :: ts')).length < (conjunction (t :: ts)).length) := by
  have hsum := sum_add_load_le (fun k => Nat.lt_of_lt_of_le (Nat.zero_lt_succ 4) (five_le_extra k)) h.entries
  have hload := load_le h.entries
  have hless := h.less
  cases ts with
  | nil =>
    -- A term that is alone has no parentheses to lose.
    obtain ⟨rfl, hfirst⟩ : ts' = [] ∧ Shortened Term.size (·.2) t' t := by
      cases h.entries with
      | cons hfirst hrest => exact ⟨by cases hrest; rfl, hfirst⟩
      | cons_right hrest => cases hrest
    refine ⟨hfirst.1, fun hp => ?_⟩
    simpa [load, conjunction, Term.size] using hless hp
  | cons u ts =>
    have hold := length_conjunction_cons_cons t u ts
    have hnew := length_conjunction_le t' ts'
    refine ⟨by omega, fun hp => ?_⟩
    have := hless hp
    omega

/-! ### Lost terms -/

section
variable {field : IdField} {t : TableId}

theorem idTerms_leaves {item item' : QueryItem} (hnarrows : item.Narrows item') (field : IdField) (id : TableId) :
    Leaves Term.size (·.2) (item.Loses field item') (({ w with query := q' } : Writer).idTerms id item')
      (w.idTerms id item) := by
  obtain ⟨own, idList, typeId, rfl, hid, hlist, htype⟩ := hnarrows
  have hterms : Leaves String.length (fun _ => ()) _ _ _ := ((Leaves.of_option
    (fun value => w.aliases.name id ++ "." ++ "id" ++ " = " ++ Text.quoted value) hid).append
    (.of_list (fun listed => w.aliases.name id ++ "." ++ "id" ++ " in ("
      ++ ", ".intercalate (listed.map Text.quoted) ++ ")")
      hlist)).append
    (.of_option (fun value => w.aliases.name id ++ "." ++ "itemtype" ++ " = " ++ Text.quoted value) htype)
  refine (hterms.map (fun shown => (shown, Precedence.comparison)) (fun _ => rfl) fun _ _ _ => rfl).mono fun hloses => ?_
  cases field
  · exact .inl (.inl hloses)
  · exact .inl (.inr hloses)
  · exact .inr hloses

theorem filterTerm_leaves (h : w.query.Alike q') {item item' : QueryItem} (hnarrows : item.Narrows item')
    {ts ts' : List Term} (hts : w.filterTerm item = .ok ts)
    (hts' : ({ w with query := q' } : Writer).filterTerm item' = .ok ts') :
    Leaves Term.size (·.2) False ts' ts := by
  rw [filterTerm_alike h hnarrows, hts] at hts'
  cases hts'
  exact .refl ts

/-- The term of a relationship is shorter if something is lost in it. -/
theorem existsTerm_shortened {p : Prop} {link : Term} {inner inner' : List Term} {tables : String}
    (h : Leaves Term.size (·.2) p inner' inner) :
    Shortened Term.size (·.2) (existsTerm tables (link :: inner')) (existsTerm tables (link :: inner)) ∧
      (p → (existsTerm tables (link :: inner')).size < (existsTerm tables (link :: inner)).size) := by
  obtain ⟨hle, hlt⟩ := length_conjunction_of_leaves (h.cons link)
  refine ⟨⟨?_, rfl⟩, fun hp => ?_⟩
  · rw [size_existsTerm, size_existsTerm]
    exact Nat.add_le_add_right (Nat.add_le_add_left hle _) _
  · rw [size_existsTerm, size_existsTerm]
    exact Nat.add_lt_add_right (Nat.add_lt_add_left (hlt hp) _) _

/-- By induction on how deep relationships lie: what is left of the criteria. They lose something if a table that is
    reached loses an id. -/
theorem terms_leaves (hrooted : w.query.Rooted) (h : w.query.Alike q') (hloses : w.query.Loses q' field t) {depth : Nat}
    {id : TableId} (hdeep : w.query.Deep depth id) {ts ts' : List Term} (hts : w.terms depth id = .ok ts)
    (hts' : ({ w with query := q' } : Writer).terms depth id = .ok ts') :
    Leaves Term.size (·.2) (ReflTransGen w.query.Joined id t) ts' ts := by
  induction depth generalizing id ts ts' with
  | zero => exact absurd rfl hdeep.ne_zero
  | succ depth ih =>
    obtain ⟨found, hfound, rfl⟩ := terms_eq_ok.mp hts
    obtain ⟨found', hfound', rfl⟩ := terms_eq_ok.mp hts'
    rw [h.foreignKeyTree_eq] at hfound'
    refine (Leaves.flatten_mapM (P := fun u => u = t ∨ ∃ item, w.query.get? u = some item ∧
      ∃ j ∈ item.relationships, ReflTransGen w.query.Joined j.right t) hfound hfound'
        fun u hu us us' hus hus' => ?_).mono ?_
    · obtain ⟨item, own, related, hitem, hown, hrelated, rfl⟩ := tableTerms_eq_ok.mp hus
      obtain ⟨item', own', related', hitem', hown', hrelated', rfl⟩ := tableTerms_eq_ok.mp hus'
      have hnarrows := h.narrows hitem hitem'
      rw [hnarrows.relationships_eq] at hrelated'
      have hreached := hrooted.reached_of_mem_foreignKeyTree hu
      have hexists : Leaves Term.size (·.2) (∃ j ∈ item.relationships, ReflTransGen w.query.Joined j.right t)
          related' related := by
        refine .of_mapM hrelated hrelated' fun j hj term term' hterm hterm' => ?_
        obtain ⟨inner, tables, hinner, htables, rfl⟩ := relationTerm_eq_ok.mp hterm
        obtain ⟨inner', tables', hinner', htables', rfl⟩ := relationTerm_eq_ok.mp hterm'
        rw [fromTables_alike h, htables] at htables'
        cases htables'
        have hjoined := hrooted.forest.joined_of_mem hitem (List.mem_of_mem_filter hj)
        exact existsTerm_shortened (ih (hdeep.of_reached hreached hjoined) hinner hinner')
      refine (((idTerms_leaves hnarrows field u).append (filterTerm_leaves h hnarrows hown hown')).append hexists).mono ?_
      rintro (rfl | ⟨other, hother, j, hj, hreach⟩)
      · exact .inl (.inl (hloses.of_get? hitem hitem'))
      · cases hitem.symm.trans hother
        exact .inr ⟨j, hj, hreach⟩
    · intro hreach
      obtain ⟨b, hb, h⟩ := hrooted.exists_behind hreach
      exact ⟨b, hrooted.mem_foreignKeyTree.mpr hb, h⟩

/-- The clause of fewer criteria, if there is one, is not the same. -/
theorem whereClause_ne (hrooted : w.query.Rooted) (h : w.query.Alike q') (hloses : w.query.Loses q' field t)
    (ht : t ∈ w.query.walk) {out : Option String} (hout : w.whereClause = .ok out) :
    ({ w with query := q' } : Writer).whereClause ≠ .ok out := by
  intro hout'
  obtain ⟨terms, hterms, hclause⟩ := Result.bind_eq_ok.mp hout
  obtain ⟨terms', hterms', hclause'⟩ := Result.bind_eq_ok.mp hout'
  rw [rootTerms] at hterms hterms'
  rw [h.tableCount, h.root] at hterms'
  have hleaves := terms_leaves hrooted h hloses (hrooted.deep _) hterms hterms'
  have hless := hleaves.less (hrooted.mem_walk.mp ht)
  rw [Result.pure_eq_ok] at hclause hclause'
  subst hclause
  cases terms with
  | nil => exact absurd hless (Nat.not_lt_zero _)
  | cons first rest =>
    cases terms' with
    | nil => cases hclause'
    | cons first' rest' =>
      have hlength := (length_conjunction_of_leaves hleaves).2 (hrooted.mem_walk.mp ht)
      rw [Option.some.inj hclause'] at hlength
      exact Nat.lt_irrefl _ hlength

end

end Writer

theorem ofQuery_alike {q q' : Query} (h : q.Alike q') (ctx : Context) :
    Aliases.ofQuery ctx q' = Aliases.ofQuery ctx q := by
  have hadd : Aliases.add ctx q' = Aliases.add ctx q := by
    funext aliases id
    unfold Aliases.add
    obtain ⟨err, hitem, hitem'⟩ | ⟨item, item', hitem, hitem', -, -, _, _, _, rfl, -⟩ := h.item_cases id
    · rw [hitem, hitem', Result.error_bind, Result.error_bind]
    · rw [hitem, hitem', Result.ok_bind, Result.ok_bind]
      simp only [baseName, h.tableTypeName_eq]
  rw [Aliases.ofQuery, h.walk_eq, hadd, Aliases.ofQuery]

/-- A statement shows each id that a table asks for. -/
theorem renderWhere_ne {q q' : Query} (hrooted : q.Rooted) (h : q.Alike q') {field : IdField} {t : TableId}
    (hloses : q.Loses q' field t) (ht : t ∈ q.walk) {ctx : Context} {dialect : Dialect} {out : Option String}
    (hout : renderWhere ctx q dialect = .ok out) : renderWhere ctx q' dialect ≠ .ok out := by
  unfold renderWhere Writer.make at hout ⊢
  rw [ofQuery_alike h]
  cases haliases : Aliases.ofQuery ctx q with
  | error err =>
    rw [haliases] at hout
    cases hout
  | ok aliases =>
    rw [haliases] at hout
    exact Writer.whereClause_ne (w := { ctx, query := q, dialect, aliases }) hrooted h hloses ht hout

end ItemQuery.Sql
