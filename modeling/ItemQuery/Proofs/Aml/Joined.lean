import ItemQuery.Proofs.Aml.Nesting
import ItemQuery.Proofs.Aml.Numbers

/-! The combined condition of joined tables. A query whose tables are joined by foreign keys comes back from its events
    with one filter, that of its root, and this has the truth of all filters of the query, whatever rows its tables
    have. -/

namespace ItemQuery

/-- The criteria that a condition combines. -/
def Expr.leaves : Expr → List Expr
  | .logical _ l r => l.leaves ++ r.leaves
  | .not e => e.leaves
  | e => [e]

namespace Aml

open Query

/-! ### Rows -/

section
variable {q q' : Query}

/-- No two tables have the path of one. -/
theorem SamePath.unique (h : q.Grown) (h' : q'.Grown) {a b c : TableId} (ha : SamePath q q' a c)
    (hb : SamePath q q' b c) : a = b := by
  have hroot : ∀ {a : TableId} {name : String}, ¬q'.Leads a name q'.root := fun hleads =>
    h'.not_heads_of_mem_keyed hleads.mem_keyed (.inl rfl)
  induction ha generalizing b with
  | root =>
    generalize hc : q'.root = c at hb
    cases hb with
    | root => rfl
    | key _ _ hleads => exact absurd (hc ▸ hleads) hroot
  | @key a₁ c₁ a c name hpath hleads hleads' ih =>
    cases hb with
    | root => exact absurd hleads' hroot
    | key hpath₂ hleads₂ hleads₂' =>
      obtain ⟨rfl, rfl⟩ := Leads.unique h' hleads' hleads₂'
      cases ih hpath₂
      exact Leads.right_unique h hleads hleads₂

open Classical in
/-- Every assignment of rows to the tables of one query gives one to those of the other. -/
theorem exists_agree (h : q.Grown) (h' : q'.Grown) (v : Valuation) : ∃ v', Agree q q' v v' := by
  refine ⟨⟨fun p => if hp : ∃ a, SamePath q q' a p.table then v.property ⟨hp.choose, p.name⟩ else .null, v.parameter⟩,
    fun a a' ha name => ?_, rfl⟩
  have hp : ∃ b, SamePath q q' b a' := ⟨a, ha⟩
  dsimp only
  rw [dif_pos hp, hp.choose_spec.unique h h' ha]

end

/-! ### All filters -/

/-- The truth of all filters of a query. -/
noncomputable def conjunctionOf (q : Query) (filterOf : TableId → Option Expr) : Meaning :=
  fun I v => .all (q.arena.ids.map fun id => Expr.filterTruth I v (filterOf id))

section
variable {q : Query} {I : Interpretation} {v : Valuation}

theorem filters_eq_conjunctionOf {ids : List TableId} (hlive : ∀ id ∈ ids, q.contains id = true)
    (hall : ∀ id, (q.filterOf id).isSome = true → id ∈ ids) : filters q ids I v = conjunctionOf q q.filterOf I v := by
  refine Truth.all_congr fun t ht => ?_
  simp only [List.mem_map, Arena.mem_ids]
  constructor
  · rintro ⟨id, hid, rfl⟩
    exact ⟨id, hlive id hid, rfl⟩
  · rintro ⟨id, -, rfl⟩
    refine ⟨id, hall id ?_, rfl⟩
    cases hfilter : q.filterOf id with
    | none => exact absurd (by rw [hfilter]; rfl) ht
    | some e => rfl

theorem conjunctionOf_root (hlive : q.contains q.root = true) {f : TableId → Option Expr} {e : Option Expr}
    (hroot : f q.root = e) (hother : ∀ id ≠ q.root, f id = none) :
    conjunctionOf q f I v = Expr.filterTruth I v e := by
  have hsame : conjunctionOf q f I v = .all [Expr.filterTruth I v e] := by
    refine Truth.all_congr fun t ht => ?_
    simp only [List.mem_map, Arena.mem_ids, List.mem_singleton]
    constructor
    · rintro ⟨id, -, rfl⟩
      by_cases hid : id = q.root
      · rw [hid, hroot]
      · rw [hother id hid] at ht
        exact absurd rfl ht
    · rintro rfl
      exact ⟨q.root, hlive, by rw [hroot]⟩
  rw [hsame, Truth.all_cons, Truth.all_nil, Truth.and_true]

end

/-! ### Round trip -/

/-- Read again, the events give a query with other filters, whose texts stand for the values that they were written
    from. On rows that are the same along foreign keys, these have together the truth of all filters of `q`. -/
def KeepsCondition (ctx : Context) (q : Query) (V : Interpretation → Valuation → Prop) (es : List Xml.Event) : Prop :=
  ∃ q' restored, ofEvents es = .ok q' ∧ (∀ id, Option.Rel (Restored ⟨ctx, q⟩) (q'.filterOf id) (restored id)) ∧
    (∀ v, ∃ v', Agree q q' v v') ∧
    ∀ I v v', V I v → Agree q q' v v' → conjunctionOf q' restored I v' = conjunctionOf q q.filterOf I v

/-- A query that is joined by foreign keys, whose names and values can be read and whose filters keep to what stands
    behind their tables. -/
structure Recoverable (ctx : Context) (q : Query) (V : Interpretation → Valuation → Prop) : Prop where
  tree : q.KeyTree
  names : ∀ a name b, q.Leads a name b → name ∉ reservedNames
  typed : ∃ typeName, ctx.tableTypeName q q.root = some typeName ∧ typeName ≠ ""
  selectable : ∀ text, Writer.select? ⟨ctx, q⟩ (q.tableCount + 1) q.root = some text → Selectable text
  sayable : ∀ id e, q.filterOf id = some e → Sayable (Told ⟨ctx, q⟩ V) e
  behind : ∀ id e, q.filterOf id = some e → ∀ t ∈ e.tableRefs, q.Behind id t
  confined : ∀ id e, q.filterOf id = some e → Confined q (Prepared q id) (e.flatten .and)

section
variable {ctx : Context} {q : Query} {V : Interpretation → Valuation → Prop}

theorem Recoverable.tellable (h : Recoverable ctx q V) : Tellable ⟨ctx, q⟩ V (Told ⟨ctx, q⟩ V) where
  tree := h.tree
  leaf _ _ _ hlive he hwritten := he.conveys hlive hwritten
  sayable := h.sayable
  behind := h.behind
  confined := h.confined
  names := h.names

theorem exists_restored {w : Writer} {q' : Query} {found : List Expr} {Ts : List Meaning}
    (h : List.Forall₂ (Says w V q') found Ts) :
    ∃ restored, Option.Rel (Restored w) (Expr.allOf found) restored ∧
      ∀ I v v', V I v → Agree w.query q' v v' → Expr.filterTruth I v' restored = Meaning.all Ts I v := by
  cases hall : Expr.allOf found with
  | none =>
    cases h with
    | nil => exact ⟨none, .none, fun _ _ _ _ _ => rfl⟩
    | cons => cases hall
  | some x =>
    obtain ⟨r, hr, htruth⟩ := Says.chain h hall
    exact ⟨some r, .some hr, htruth⟩

theorem filters_eq_of_done (htree : q.KeyTree) {new : List TableId} (hbehind : ∀ b ∈ new, q.Behind q.root b)
    (hdone : Done q (new ++ []) q.root) (I : Interpretation) (v : Valuation) :
    filters q new I v = conjunctionOf q q.filterOf I v := by
  refine filters_eq_conjunctionOf (fun id hid => ?_) fun id hid => ?_
  · rcases (hbehind id hid).cases_tail with heq | ⟨c, -, hc⟩
    · rw [heq]
      exact htree.rootLive
    · exact htree.contains_of_mem_keyed hc
  · have hlive : q.contains id = true := by
      obtain ⟨e, he⟩ := Option.isSome_iff_exists.mp hid
      obtain ⟨item, hitem, -⟩ := Option.bind_eq_some_iff.mp he
      exact contains_iff.mpr ⟨item, hitem⟩
    have hmem := hdone id (htree.behind_iff.mpr (htree.reached id hlive)) hid
    rwa [List.append_nil] at hmem

/-- A query whose filters can be told is read as one with a filter on its root alone, which says all of them. -/
theorem Tellable.exists_filter {P : Expr → Prop} (h : Tellable ⟨ctx, q⟩ V P)
    (htyped : ∃ typeName, ctx.tableTypeName q q.root = some typeName ∧ typeName ≠ "")
    (hselect : ∀ text, Writer.select? ⟨ctx, q⟩ (q.tableCount + 1) q.root = some text → Selectable text)
    {es : List Xml.Event} (hes : events ctx q = .ok es) :
    ∃ q' restored, ofEvents es = .ok q' ∧ q'.Grown ∧ (∀ id ≠ q'.root, q'.filterOf id = none) ∧
      Option.Rel (Restored ⟨ctx, q⟩) (q'.filterOf q'.root) restored ∧
      ∀ I v v', V I v → Agree q q' v v' → Expr.filterTruth I v' restored = conjunctionOf q q.filterOf I v := by
  obtain ⟨⟨_, seen⟩, hitem, rfl⟩ := Result.map_eq_ok.mp hes
  have htree : q.KeyTree := h.tree
  obtain ⟨item, listing, body, new, Ts, -, hlisting, rfl, rfl, hinscribed⟩ := deliversItem h (q.tableCount + 1)
    q.root [] true (fun _ => False) [] _ seen hitem (htree.deep _) htree.rootLive nofun trivial
    (fun _ _ => False.elim) (fun a _ habove => absurd habove (htree.not_below_root a)) nofun nofun
  obtain ⟨typeName, htype, hne⟩ := htyped
  obtain ⟨q', found, hread, hgrown, hfilter, hsaid⟩ := ofEvents_item htype hne hselect hlisting hinscribed.conveys
  obtain ⟨restored, hrel, htruth⟩ := exists_restored hsaid
  refine ⟨q', restored, hread, hgrown, fun id hid => by rw [hfilter, if_neg hid], by rwa [hfilter, if_pos rfl],
    fun I v v' hV hagree => ?_⟩
  calc Expr.filterTruth I v' restored
      = Meaning.all Ts I v := htruth I v v' hV hagree
    _ = filters q new I v := by
      rw [hinscribed.truth I v hV]
      exact Truth.true_and _
    _ = conjunctionOf q q.filterOf I v := filters_eq_of_done htree hinscribed.behind hinscribed.done I v

/-- Writing and reading a recoverable query keeps its combined condition. -/
theorem Recoverable.keepsCondition (h : Recoverable ctx q V) {es : List Xml.Event} (hes : events ctx q = .ok es) :
    KeepsCondition ctx q V es := by
  obtain ⟨q', restored, hread, hgrown, hnone, hrel, htruth⟩ := h.tellable.exists_filter h.typed h.selectable hes
  refine ⟨q', fun id => if id = q'.root then restored else none, hread, fun id => ?_,
    fun v => exists_agree h.tree.toGrown hgrown v, fun I v v' hV hagree => ?_⟩
  · dsimp only
    split
    next hid => exact hid ▸ hrel
    next hid =>
      rw [hnone id hid]
      exact .none
  · rw [conjunctionOf_root hgrown.rootLive (if_pos rfl) fun _ hid => if_neg hid]
    exact htruth I v v' hV hagree

end

/-! ### Criteria without constants -/

theorem isMute_eq_false_of_leaves {e : Expr} (h : ∀ x ∈ e.leaves, ∀ b, x ≠ .literal (.bool b)) : e.isMute = false := by
  fun_induction Expr.isMute e with
  | case1 b => exact absurd rfl (h _ List.mem_cons_self b)
  | case2 op l r ihl ihr =>
    rw [Expr.leaves, List.forall_mem_append] at h
    rw [ihl h.1, ihr h.2, Bool.and_self]
  | case3 => rfl

theorem sayable_of_leaves {P : Expr → Prop} {e : Expr} (h : ∀ x ∈ e.leaves, (∀ b, x ≠ .literal (.bool b)) ∧ P x) :
    Sayable P e := by
  fun_induction Sayable P e with
  | case1 op l r ihl ihr =>
    rw [Expr.leaves, List.forall_mem_append] at h
    refine ⟨ihl h.1, ihr h.2, fun _ => ?_⟩
    rw [isMute_eq_false_of_leaves fun x hx => (h.1 x hx).1, isMute_eq_false_of_leaves fun x hx => (h.2 x hx).1]
  | case2 e ih => exact ⟨ih h, isMute_eq_false_of_leaves fun x hx => (h x hx).1⟩
  | case3 e hlogical hnot =>
    refine (h e ?_).2
    cases e with
    | logical op l r => exact absurd rfl (hlogical op l r)
    | not e => exact absurd rfl (hnot e)
    | _ => exact List.mem_cons_self

/-- The combined condition of tables that are joined by foreign keys, with filters about their own table and those
    below it and without constants, survives in AML, if each filter is confined. -/
theorem keepsCondition_events {ctx : Context} {q : Query} {V : Interpretation → Valuation → Prop} (htree : q.KeyTree)
    (hbehind : ∀ id e, q.filterOf id = some e → ∀ t ∈ e.tableRefs, q.Behind id t)
    (hconfined : ∀ id e, q.filterOf id = some e → Confined q (Prepared q id) (e.flatten .and))
    (hleaves : ∀ id e, q.filterOf id = some e → ∀ x ∈ e.leaves, (∀ b, x ≠ .literal (.bool b)) ∧ Told ⟨ctx, q⟩ V x)
    (hnames : ∀ a name b, q.Leads a name b → name ∉ reservedNames)
    (htyped : ∃ typeName, ctx.tableTypeName q q.root = some typeName ∧ typeName ≠ "")
    (hselect : ∀ text, Writer.select? ⟨ctx, q⟩ (q.tableCount + 1) q.root = some text → Selectable text)
    {es : List Xml.Event} (hes : events ctx q = .ok es) : KeepsCondition ctx q V es :=
  Recoverable.keepsCondition
    ⟨htree, hnames, htyped, hselect, fun id e he => sayable_of_leaves (hleaves id e he), hbehind, hconfined⟩ hes

/-- Parts with these filters on themselves and on their owners. -/
def ownedParts (own owner : Option Expr) : Query :=
  let joined := (Query.ofItem { typeName := some "Part", filter := own }).joinProperty ⟨0, 0⟩ "owner" .inner
  joined.2.modify ⟨1, 0⟩ fun item => { item with filter := owner }

section
variable {own owner : Option Expr}

theorem keyTree_ownedParts : (ownedParts own owner).KeyTree := by
  have htree : (ofItem { typeName := some "Part", filter := own }).KeyTree := keyTree_ofItem rfl
  exact (htree.joinProperty htree.rootLive "owner" .inner).modify (f := fun item => { item with filter := owner })
    (fun _ => rfl) _

theorem filterOf_ownedParts (id : TableId) :
    (ownedParts own owner).filterOf id = if id = ⟨1, 0⟩ then owner else if id = ⟨0, 0⟩ then own else none := by
  have htree : (ofItem { typeName := some "Part", filter := own }).KeyTree := keyTree_ofItem rfl
  obtain ⟨-, hwidens, -⟩ := htree.toGrown.joinProperty htree.rootLive "owner" .inner
  rw [ownedParts, filterOf, get?_modify]
  split
  next heq =>
    subst heq
    rfl
  next hne =>
    refine (hwidens.filterOf id).trans ?_
    rw [filterOf, get?_ofItem]
    exact apply_ite (Option.bind · QueryItem.filter) _ _ _

theorem leads_ownedParts {a b : TableId} {name : String} (h : (ownedParts own owner).Leads a name b) :
    a = ⟨0, 0⟩ ∧ name = "owner" ∧ b = ⟨1, 0⟩ := by
  obtain ⟨_, hlink, -, rfl, rfl⟩ := h
  obtain ⟨j, hj, rfl⟩ := List.mem_map.mp hlink
  obtain ⟨item, hitem, hmem⟩ := mem_joinsOf.mp hj
  have hleft := keyTree_ownedParts.forest.owned a item hitem j hmem
  have hjoins : (ownedParts own owner).joins = [⟨⟨0, 0⟩, ⟨1, 0⟩, .inner, .oneToOne, "owner", "id"⟩] := rfl
  have hone := mem_joins.mpr ⟨a, hj⟩
  rw [hjoins, List.mem_singleton] at hone
  subst hone
  exact ⟨hleft.symm, rfl, rfl⟩

theorem owner_keyed : (⟨1, 0⟩ : TableId) ∈ (ownedParts own owner).keyed ⟨0, 0⟩ := by
  have hkeyed : (ownedParts own owner).keyed ⟨0, 0⟩ = [⟨1, 0⟩] := rfl
  rw [hkeyed]
  exact List.mem_cons_self

theorem behind_root_ownedParts {b : TableId} (h : (ownedParts own owner).Behind b ⟨0, 0⟩) : b = ⟨0, 0⟩ :=
  (eq_or_below_of_behind h).resolve_right (keyTree_ownedParts.not_below_root b)

theorem behind_owner_ownedParts {b : TableId} (h : (ownedParts own owner).Behind b ⟨1, 0⟩) :
    b = ⟨1, 0⟩ ∨ b = ⟨0, 0⟩ :=
  (eq_or_below_of_behind h).imp_right fun hbelow =>
    behind_root_ownedParts (keyTree_ownedParts.behind_of_below hbelow owner_keyed)

theorem select?_ownedParts : Writer.select? ⟨{}, ownedParts own owner⟩ ((ownedParts own owner).tableCount + 1)
    (ownedParts own owner).root = none :=
  rfl

/-- What holds of both filters holds of every filter. -/
theorem forall_filterOf_ownedParts {own owner : Expr} {p : TableId → Expr → Prop} (hown : p ⟨0, 0⟩ own)
    (howner : p ⟨1, 0⟩ owner) :
    ∀ id e, (ownedParts (some own) (some owner)).filterOf id = some e → p id e := by
  intro id e he
  rw [filterOf_ownedParts] at he
  split at he
  next heq =>
    cases he
    exact heq ▸ howner
  next =>
    split at he
    next heq =>
      cases he
      exact heq ▸ hown
    next => cases he

end

/-- The alternative about parts and owners comes after a criterion about owners alone, and is written behind it. -/
theorem keepsCondition_events_ownedParts :
    let q := ownedParts
      (some (.and (.comparison .eq (.prop ⟨1, 0⟩ "login") (.text "ann"))
        (.or (.is (.prop ⟨0, 0⟩ "state") .null) (.comparison .gt (.prop ⟨1, 0⟩ "age") (.int 3)))))
      (some (.and (.inList (.prop ⟨1, 0⟩ "role") [.text "it's", .int (-2)] true none)
        (.between (.prop ⟨1, 0⟩ "rate") (.literal (.float (-1.5))) (.literal (.float 2.5)) false none)))
    ∃ es, events {} q = .ok es ∧ KeepsCondition {} q (fun _ _ => True) es := by
  intro q
  have hsome : (events {} q).toOption.isSome = true := by decide +kernel
  obtain ⟨es, hes⟩ : ∃ es, events {} q = .ok es := by
    cases h : events {} q with
    | error err => rw [h] at hsome; cases hsome
    | ok es => exact ⟨es, rfl⟩
  refine ⟨es, hes, keepsCondition_events keyTree_ownedParts ?_ ?_ ?_ ?_ ⟨"Part", rfl, by decide⟩ ?_ hes⟩
  · exact forall_filterOf_ownedParts
      (List.forall_mem_cons.mpr ⟨.single owner_keyed, List.forall_mem_cons.mpr ⟨.refl,
        List.forall_mem_singleton.mpr (.single owner_keyed)⟩⟩)
      (List.forall_mem_cons.mpr ⟨.refl, List.forall_mem_singleton.mpr .refl⟩)
  · refine forall_filterOf_ownedParts ⟨fun b hb => .inl (hb.keeps fun t => List.mem_singleton.mp), fun b hb => ?_, trivial⟩
      ⟨fun b hb => .inl (hb.keeps fun t => List.mem_singleton.mp),
        fun b hb => .inl (hb.keeps fun t => List.mem_singleton.mp), trivial⟩
    have hb' : b = ⟨1, 0⟩ ∨ b = ⟨0, 0⟩ := by
      obtain ⟨t, ht, hbt⟩ := hb
      rcases List.mem_cons.mp ht with rfl | ht
      · exact .inr (behind_root_ownedParts hbt)
      · cases List.mem_singleton.mp ht
        exact behind_owner_ownedParts hbt
    rcases hb' with rfl | rfl
    · refine .inr ⟨⟨1, 0⟩, .refl, fun hkeeps => ?_,
        .inr ⟨⟨⟨1, 0⟩, List.mem_cons_self, .refl⟩, List.forall_mem_singleton.mpr .refl⟩⟩
      cases behind_root_ownedParts (hkeeps.behind ⟨0, 0⟩ List.mem_cons_self)
    · exact .inl ⟨hb, List.forall_mem_cons.mpr ⟨.refl, List.forall_mem_singleton.mpr (.single owner_keyed)⟩⟩
  · have hann : Writer.valueText ⟨{}, q⟩ (.text "ann") = .ok "ann" := by rw [Expr.text, Writer.valueText]
    have hthree : Writer.valueText ⟨{}, q⟩ (.int 3) = .ok "3" := by rw [Expr.int, Writer.valueText]; decide +kernel
    have hquote : Writer.listText ⟨{}, q⟩ (.text "it's") = .ok (Text.quoted "it's") := by
      rw [Expr.text, Writer.listText]
      rfl
    have hrange : Told ⟨{}, q⟩ (fun _ _ => True)
        (.between (.prop ⟨1, 0⟩ "rate") (.literal (.float (-1.5))) (.literal (.float 2.5)) false none) :=
      ⟨by decide, enumerable_float ⟨by decide +kernel, by decide +kernel⟩,
        enumerable_float ⟨by decide +kernel, by decide +kernel⟩⟩
    refine forall_filterOf_ownedParts ?_ (List.forall_mem_cons.mpr ⟨⟨by simp, by decide, ?_⟩,
      List.forall_mem_singleton.mpr ⟨by simp, hrange⟩⟩)
    · refine List.forall_mem_cons.mpr ⟨⟨by simp, by decide, comparable_of_valueText rfl hann ?_⟩,
        List.forall_mem_cons.mpr ⟨⟨by simp, show "state" ∉ reservedNames by decide⟩,
          List.forall_mem_singleton.mpr ⟨by simp, by decide, comparable_of_valueText rfl hthree ?_⟩⟩⟩ <;>
      (unfold IsNow; decide +kernel)
    · refine List.forall_mem_cons.mpr ⟨enumerable_quoted rfl hquote ?_,
        List.forall_mem_singleton.mpr (enumerable_integer (-2))⟩
      unfold IsNow
      decide +kernel
  · intro a name b hleads
    rw [(leads_ownedParts hleads).2.1]
    decide
  · intro text htext
    rw [select?_ownedParts] at htext
    cases htext

/-! ### Conditions that are lost -/

/-- A query joined by foreign keys, with filters about their own tables and those below and without constants, is
    written, and its condition does not survive. -/
def LosesCondition (q : Query) : Prop :=
  q.KeyTree ∧ (∀ id e, q.filterOf id = some e → (∀ t ∈ e.tableRefs, q.Behind id t) ∧
      ∀ x ∈ e.leaves, ∀ b, x ≠ .literal (.bool b)) ∧
    ∃ es, events {} q = .ok es ∧ ¬KeepsCondition {} q (fun _ _ => True) es

theorem conjunctionOf_ownedParts {own owner : Option Expr} {I : Interpretation} {v : Valuation} :
    conjunctionOf (ownedParts own owner) (ownedParts own owner).filterOf I v
      = (Expr.filterTruth I v own).and (Expr.filterTruth I v owner) := by
  have hids : (ownedParts own owner).arena.ids = [⟨0, 0⟩, ⟨1, 0⟩] := rfl
  rw [conjunctionOf, hids]
  simp only [List.map_cons, List.map_nil, Truth.all_cons, Truth.all_nil, Truth.and_true]
  rw [filterOf_ownedParts, filterOf_ownedParts]
  rfl

/-- What a condition that survives says of the filter that is read, if only the root has one. -/
theorem KeepsCondition.exists_restored {q : Query} {es : List Xml.Event} {V : Interpretation → Valuation → Prop}
    (h : KeepsCondition {} q V es) (root : TableId) (e : Expr) (others : List TableId)
    (hread : (ofEvents es).map (fun q' => (q'.root, q'.arena.ids.map fun id => (id, q'.filterOf id)))
      = .ok (root, (root, some e) :: others.map fun id => (id, none))) {I : Interpretation} {v : Valuation} (hV : V I v) :
    ∃ r v', Restored ⟨{}, q⟩ e r ∧ (∀ name, v'.property ⟨root, name⟩ = v.property ⟨q.root, name⟩) ∧
      r.truth I v' = conjunctionOf q q.filterOf I v := by
  obtain ⟨q', restored, hq', hrestored, hrows, htruth⟩ := h
  obtain ⟨v', hagree⟩ := hrows v
  rw [hq', Except.map, Except.ok.injEq, Prod.mk.injEq] at hread
  obtain ⟨rfl, hfilters⟩ := hread
  obtain ⟨first, rest, hids, hfirst, hrest⟩ := List.map_eq_cons_iff.mp hfilters
  obtain ⟨rfl, hfilter⟩ := Prod.mk.inj hfirst
  have hnone : ∀ id ∈ rest, restored id = none := by
    intro id hid
    have hmem : (id, q'.filterOf id) ∈ others.map fun id => (id, (none : Option Expr)) := by
      rw [← hrest]
      exact List.mem_map_of_mem hid
    obtain ⟨other, -, hother⟩ := List.mem_map.mp hmem
    have hrel := hrestored id
    rw [← (Prod.mk.inj hother).2] at hrel
    generalize restored id = x at hrel
    cases hrel
    rfl
  obtain ⟨r, hr, hrestored⟩ : ∃ r, restored q'.root = some r ∧ Restored ⟨{}, q⟩ e r := by
    have hrel := hrestored q'.root
    rw [hfilter] at hrel
    generalize restored q'.root = x at hrel
    cases hrel with
    | some h => exact ⟨_, rfl, h⟩
  refine ⟨r, v', hrestored, hagree.property _ _ .root, ?_⟩
  rw [← htruth I v v' hV hagree, conjunctionOf, hids, List.map_cons, Truth.all_cons, hr]
  have hall : Truth.all (rest.map fun id => Expr.filterTruth I v' (restored id)) = some true := by
    refine Truth.all_eq_true.mpr (List.forall_mem_map.mpr fun id hid => ?_)
    rw [hnone id hid]
    rfl
  rw [hall, Truth.and_true]
  rfl

theorem not_keepsCondition_of_isNone {q : Query} {es : List Xml.Event} {V : Interpretation → Valuation → Prop}
    (h : (ofEvents es).toOption.isNone = true) : ¬KeepsCondition {} q V es := by
  rintro ⟨q', -, hq', -⟩
  rw [hq'] at h
  cases h

-- The requests below are read by computation, also where a function recurses along a measure.
unseal String.mapAux Pattern.wildcardPieces

/-- The filter of the owners is written inside of the alternative in which they come up first. -/
theorem losesCondition_alternative :
    LosesCondition (ownedParts
      (some (.or (.is (.prop ⟨0, 0⟩ "state") .null) (.is (.prop ⟨1, 0⟩ "age") .null)))
      (some (.is (.prop ⟨1, 0⟩ "active") .null))) := by
  refine ⟨keyTree_ownedParts, forall_filterOf_ownedParts ⟨?_, by simp [Expr.leaves, Expr.or]⟩
    ⟨List.forall_mem_singleton.mpr .refl, by simp [Expr.leaves]⟩, _, rfl, fun h => ?_⟩
  · exact List.forall_mem_cons.mpr ⟨.refl, List.forall_mem_singleton.mpr (.single owner_keyed)⟩
  -- A part without a state and an active owner.
  let v : Valuation := ⟨fun p => if p.name = "active" then .bool true else .null, fun _ => none⟩
  let I : Interpretation := ⟨fun _ => .null, fun _ _ => .null, fun _ _ => .null, fun _ _ => false, fun _ => false⟩
  obtain ⟨r, v', hr, hrow, htruth⟩ := h.exists_restored ⟨0, 0⟩
    (.or (.is (.prop ⟨0, 0⟩ "state") .null)
      (.and (.is (.prop ⟨1, 0⟩ "age") .null) (.is (.prop ⟨1, 0⟩ "active") .null)))
    [⟨1, 0⟩] rfl (I := I) (v := v) trivial
  have hfirst : ∃ x, r = .or (.is (.prop ⟨0, 0⟩ "state") .null) x := by
    cases hr with
    | same => exact ⟨_, rfl⟩
    | logical hl _ =>
      cases hl
      exact ⟨_, rfl⟩
  obtain ⟨x, rfl⟩ := hfirst
  have hstate : (Expr.is (.prop ⟨0, 0⟩ "state") .null).truth I v' = some true :=
    congrArg (fun value => some (Value.isNull value)) (hrow "state")
  rw [conjunctionOf_ownedParts, Expr.or, Expr.truth_logical, hstate] at htruth
  cases htruth

section
variable {item : QueryItem} {e : Expr}

theorem losesCondition_ofItem (hjoins : item.joins = []) (hfilter : item.filter = some e)
    (hrefs : ∀ t ∈ e.tableRefs, t = ⟨0, 0⟩) (hleaves : ∀ x ∈ e.leaves, ∀ b, x ≠ .literal (.bool b))
    (hlost : ∃ es, events {} (.ofItem item) = .ok es ∧ ¬KeepsCondition {} (.ofItem item) (fun _ _ => True) es) :
    LosesCondition (.ofItem item) := by
  refine ⟨keyTree_ofItem hjoins, fun id e' he => ?_, hlost⟩
  rw [filterOf, get?_ofItem] at he
  split at he
  next hid =>
    cases hfilter.symm.trans he
    refine ⟨fun t ht => ?_, hleaves⟩
    rw [hrefs t ht, hid]
    exact .refl
  next => cases he

theorem conjunctionOf_ofItem (hfilter : item.filter = some e) (I : Interpretation) (v : Valuation) :
    conjunctionOf (.ofItem item) (ofItem item).filterOf I v = e.truth I v := by
  have hfilters : ∀ id, (ofItem item).filterOf id = if id = (ofItem item).root then some e else none := by
    intro id
    rw [filterOf, get?_ofItem, ← hfilter]
    exact apply_ite (Option.bind · QueryItem.filter) _ _ _
  exact conjunctionOf_root (contains_iff.mpr ⟨item, get?_ofItem.trans (if_pos rfl)⟩)
    ((hfilters _).trans (if_pos rfl)) fun id hid => (hfilters id).trans (if_neg hid)

/-- A filter that is read as another one, which tells apart some value of its property. -/
theorem losesCondition_of_read (read : Expr) (I : Interpretation) (value : Value)
    (hrefs : ∀ t ∈ e.tableRefs, t = ⟨0, 0⟩) (hleaves : ∀ x ∈ e.leaves, ∀ b, x ≠ .literal (.bool b)) {es : List Xml.Event}
    (hes : events {} (.ofItem { typeName := some "Part", filter := some e }) = .ok es)
    (hread : (ofEvents es).map (fun q' => (q'.root, q'.arena.ids.map fun id => (id, q'.filterOf id)))
      = .ok (⟨0, 0⟩, [(⟨0, 0⟩, some read)]))
    (hsame : ∀ r, Restored ⟨{}, .ofItem { typeName := some "Part", filter := some e }⟩ read r → r = read)
    (htruth : ∀ v v' : Valuation, (∀ name, v.property ⟨⟨0, 0⟩, name⟩ = value) →
      (∀ name, v'.property ⟨⟨0, 0⟩, name⟩ = value) → read.truth I v' ≠ e.truth I v) :
    LosesCondition (.ofItem { typeName := some "Part", filter := some e }) := by
  refine losesCondition_ofItem rfl rfl hrefs hleaves ⟨es, hes, fun h => ?_⟩
  obtain ⟨r, v', hr, hrow, hkept⟩ := h.exists_restored ⟨0, 0⟩ read [] hread (I := I)
    (v := ⟨fun _ => value, fun _ => none⟩) trivial
  rw [hsame r hr, conjunctionOf_ofItem rfl] at hkept
  exact htruth _ v' (fun _ => rfl) hrow hkept

end

/-- An anchor that may be left out does not tie a pattern to the start of a text. -/
theorem finds_optionalStart :
    Pattern.Finds ⟨[[.anchor .start ⟨0, some 1, true⟩, .text "a" .once, .at_ .finish]]⟩ "ba".toList := by
  have honce : ∀ {R : Span} {i j}, R i j → Span.repeated .once R i j := by
    intro R i j h
    rwa [Span.repeated_of_isOnce rfl]
  have hskip : Span.repeated ⟨0, some 1, true⟩ (Piece.once "ba".toList (.at_ .start)) 1 1 :=
    ⟨0, Nat.le_refl 0, fun _ _ => Nat.zero_le _, rfl⟩
  exact ⟨1, 2, by decide, .inl ⟨1, hskip, 2, honce ⟨rfl, by decide⟩, 2, honce ⟨rfl, rfl⟩, rfl⟩⟩

/-- Where the filter of the owners comes up first inside of an alternative, it is lost outside of it. The text of the
    current time is read as a call, a truth in a value list as a number, a set that starts with the negation of AML as
    its complement, an anchor that may be left out as one that may not, and a pattern without alternatives as the empty
    text. An element that combines criteria is no property, and an item without a type or with a select list that is
    none is not read. -/
theorem losesCondition_alternative_and_unreadable :
    LosesCondition (ownedParts
      (some (.or (.is (.prop ⟨0, 0⟩ "state") .null) (.is (.prop ⟨1, 0⟩ "age") .null)))
      (some (.is (.prop ⟨1, 0⟩ "active") .null))) ∧
    (∀ e ∈ [.comparison .eq (.prop ⟨0, 0⟩ "made") (.text "__now()"),
        .inList (.prop ⟨0, 0⟩ "made") [.literal (.bool true)] false none,
        .like (.prop ⟨0, 0⟩ "made")
          (.pattern ⟨[[.at_ .start, .set ⟨[.char '^', .char 'a'], false⟩ .once, .at_ .finish]]⟩) false,
        .like (.prop ⟨0, 0⟩ "made")
          (.pattern ⟨[[.anchor .start ⟨0, some 1, true⟩, .text "a" .once, .at_ .finish]]⟩) false,
        .like (.prop ⟨0, 0⟩ "made") (.pattern ⟨[]⟩) false],
      LosesCondition (.ofItem { typeName := some "Part", filter := some e })) ∧
    ∀ item ∈ [{ typeName := some "Part", filter := some (.is (.prop ⟨0, 0⟩ "Item") .null) },
        { filter := some (.is (.prop ⟨0, 0⟩ "made") .null) },
        ({ typeName := some "Part", select := [⟨.prop ⟨0, 0⟩ "name(", none⟩],
           filter := some (.is (.prop ⟨0, 0⟩ "made") .null) } : QueryItem)],
      LosesCondition (.ofItem item) := by
  let I : Interpretation := ⟨fun _ => .null, fun _ _ => .null, fun _ _ => .null, fun _ _ => false, fun _ => false⟩
  simp only [List.forall_mem_cons, List.not_mem_nil, false_implies, implies_true, and_true]
  refine ⟨losesCondition_alternative, ⟨?_, ?_, ?_, ?_, ?_⟩, ?_, ?_, ?_⟩
  · refine losesCondition_of_read (.comparison .eq (.prop ⟨0, 0⟩ "made") (.call .currentDateTime [])) I (.text "__now()")
      (by simp [Expr.tableRefs, Expr.prop, Expr.text]) (by simp [Expr.leaves]) rfl rfl (fun r hr => ?_)
      fun v v' hv hv' => ?_
    · cases hr with
      | same => rfl
      | comparison h =>
        cases h
        rfl
    · rw [Expr.truth_comparison, Expr.truth_comparison, Expr.prop, Expr.eval, Expr.eval, hv, hv']
      change Value.compare .eq (.text "__now()") .null ≠ Value.compare .eq (.text "__now()") (.text "__now()")
      decide +kernel
  · refine losesCondition_of_read (.inList (.prop ⟨0, 0⟩ "made") [.int 1] false none) I (.bool true)
      (by simp [Expr.tableRefs, Expr.prop, Expr.listTableRefs]) (by simp [Expr.leaves]) rfl rfl (fun r hr => ?_)
      fun v v' hv hv' => ?_
    · cases hr with
      | same => rfl
      | inList h =>
        cases h with
        | cons hfirst hrest =>
          cases hfirst
          cases hrest
          rfl
    · rw [Expr.truth_inList, Expr.truth_inList, Expr.prop, Expr.eval, Expr.eval, hv, hv']
      change Value.isIn (.bool true) [.integer 1] ≠ Value.isIn (.bool true) [.bool true]
      decide
  · refine losesCondition_of_read
      (.like (.prop ⟨0, 0⟩ "made")
        (.pattern ⟨[[.at_ .start, .set ⟨[.char 'a'], true⟩ .once, .at_ .finish]]⟩) false) I (.text "a")
      (by simp [Expr.tableRefs, Expr.prop]) (by simp [Expr.leaves]) rfl rfl (fun r hr => ?_)
      fun v v' hv hv' => ?_
    · cases hr
      rfl
    · have hletter : "a".toList = ['a'] := rfl
      rw [Expr.truth_like, Expr.truth_like, Expr.prop, Expr.eval, Expr.eval, hv, hv']
      simp only [Expr.eval, Interpretation.matching, hletter, Pattern.finds_set_iff rfl]
      decide
  · refine losesCondition_of_read
      (.like (.prop ⟨0, 0⟩ "made") (.pattern (.ofShape .equals "a")) false) I (.text "ba")
      (by simp [Expr.tableRefs, Expr.prop]) (by simp [Expr.leaves]) rfl rfl (fun r hr => ?_)
      fun v v' hv hv' => ?_
    · cases hr
      rfl
    · have hread : ¬(Pattern.ofShape .equals "a").Finds "ba".toList := by
        rw [Pattern.finds_ofShape]
        decide
      rw [Expr.truth_like, Expr.truth_like, Expr.prop, Expr.eval, Expr.eval, hv, hv']
      simp only [Expr.eval, Interpretation.matching, hread, finds_optionalStart, decide_true, decide_false]
      decide
  · refine losesCondition_of_read
      (.like (.prop ⟨0, 0⟩ "made") (.pattern (.ofShape .equals "")) false) I (.text "")
      (by simp [Expr.tableRefs, Expr.prop]) (by simp [Expr.leaves]) rfl rfl (fun r hr => ?_)
      fun v v' hv hv' => ?_
    · cases hr
      rfl
    · have hread : (Pattern.ofShape .equals "").Finds "".toList := by
        rw [Pattern.finds_ofShape]
        decide
      have hnone : ¬Pattern.Finds ⟨[]⟩ "".toList := by
        rintro ⟨_, _, _, hspan⟩
        exact hspan
      rw [Expr.truth_like, Expr.truth_like, Expr.prop, Expr.eval, Expr.eval, hv, hv']
      simp only [Expr.eval, Interpretation.matching, hread, hnone, decide_true, decide_false]
      decide
  all_goals
    refine losesCondition_ofItem rfl rfl (by simp [Expr.tableRefs, Expr.prop]) (by simp [Expr.leaves])
      ⟨_, rfl, not_keepsCondition_of_isNone (by decide +kernel)⟩

end Aml
end ItemQuery
