import ItemQuery.Proofs.Aml.Joined
import ItemQuery.Proofs.StoredQuery.Constants

/-! Truth values in the filter of a query with one table, as AML and as a stored condition. Both formats have no
    constants: nothing is written for a truth, and an id that is null for a falsehood. The filter that comes back
    has the same truth on every row with an id, as long as no truth is an operand where it would count: in AML, of an
    opposite or beside other alternatives, and in a condition, of an opposite or of any alternative. -/

namespace ItemQuery

open Query

/-! ### AML -/

namespace Aml

/-- A truth value, or a comparison of a property that is not named as an element with a meaning of its own and a value
    about no table, whose text is that of the current time for the current time only. -/
inductive Elementary (w : Writer) : Expr → Prop
  | bool (b : Bool) : Elementary w (.literal (.bool b))
  | comparison (op : ComparisonOp) {l r : Expr} (hname : ∀ p, l = .property p → p.name ∉ reservedNames)
      (hvalue : ∀ text, w.valueText r = .ok text → r.tableRefs = [] ∧ (IsNow text → r = .call .currentDateTime [])) :
      Elementary w (.comparison op l r)

/-- The row of the root has an id. -/
def HasId (q : Query) : Interpretation → Valuation → Prop :=
  fun _ v => v.property ⟨q.root, "id"⟩ ≠ .null

section
variable {w : Writer} {item : QueryItem} {e : Expr}

theorem Elementary.told (h : Elementary w e) (hsingle : w.query.Single item) {table : TableId} {es : List Xml.Event}
    (hes : w.leaf table e = .ok es) : Told w (HasId w.query) e := by
  cases h with
  | bool b =>
    cases b with
    | true => trivial
    | false =>
      intro I v hid other hother
      rw [hsingle.alone other hother]
      exact hid
  | comparison op hname hvalue =>
    obtain ⟨name, hproperty, hes⟩ := Result.bind_eq_ok.mp hes
    obtain ⟨text, htext, -⟩ := Result.bind_eq_ok.mp hes
    cases ownProperty_eq_ok hproperty
    obtain ⟨hrefs, hnow⟩ := hvalue text htext
    refine ⟨hname _ rfl, steady_of_tableRefs hrefs, fun other hother htime I v _ => ?_⟩
    cases htext.symm.trans hother
    rw [hnow htime]
    rfl

theorem confined_of_refs {q : Query} {ready : TableId → Prop} {root : TableId} {es : List Expr}
    (h : ∀ x ∈ es, ∀ t ∈ x.tableRefs, t = root) : Confined q ready es := by
  induction es generalizing ready with
  | nil => trivial
  | cons x es ih =>
    obtain ⟨hx, hes⟩ := List.forall_mem_cons.mp h
    exact ⟨fun b hb => .inl (hb.keeps hx), ih hes⟩

/-- What holds of a query of one table whose filter is about the table. -/
theorem tellable_of_single (hsingle : w.query.Single item) (hfilter : item.filter = some e)
    (hrefs : ∀ t ∈ e.tableRefs, t = w.query.root) (h : Sayable (Elementary w) e) :
    Tellable w (HasId w.query) (Elementary w) := by
  have honly : ∀ id e', w.query.filterOf id = some e' → id = w.query.root ∧ e' = e := by
    intro id e' he'
    rw [hsingle.filterOf_eq, hfilter] at he'
    split at he'
    next heq => exact ⟨heq, (Option.some.inj he').symm⟩
    next => cases he'
  refine ⟨hsingle.keyTree, fun table x es hlive hx hes => (hx.told hsingle hes).conveys hlive hes, ?_, ?_, ?_, ?_⟩
  · intro id e' he'
    rw [(honly id e' he').2]
    exact h
  · intro id e' he' t ht
    obtain ⟨rfl, rfl⟩ := honly id e' he'
    rw [hrefs t ht]
    exact .refl
  · intro id e' he'
    obtain ⟨rfl, rfl⟩ := honly id e' he'
    exact confined_of_refs fun x hx t ht => hrefs t (Expr.mem_tableRefs_of_mem_flatten hx ht)
  · rintro a name b ⟨j, hj, -⟩
    rw [hsingle.links_eq_nil] at hj
    cases hj

/-- Only the row of the root counts. -/
theorem agree_of_single {q q' : Query} (hsingle : q.Single item) {v v' : Valuation}
    (hrow : ∀ name, v'.property ⟨q'.root, name⟩ = v.property ⟨q.root, name⟩) (hparameter : v'.parameter = v.parameter) :
    Agree q q' v v' := by
  refine ⟨fun a a' hpath name => ?_, hparameter⟩
  cases hpath with
  | root => exact hrow name
  | key _ hb _ =>
    obtain ⟨j, hj, -⟩ := hb
    rw [hsingle.links_eq_nil] at hj
    cases hj

end

end Aml

/-! ### Both formats -/

section
variable {ctx : Context} {q : Query} {item : QueryItem} {e : Expr}

/-- Read again from its events, the query of one table has a filter on its root with the truth of `e` on every row with
    an id, once the texts that were read stand for the values they were written from. -/
def Aml.KeepsFilter (ctx : Context) (q : Query) (e : Expr) : Prop :=
  ∀ es, events ctx q = .ok es →
    ∃ q' restored, ofEvents es = .ok q' ∧ Option.Rel (Restored ⟨ctx, q⟩) (q'.filterOf q'.root) restored ∧
      ∀ I v v', v.property ⟨q.root, "id"⟩ ≠ .null →
        (∀ name, v'.property ⟨q'.root, name⟩ = v.property ⟨q.root, name⟩) → v'.parameter = v.parameter →
        Expr.filterTruth I v' restored = e.truth I v

/-- Read again from the condition that is stored for it, the filter of a table has the truth of `e` on every row with an
    id, once the texts that were read stand for the values they were written from. -/
def StoredQuery.KeepsFilter (table : TableId) (e : Expr) : Prop :=
  ∀ text, filterText { table } e = .ok text →
    ∃ found restored, parseFilter { table } text = .ok found ∧ Option.Rel (Recovered { table }) found restored ∧
      ∀ I v, v.property ⟨table, "id"⟩ ≠ .null → Expr.filterTruth I v restored = e.truth I v

/-- Truth values, and connectives over them and comparisons, survive in the filter of one table: in AML unless a truth
    is negated or stands beside an alternative for which something is written, and in a condition unless a truth is
    negated or is an alternative at all. -/
theorem Query.Single.keepsFilter (ctx : Context) (h : q.Single item) (hfilter : item.filter = some e)
    (hrefs : ∀ t ∈ e.tableRefs, t = q.root)
    (htyped : ∃ typeName, ctx.tableTypeName q q.root = some typeName ∧ typeName ≠ "")
    (hselect : ∀ text, Aml.Writer.select? ⟨ctx, q⟩ (q.tableCount + 1) q.root = some text → Aml.Selectable text) :
    (Aml.Sayable (Aml.Elementary ⟨ctx, q⟩) e → Aml.KeepsFilter ctx q e) ∧
      (StoredQuery.Voiced (StoredQuery.Legible { table := q.root }) e → StoredQuery.KeepsFilter q.root e) := by
  refine ⟨fun hsayable es hes => ?_, fun hvoiced text htext => hvoiced.exists_parseFilter htext⟩
  obtain ⟨q', restored, hread, -, -, hrel, htruth⟩ :=
    (Aml.tellable_of_single h hfilter hrefs hsayable).exists_filter htyped hselect hes
  refine ⟨q', restored, hread, hrel, fun I v v' hid hrow hparameter => ?_⟩
  rw [htruth I v v' hid (Aml.agree_of_single h hrow hparameter)]
  refine Aml.conjunctionOf_root (e := some e) (contains_iff.mpr ⟨item, h.found⟩) ?_ fun id hne => ?_
  · rw [h.filterOf_eq, if_pos rfl, hfilter]
  · rw [h.filterOf_eq, if_neg hne]

end

/-- Parts with this filter. -/
def filteredParts (e : Expr) : Query :=
  .ofItem { typeName := some "Part", filter := some e }

theorem single_filteredParts (e : Expr) : (filteredParts e).Single { typeName := some "Part", filter := some e } :=
  single_ofItem rfl

/-- The state of a part is this text. -/
def stateIs (text : String) : Expr :=
  .comparison .eq (.prop ⟨0, 0⟩ "state") (.object ⟨text, some ⟨⟨0, 0⟩, "state"⟩⟩)

theorem elementary_stateIs (w : Aml.Writer) {text : String} (h : ¬Aml.IsNow text) : Aml.Elementary w (stateIs text) := by
  refine .comparison .eq ?_ fun shown hshown => ⟨rfl, fun hnow => ?_⟩
  · rintro p ⟨⟩
    decide
  · rw [Aml.Writer.valueText] at hshown
    cases hshown
    exact absurd hnow h

theorem legible_stateIs {text : String} (h : Xml.Trimmed text.toList) :
    StoredQuery.Legible { table := ⟨0, 0⟩ } (stateIs text) :=
  .comparison .eq (StoredQuery.clear_prop _ "state") (StoredQuery.clear_object h)

/-- A truth among criteria that all have to hold, inside of an opposite, and a falsehood as an alternative. -/
theorem keepsFilter_otherwiseFalse :
    let e := Expr.and (.not (.and (stateIs "it's new") (.literal (.bool true))))
      (.or (stateIs "a & b") (.literal (.bool false)))
    (∃ es, Aml.events {} (filteredParts e) = .ok es) ∧ Aml.KeepsFilter {} (filteredParts e) e ∧
      (∃ text, StoredQuery.filterText { table := ⟨0, 0⟩ } e = .ok (some text)) ∧ StoredQuery.KeepsFilter ⟨0, 0⟩ e := by
  intro e
  have hrefs : ∀ t ∈ e.tableRefs, t = ⟨0, 0⟩ := by decide
  have hselect : ∀ text, Aml.Writer.select? ⟨{}, filteredParts e⟩ ((filteredParts e).tableCount + 1) ⟨0, 0⟩ = some text →
      Aml.Selectable text := by
    rintro text ⟨⟩
  obtain ⟨haml, hstored⟩ := (single_filteredParts e).keepsFilter {} rfl hrefs ⟨"Part", rfl, by decide⟩ hselect
  have hwritten : (StoredQuery.filterText { table := ⟨0, 0⟩ } e).toOption.join.isSome = true := by decide +kernel
  refine ⟨⟨_, rfl⟩, haml ?_, ?_, hstored ?_⟩
  · have hnew : ¬Aml.IsNow "it's new" := by unfold Aml.IsNow; decide +kernel
    have hboth : ¬Aml.IsNow "a & b" := by unfold Aml.IsNow; decide +kernel
    exact ⟨⟨⟨elementary_stateIs _ hnew, .bool true, by simp⟩, rfl⟩, ⟨elementary_stateIs _ hboth, .bool false, fun _ => rfl⟩,
      by simp⟩
  · cases htext : StoredQuery.filterText { table := ⟨0, 0⟩ } e with
    | error err =>
      rw [htext] at hwritten
      cases hwritten
    | ok text =>
      rw [htext] at hwritten
      obtain ⟨shown, hshown⟩ := Option.isSome_iff_exists.mp hwritten
      exact ⟨shown, congrArg Except.ok hshown⟩
  · exact ⟨⟨⟨legible_stateIs (by decide), .bool true, by simp⟩, rfl⟩,
      ⟨legible_stateIs (by decide), .bool false, fun _ => ⟨rfl, rfl⟩⟩, by simp⟩

-- The request below is read by computation, also where a function recurses along a measure.
unseal String.mapAux

/-- A truth is lost where it counts: an alternative to it is read as a criterion of its own, and of its opposite nothing
    is left in AML, and nothing that can be read in a condition. -/
theorem not_keepsFilter_alternativeToTrue :
    let e := Expr.or (stateIs "a") (.literal (.bool true))
    ¬Aml.KeepsFilter {} (filteredParts e) e ∧ ¬StoredQuery.KeepsFilter ⟨0, 0⟩ e ∧
      ¬StoredQuery.KeepsFilter ⟨0, 0⟩ (.not (.literal (.bool true))) := by
  intro e
  -- A part with an id and without a state.
  let v : Valuation := ⟨fun p => if p.name = "id" then .text "1" else .null, fun _ => none⟩
  let I : Interpretation := ⟨fun _ => .null, fun _ _ => .null, fun _ _ => .null, fun _ _ => false, fun _ => false⟩
  have hid : v.property ⟨⟨0, 0⟩, "id"⟩ ≠ .null := nofun
  have hunknown : ∀ r, (Expr.comparison .eq (.prop ⟨0, 0⟩ "state") r).truth I v = none := fun r =>
    Expr.truth_comparison .eq _ r
  have htrue : e.truth I v = some true := by
    rw [show e = .logical .or (stateIs "a") (.literal (.bool true)) from rfl, Expr.truth_logical, stateIs, hunknown]
    rfl
  refine ⟨fun h => ?_, fun h => ?_, fun h => ?_⟩
  · obtain ⟨es, hes, hback⟩ : ∃ es, Aml.events {} (filteredParts e) = .ok es ∧
        (Aml.ofEvents es).map (fun q' => (q'.root, q'.filterOf q'.root)) = .ok (⟨0, 0⟩, some (stateIs "a")) :=
      ⟨_, rfl, rfl⟩
    obtain ⟨q', restored, hread, hrel, htruth⟩ := h es hes
    rw [hread, Except.map, Except.ok.injEq, Prod.mk.injEq] at hback
    rw [hback.2] at hrel
    cases hrel with
    | @some _ r hr =>
      have hsame := htruth I v v hid (fun _ => rfl) rfl
      rw [htrue, Expr.filterTruth, Option.elim_some] at hsame
      cases hr with
      | same => cases (hunknown _).symm.trans hsame
      | comparison => cases (hunknown _).symm.trans hsame
  · let test : Xml.Element := .branch "eq" [.node "property" [("name", "state")] [] "", .leaf "constant" "a"]
    let root : Xml.Element := .branch "condition" [.branch "or" [test]]
    have htext : StoredQuery.conditionText { table := ⟨0, 0⟩ } [e] = .ok root.markup := StoredQuery.conditionText_eq rfl
    have hwritten : StoredQuery.filterText { table := ⟨0, 0⟩ } e = .ok (some root.markup) :=
      congrArg (Except.map some) htext
    have hback : StoredQuery.parseCondition { table := ⟨0, 0⟩ } root.markup = .ok (some (stateIs "a")) :=
      (StoredQuery.parseCondition_markup _ (by decide)).trans rfl
    obtain ⟨found, restored, hread, hrel, htruth⟩ := h _ hwritten
    rw [StoredQuery.parseFilter, Option.elim_some, hback] at hread
    cases hread
    cases hrel with
    | @some _ r hr =>
      have hsame := htruth I v hid
      rw [htrue, Expr.filterTruth, Option.elim_some] at hsame
      cases hr with
      | same => cases (hunknown _).symm.trans hsame
      | comparison hl _ =>
        cases hl
        cases (hunknown _).symm.trans hsame
  · have hwritten : StoredQuery.filterText { table := ⟨0, 0⟩ } (.not (.literal (.bool true)))
        = .ok (some "<condition><not/></condition>") := by rfl
    obtain ⟨found, restored, hread, -⟩ := h _ hwritten
    have hfault : (StoredQuery.parseFilter { table := ⟨0, 0⟩ } (some "<condition><not/></condition>")).toOption.isSome
        = false := by decide +kernel
    rw [hread] at hfault
    cases hfault

end ItemQuery
