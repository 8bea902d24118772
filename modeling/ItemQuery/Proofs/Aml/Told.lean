import ItemQuery.Proofs.Aml.Placement
import ItemQuery.Proofs.Pattern.Shapes

/-! Criteria about one property whose truth survives. Each is an element with a condition and a text, from which a
    criterion is read that has the same truth on the same row once a text that was read stands for the value it was
    written from. -/

namespace ItemQuery

/-! ### Values without tables -/

namespace Expr

variable {I : Interpretation} {v v' : Valuation}

mutual

/-- The value of an expression about no table depends on the parameters only. -/
theorem eval_of_tableRefs (h : v'.parameter = v.parameter) : ∀ e : Expr, e.tableRefs = [] → e.eval I v' = e.eval I v
  | literal _, _ | object _, _ | pattern _, _ => rfl
  | parameter name default _, he => by
    rw [eval, eval, h, optionEval_of_tableRefs h default he]
  | property _, he | allProperties _ _, he => by cases he
  | list items, he => by rw [eval, eval, listEval_of_tableRefs h items he]
  | comparison op l r, he | arithmetic op l r, he | logical op l r, he | like l r op, he => by
    obtain ⟨hl, hr⟩ := List.append_eq_nil_iff.mp he
    simp only [eval, eval_of_tableRefs h l hl, eval_of_tableRefs h r hr]
  | between l low high negated _, he => by
    obtain ⟨he, hhigh⟩ := List.append_eq_nil_iff.mp he
    obtain ⟨hl, hlow⟩ := List.append_eq_nil_iff.mp he
    simp only [eval, eval_of_tableRefs h l hl, eval_of_tableRefs h low hlow, eval_of_tableRefs h high hhigh]
  | inList l items negated _, he => by
    obtain ⟨hl, hitems⟩ := List.append_eq_nil_iff.mp he
    simp only [eval, eval_of_tableRefs h l hl, listEval_of_tableRefs h items hitems]
  | is e _, he | negate e, he | not e, he => by
    simp only [eval, eval_of_tableRefs h e he]
  | call f args, he => by simp only [eval, listEval_of_tableRefs h args he]

theorem optionEval_of_tableRefs (h : v'.parameter = v.parameter) :
    ∀ e : Option Expr, optionTableRefs e = [] → optionEval I v' e = optionEval I v e
  | none, _ => rfl
  | some e, he => eval_of_tableRefs h e he

theorem listEval_of_tableRefs (h : v'.parameter = v.parameter) :
    ∀ es : List Expr, listTableRefs es = [] → listEval I v' es = listEval I v es
  | [], _ => rfl
  | e :: es, he => by
    obtain ⟨hfirst, hrest⟩ := List.append_eq_nil_iff.mp he
    rw [listEval, listEval, eval_of_tableRefs h e hfirst, listEval_of_tableRefs h es hrest]

end

end Expr

namespace Aml

open Query

/-! ### Values -/

/-- The value is the same on all rows. -/
def Steady (V : Interpretation → Valuation → Prop) (e : Expr) : Prop :=
  ∀ I v v', V I v → v'.parameter = v.parameter → e.eval I v' = e.eval I v

/-- A value whose text is read as a value that can stand for it. -/
structure Comparable (w : Writer) (V : Interpretation → Valuation → Prop) (e : Expr) : Prop where
  steady : Steady V e
  now : ∀ text, w.valueText e = .ok text → IsNow text → ∀ I v, V I v → I.call .currentDateTime [] = e.eval I v

/-- A value whose text in a list or a range is a quoted one, which can stand for it, or is read as a value that is
    compared alike. -/
structure Enumerable (w : Writer) (V : Interpretation → Valuation → Prop) (e : Expr) : Prop where
  steady : Steady V e
  now : ∀ s, w.listText e = .ok (Text.quoted s) → IsNow s → ∀ I v, V I v →
    (I.call .currentDateTime []).Alike (e.eval I v)
  read : ∀ text, w.listText e = .ok text → (∃ s, text = Text.quoted s) ∨
    ∃ x, Sql.Legible text x ∧ (∀ s, x ≠ .text s) ∧ Steady V x ∧ ∀ I v, V I v → (x.eval I v).Alike (e.eval I v)

/-- A string test with its usual meaning. -/
structure Testable (V : Interpretation → Valuation → Prop) (f : Function) (sought : Expr) : Prop where
  object : ∀ o, sought = .object o → ∀ I v, V I v → I.object o = .text o.value
  endsWith : f = .endsWith → ∀ I v, V I v → ∀ s part,
    I.call .endsWith [s, part] = Value.onTexts (fun s part => .bool (decide (part <:+ s))) s part

/-- Criteria about a property whose truth survives. A falsehood is written as an id that is null. -/
def Told (w : Writer) (V : Interpretation → Valuation → Prop) : Expr → Prop
  | .literal (.bool false) =>
    ∀ I v, V I v → ∀ table, w.query.contains table = true → v.property ⟨table, "id"⟩ ≠ .null
  | .comparison _ (.property p) r => p.name ∉ reservedNames ∧ Comparable w V r
  | .like (.property p) (.pattern pattern) _ =>
    p.name ∉ reservedNames ∧ pattern.Sound ∧ Pattern.Spellable .aml pattern.leaves
  | .between (.property p) low high _ _ => p.name ∉ reservedNames ∧ Enumerable w V low ∧ Enumerable w V high
  | .inList (.property p) items _ _ => p.name ∉ reservedNames ∧ ∀ e ∈ items, Enumerable w V e
  | .is (.property p) _ => p.name ∉ reservedNames
  | .call f [.property p, sought] => p.name ∉ reservedNames ∧ Testable V f sought
  | .property p => p.name ∉ reservedNames
  | _ => True

section
variable {w : Writer} {V : Interpretation → Valuation → Prop} {table : TableId}

theorem steady_of_tableRefs {e : Expr} (h : e.tableRefs = []) : Steady V e := fun _ _ _ _ hparameter =>
  Expr.eval_of_tableRefs hparameter e h

theorem comparable_of_valueText {e : Expr} {text : String} (hrefs : e.tableRefs = []) (htext : w.valueText e = .ok text)
    (hnow : ¬IsNow text) : Comparable w V e := by
  refine ⟨steady_of_tableRefs hrefs, fun other hother => ?_⟩
  cases htext.symm.trans hother
  exact fun h => absurd h hnow

theorem enumerable_quoted {e : Expr} {text : String} (hrefs : e.tableRefs = [])
    (htext : w.listText e = .ok (Text.quoted text)) (hnow : ¬IsNow text) : Enumerable w V e := by
  refine ⟨steady_of_tableRefs hrefs, fun s hs => ?_, fun other hother => ?_⟩
  · cases Sql.quoted_inj.mp (Except.ok.inj (htext.symm.trans hs))
    exact fun h => absurd h hnow
  · cases htext.symm.trans hother
    exact .inl ⟨text, rfl⟩

theorem ne_quoted {text : String} (h : text.toList.head? ≠ some '\'') (s : String) : text ≠ Text.quoted s := by
  rintro rfl
  rw [Text.quoted, Text.toList_quotedBy] at h
  exact h rfl

theorem enumerable_of_legible {e x : Expr} {text : String} (hrefs : e.tableRefs = []) (htext : w.listText e = .ok text)
    (hquoted : ∀ s, text ≠ Text.quoted s) (hx : Sql.Legible text x) (hne : ∀ s, x ≠ .text s) (hxrefs : x.tableRefs = [])
    (halike : ∀ I v, V I v → (x.eval I v).Alike (e.eval I v)) : Enumerable w V e := by
  refine ⟨steady_of_tableRefs hrefs, fun s hs => ?_, fun other hother => ?_⟩
  · exact absurd (Except.ok.inj (htext.symm.trans hs)) (hquoted s)
  · cases htext.symm.trans hother
    exact .inr ⟨x, hx, hne, steady_of_tableRefs hxrefs, halike⟩

/-- Parameters that are not bound may stand in lists and ranges. -/
theorem enumerable_placeholder {name : String} (hunbound : w.bound? (.named name) = none) (hname : Sql.IsPlain name)
    (raw : Bool) : Enumerable w V (.parameter (.named name) none raw) := by
  have hwritten : w.listText (.parameter (.named name) none raw) = .ok ("@" ++ name) := by
    rw [Writer.listText, hunbound]
    rfl
  exact enumerable_of_legible rfl hwritten (ne_quoted (by simp)) (Sql.legible_placeholder hname) (by rintro s ⟨⟩) rfl
    fun _ _ _ => .refl _

theorem ownProperty_eq_ok {e : Expr} {name : String} (h : ownProperty table e = .ok name) :
    e = .property ⟨table, name⟩ := by
  unfold ownProperty at h
  split at h
  next p =>
    split at h
    next heq =>
      cases h
      rw [← heq]
    next => cases h
  next => cases h

/-- The element of a criterion about a property, by what is read for it. -/
theorem conveys_of_says {e : Expr} {name value : String} {condition : Option String} {x : TableId → Expr}
    (hname : name ∉ reservedNames) (hloud : e.isMute = false)
    (hread : ∀ q target, criterion q ⟨target, name⟩ (condition.getD "eq") value = .ok (x target))
    (hsaid : ∀ q target, SamePath w.query q table target → ∃ r, Restored w (x target) r ∧
      ∀ I v v', V I v → Agree w.query q v v' → r.truth I v' = e.truth I v) :
    Conveys w V table (conditionElement name condition value) (meanings e) := by
  rw [meanings_of_not_isMute hloud]
  exact conveys_conditionElement hname hread hsaid

/-- The property has the same value on the row that is read. -/
theorem Agree.eval_prop {q : Query} {v v' : Valuation} {I : Interpretation} (h : Agree w.query q v v') {target : TableId}
    (hpath : SamePath w.query q table target) (name : String) :
    (Expr.prop target name).eval I v' = (Expr.prop table name).eval I v :=
  h.property table target hpath name

theorem conveys_comparison {op : ComparisonOp} {name : String} {r : Expr} {text : String} (hname : name ∉ reservedNames)
    (hr : Comparable w V r) (htext : w.valueText r = .ok text) :
    Conveys w V table (conditionElement name (if op = .eq then none else some op.name) text)
      (meanings (.comparison op (.prop table name) r)) := by
  have hcondition : (if op = .eq then none else some op.name).getD "eq" = op.name := by
    cases op <;> rfl
  refine conveys_of_says (x := fun target => .comparison op (.prop target name) (propertyValue ⟨target, name⟩ text)) hname
    rfl (fun q target => ?_) fun q target hpath => ?_
  · rw [hcondition, criterion_comparison]
    rfl
  by_cases hnow : IsNow text
  · have hvalue : propertyValue ⟨target, name⟩ text = .call .currentDateTime [] := if_pos hnow
    rw [hvalue]
    refine ⟨_, .same _, fun I v v' hV hagree => ?_⟩
    have hsame : (Expr.call .currentDateTime []).eval I v' = r.eval I v := hr.now text htext hnow I v hV
    rw [Expr.truth_comparison, Expr.truth_comparison, hagree.eval_prop hpath, hsame]
  · have hvalue : propertyValue ⟨target, name⟩ text = .object ⟨text, some ⟨target, name⟩⟩ := if_neg hnow
    rw [hvalue]
    refine ⟨_, .comparison (.text htext), fun I v v' hV hagree => ?_⟩
    rw [Expr.truth_comparison, Expr.truth_comparison, hagree.eval_prop hpath, hr.steady I v v' hV hagree.parameter]

theorem conveys_like {pattern : Pattern} {name shown : String} {negated : Bool} {e : Expr} (hname : name ∉ reservedNames)
    (hloud : e.isMute = false) (hsound : pattern.Sound) (hsets : Pattern.Spellable .aml pattern.leaves)
    (hshown : Pattern.toWildcard .aml pattern = .ok shown)
    (htruth : ∀ I v, V I v → (Expr.like (.prop table name) (.pattern pattern) negated).truth I v = e.truth I v) :
    Conveys w V table (conditionElement name (some (Expr.negatable negated "like")) shown) (meanings e) := by
  obtain ⟨read, hread, hfinds⟩ := Pattern.exists_ofWildcard_finds Pattern.clear_aml hsound (.inl ⟨rfl, hsets⟩) hshown
  refine conveys_of_says (x := fun target => .like (.prop target name) (.pattern read) negated) hname hloud
    (fun q target => ?_) fun q target hpath => ⟨_, .same _, fun I v v' hV hagree => ?_⟩
  · rw [Option.getD_some, criterion_like, hread]
    rfl
  · have hmatching : ∀ value, I.matching value (.pattern read) = I.matching value (.pattern pattern) := by
      rintro (_ | _ | _ | s | _ | _ | _) <;> simp [Interpretation.matching, hfinds]
    rw [← htruth I v hV, Expr.truth_like, Expr.truth_like, hagree.eval_prop hpath]
    exact congrArg _ (hmatching _)

/-- A string test is the likeness to its pattern. -/
theorem truth_like_ofShape {f : Function} (hf : f.isPredicate = true) {sought : Expr} (hsought : Testable V f sought)
    {part : String} (hpart : sought = .text part ∨ ∃ o, sought = .object o ∧ o.value = part) (l : Expr) {I : Interpretation}
    {v : Valuation} (hV : V I v) :
    (Expr.like l (.pattern (.ofShape (testShape f) part)) false).truth I v = (Expr.call f [l, sought]).truth I v := by
  have hvalue : sought.eval I v = .text part := by
    rcases hpart with rfl | ⟨o, rfl, rfl⟩
    · rfl
    · exact hsought.object o rfl I v hV
  have hmatching : I.matching (l.eval I v) (.pattern (.ofShape (testShape f) part))
      = (Value.onTexts (fun s t => .bool (decide (Pattern.Shaped t s (testShape f)))) (l.eval I v) (.text part)).truth := by
    cases l.eval I v with
    | text s => simp [Interpretation.matching, Value.onTexts, Value.truth, Pattern.finds_ofShape]
    | _ => rfl
  have hcall : (Expr.call f [l, sought]).truth I v = (I.apply f [l.eval I v, .text part]).truth := by
    rw [← hvalue]
    rfl
  rw [Expr.truth_like, hcall]
  cases f with
  | startsWith => exact hmatching
  | endsWith =>
    have hends : I.apply .endsWith [l.eval I v, .text part]
        = Value.onTexts (fun s t => .bool (decide (t <:+ s))) (l.eval I v) (.text part) :=
      hsought.endsWith rfl I v hV _ _
    rw [hends]
    exact hmatching
  | contains => exact hmatching
  | _ => cases hf

/-! ### Lists and ranges -/

theorem bindValue_of_ne {x : Expr} (h : ∀ s, x ≠ .text s) (p : PropertyRef) : bindValue p x = x := by
  unfold bindValue
  split
  next s => exact absurd rfl (h s)
  next => rfl

/-- The text of a value is read as a value `x`, and `r p` is what this stands for if it is about the property `p`. -/
structure ReadAs (w : Writer) (V : Interpretation → Valuation → Prop) (e x : Expr) (r : PropertyRef → Expr) : Prop where
  standsFor : ∀ p, StandsFor w (bindValue p x) (r p)
  alike : ∀ p I v v', V I v → v'.parameter = v.parameter → ((r p).eval I v').Alike (e.eval I v)

theorem Enumerable.exists_readAs {e : Expr} (h : Enumerable w V e) {text : String} (htext : w.listText e = .ok text) :
    ∃ x r, Sql.Legible text x ∧ ReadAs w V e x r := by
  obtain ⟨s, rfl⟩ | ⟨x, hx, hne, hsteady, halike⟩ := h.read text htext
  · by_cases hs : IsNow s
    · have hbound : ∀ p, bindValue p (.text s) = .call .currentDateTime [] := fun p => if_pos hs
      exact ⟨_, fun _ => .call .currentDateTime [], Sql.legible_quoted s, fun p => hbound p ▸ .same _,
        fun _ I v v' hV _ => h.now s htext hs I v hV⟩
    · have hbound : ∀ p, bindValue p (.text s) = .object ⟨s, some p⟩ := fun p => if_neg hs
      refine ⟨_, fun _ => e, Sql.legible_quoted s, fun p => ?_, fun _ I v v' hV hparameter => ?_⟩
      · rw [hbound]
        exact .quoted htext
      · rw [h.steady I v v' hV hparameter]
        exact .refl _
  · refine ⟨x, fun _ => x, hx, fun p => ?_, fun _ I v v' hV hparameter => ?_⟩
    · rw [bindValue_of_ne hne]
      exact .same x
    · rw [hsteady I v v' hV hparameter]
      exact halike I v hV

theorem exists_readAs_items {items : List Expr} (h : ∀ e ∈ items, Enumerable w V e) {values : List String}
    (hvalues : items.mapM w.listText = .ok values) :
    ∃ (xs : List Expr) (rs : PropertyRef → List Expr), List.Forall₂ Sql.Legible values xs ∧
      (∀ p, List.Forall₂ (StandsFor w) (xs.map (bindValue p)) (rs p)) ∧
      ∀ p I v v', V I v → v'.parameter = v.parameter →
        List.Forall₂ Value.Alike ((rs p).map (Expr.eval I v')) (items.map (Expr.eval I v)) := by
  induction items generalizing values with
  | nil =>
    cases hvalues
    exact ⟨[], fun _ => [], .nil, fun _ => .nil, fun _ _ _ _ _ _ => .nil⟩
  | cons e items ih =>
    obtain ⟨he, hitems⟩ := List.forall_mem_cons.mp h
    rw [List.mapM_cons] at hvalues
    obtain ⟨text, htext, hvalues⟩ := Result.bind_eq_ok.mp hvalues
    obtain ⟨rest, hrest, hvalues⟩ := Result.bind_eq_ok.mp hvalues
    cases Result.pure_eq_ok.mp hvalues
    obtain ⟨x, r, hx, hread⟩ := he.exists_readAs htext
    obtain ⟨xs, rs, hxs, hstand, halike⟩ := ih hitems hrest
    exact ⟨x :: xs, fun p => r p :: rs p, .cons hx hxs, fun p => .cons (hread.standsFor p) (hstand p),
      fun p I v v' hV hparameter => .cons (hread.alike p I v v' hV hparameter) (halike p I v v' hV hparameter)⟩

theorem conveys_inList {name : String} {items : List Expr} {negated : Bool} {recorded : Option TableId}
    {values : List String} (hname : name ∉ reservedNames) (hitems : ∀ e ∈ items, Enumerable w V e)
    (hvalues : items.mapM w.listText = .ok values) :
    Conveys w V table (conditionElement name (some (Expr.negatable negated "in")) (", ".intercalate values))
      (meanings (.inList (.prop table name) items negated recorded)) := by
  obtain ⟨xs, rs, hxs, hstand, halike⟩ := exists_readAs_items hitems hvalues
  refine conveys_of_says (x := fun target => .inList (.prop target name) (xs.map (bindValue ⟨target, name⟩)) negated none)
    hname rfl (fun q target => ?_) fun q target hpath => ⟨_, .inList (hstand _), fun I v v' hV hagree => ?_⟩
  · rw [Option.getD_some, criterion_inList, Sql.parseInList_legible q target hxs]
    rfl
  · rw [Expr.truth_inList, Expr.truth_inList, hagree.eval_prop hpath,
      Value.isIn_of_alike (halike _ I v v' hV hagree.parameter)]

theorem conveys_between {name : String} {low high : Expr} {negated : Bool} {recorded : Option TableId}
    {first last : String} (hname : name ∉ reservedNames) (hlow : Enumerable w V low) (hhigh : Enumerable w V high)
    (hfirst : w.listText low = .ok first) (hlast : w.listText high = .ok last) :
    Conveys w V table (conditionElement name (some (Expr.negatable negated "between")) (first ++ " and " ++ last))
      (meanings (.between (.prop table name) low high negated recorded)) := by
  obtain ⟨x, r, hx, hreadLow⟩ := hlow.exists_readAs hfirst
  obtain ⟨y, s, hy, hreadHigh⟩ := hhigh.exists_readAs hlast
  refine conveys_of_says
    (x := fun target => .between (.prop target name) (bindValue ⟨target, name⟩ x) (bindValue ⟨target, name⟩ y) negated none)
    hname rfl (fun q target => ?_)
    fun q target hpath => ⟨_, .between (hreadLow.standsFor _) (hreadHigh.standsFor _), fun I v v' hV hagree => ?_⟩
  · rw [Option.getD_some, criterion_between, Sql.parseBetween_legible q target hx hy]
    rfl
  · rw [Expr.truth_between, Expr.truth_between, hagree.eval_prop hpath,
      Value.between_of_alike (hreadLow.alike _ I v v' hV hagree.parameter) (hreadHigh.alike _ I v v' hV hagree.parameter)]

/-! ### Criteria -/

theorem conveys_is {name : String} {operand : IsOperand} (hname : name ∉ reservedNames) :
    Conveys w V table (conditionElement name (some operand.condition) "") (meanings (.is (.prop table name) operand)) := by
  refine conveys_of_says (x := fun target => .is (.prop target name) operand) hname rfl (fun q target => ?_)
    fun q target hpath => ⟨_, .same _, fun I v v' hV hagree => ?_⟩
  · rw [Option.getD_some, criterion_is]
    rfl
  · exact congrArg (fun value => some (I.test value operand)) (hagree.eval_prop hpath name)

/-- A property alone is written as one that is true. -/
theorem conveys_property {name : String} (hname : name ∉ reservedNames) :
    Conveys w V table (conditionElement name none "1") (meanings (.prop table name)) := by
  have hvalue : ∀ target, propertyValue ⟨target, name⟩ "1" = .object ⟨"1", some ⟨target, name⟩⟩ := by
    intro target
    exact if_neg (by decide +kernel)
  refine conveys_of_says (x := fun target => .comparison .eq (.prop target name) (.object ⟨"1", some ⟨target, name⟩⟩)) hname
    rfl (fun q target => ?_) fun q target hpath =>
      ⟨.comparison .eq (.prop target name) (.literal (.bool true)), .comparison (.text ?_), fun I v v' hV hagree => ?_⟩
  · rw [← hvalue]
    exact criterion_comparison q ⟨target, name⟩ "1" .eq
  · rw [Writer.valueText]
    rfl
  · rw [Expr.truth_comparison, hagree.eval_prop hpath]
    exact (Value.truth_ofTruth _).symm

/-- A falsehood is written as an id that is null. -/
theorem conveys_false (hid : ∀ I v, V I v → v.property ⟨table, "id"⟩ ≠ .null) :
    Conveys w V table (conditionElement "id" (some "is null") "") (meanings (.literal (.bool false))) := by
  refine conveys_of_says (x := fun target => .is (.prop target "id") .null) (by decide) rfl (fun q target => ?_)
    fun q target hpath => ⟨_, .same _, fun I v v' hV hagree => ?_⟩
  · exact criterion_is q ⟨target, "id"⟩ "" .null
  · have hvalue : (Expr.prop target "id").eval I v' ≠ .null := by
      rw [hagree.eval_prop hpath]
      exact hid I v hV
    have hnull : ((Expr.prop target "id").eval I v').isNull = false := by
      cases h : (Expr.prop target "id").eval I v' with
      | null => exact absurd h hvalue
      | _ => rfl
    exact congrArg some hnull

theorem conveys_stringTest {f : Function} (hf : f.isPredicate = true) {args : List Expr} {es : List Xml.Event}
    (h : Told w V (.call f args)) (hes : stringTest table f args = .ok es) :
    Conveys w V table es (meanings (.call f args)) := by
  unfold stringTest at hes
  split at hes
  next subject sought =>
    have hpart : ∃ part, (sought = .text part ∨ ∃ o, sought = .object o ∧ o.value = part) ∧
        (ownProperty table subject >>= fun name => Pattern.toWildcard .aml (.ofShape (testShape f) part) >>= fun shown =>
          pure (conditionElement name (some "like") shown)) = .ok es := by
      extract_lets finish at hes
      split at hes
      next s => exact ⟨s, .inl rfl, hes⟩
      next o => exact ⟨o.value, .inr ⟨o, rfl, rfl⟩, hes⟩
      next => cases hes
    obtain ⟨part, hsought, hes⟩ := hpart
    obtain ⟨name, hname, hes⟩ := Result.bind_eq_ok.mp hes
    obtain ⟨shown, hshown, hes⟩ := Result.bind_eq_ok.mp hes
    cases Result.pure_eq_ok.mp hes
    cases ownProperty_eq_ok hname
    obtain ⟨hplain, htest⟩ : name ∉ reservedNames ∧ Testable V f sought := h
    have hconveys : Conveys w V table (conditionElement name (some (Expr.negatable false "like")) shown)
        (meanings (.call f [.prop table name, sought])) :=
      conveys_like hplain rfl (Pattern.sound_ofShape _ _) (Pattern.spellable_ofShape _ _ _) hshown
        fun I v hV => truth_like_ofShape hf htest hsought _ hV
    exact hconveys
  next => cases hes

/-- A criterion whose truth survives is conveyed by its element. -/
theorem Told.conveys {e : Expr} (h : Told w V e) (hlive : w.query.contains table = true) {es : List Xml.Event}
    (hes : w.leaf table e = .ok es) : Conveys w V table es (meanings e) := by
  unfold Writer.leaf at hes
  split at hes
  next =>
    cases hes
    rw [meanings_of_isMute rfl]
    exact conveys_nil
  next =>
    cases hes
    exact conveys_false fun I v hV => h I v hV table hlive
  next op l r =>
    obtain ⟨name, hname, hes⟩ := Result.bind_eq_ok.mp hes
    obtain ⟨text, htext, hes⟩ := Result.bind_eq_ok.mp hes
    cases Result.pure_eq_ok.mp hes
    cases ownProperty_eq_ok hname
    exact conveys_comparison h.1 h.2 htext
  next l p negated =>
    split at hes
    next pattern =>
      obtain ⟨name, hname, hes⟩ := Result.bind_eq_ok.mp hes
      obtain ⟨shown, hshown, hes⟩ := Result.bind_eq_ok.mp hes
      cases Result.pure_eq_ok.mp hes
      cases ownProperty_eq_ok hname
      exact conveys_like h.1 rfl h.2.1 h.2.2 hshown fun _ _ _ => rfl
    next => cases hes
  next l low high negated recorded =>
    obtain ⟨name, hname, hes⟩ := Result.bind_eq_ok.mp hes
    obtain ⟨first, hfirst, hes⟩ := Result.bind_eq_ok.mp hes
    obtain ⟨last, hlast, hes⟩ := Result.bind_eq_ok.mp hes
    cases Result.pure_eq_ok.mp hes
    cases ownProperty_eq_ok hname
    exact conveys_between h.1 h.2.1 h.2.2 hfirst hlast
  next l items negated recorded =>
    obtain ⟨values, hvalues, hes⟩ := Result.bind_eq_ok.mp hes
    obtain ⟨name, hname, hes⟩ := Result.bind_eq_ok.mp hes
    cases Result.pure_eq_ok.mp hes
    cases ownProperty_eq_ok hname
    exact conveys_inList h.1 h.2 hvalues
  next l operand =>
    obtain ⟨name, hname, hes⟩ := Result.bind_eq_ok.mp hes
    cases Result.pure_eq_ok.mp hes
    cases ownProperty_eq_ok hname
    exact conveys_is h
  next f args =>
    split at hes
    next hf => exact conveys_stringTest hf h hes
    next => cases hes
  next p =>
    split at hes
    next heq =>
      cases hes
      cases heq
      exact conveys_property h
    next => cases hes
  next => cases hes

end

end Aml
end ItemQuery
