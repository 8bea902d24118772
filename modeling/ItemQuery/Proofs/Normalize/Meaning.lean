import ItemQuery.Proofs.Normalize.Rules
import ItemQuery.Proofs.Normalize.Trees

/-! Normalization keeps the value of a criterion. The rules act on one node at a time, so a tree keeps its type
    and value by induction on its typing; at the top a property alone is read as `property = true`, which is
    why a property under minus signs that cancel out is left aside. -/

namespace ItemQuery

namespace Expr

/-! ### Parts of a tree -/

mutual

/-- The patterns of the tree, in order. -/
def patterns : Expr → List Pattern
  | pattern p => [p]
  | parameter _ default _ => optionPatterns default
  | list items => listPatterns items
  | comparison _ l r | arithmetic _ l r | logical _ l r => l.patterns ++ r.patterns
  | like l p _ => l.patterns ++ p.patterns
  | between l low high _ _ => l.patterns ++ low.patterns ++ high.patterns
  | inList l items _ _ => l.patterns ++ listPatterns items
  | is l _ => l.patterns
  | negate e | not e => e.patterns
  | call _ args => listPatterns args
  | literal _ | object _ | property _ | allProperties _ _ => []

/-- The patterns of an optional expression. -/
def optionPatterns : Option Expr → List Pattern
  | none => []
  | some e => e.patterns

/-- The patterns of a list. -/
def listPatterns : List Expr → List Pattern
  | [] => []
  | e :: es => e.patterns ++ listPatterns es

end

theorem mem_listPatterns {p : Pattern} {e : Expr} {es : List Expr} (he : e ∈ es) (hp : p ∈ e.patterns) :
    p ∈ listPatterns es := by
  induction es with
  | nil => cases he
  | cons d ds ih =>
    rw [listPatterns, List.mem_append]
    rcases List.mem_cons.mp he with rfl | he
    · exact Or.inl hp
    · exact Or.inr (ih he)

/-- The expression under all minus signs in front of it. -/
def unsigned : Expr → Expr
  | negate e => e.unsigned
  | e => e

/-- Whether the number of minus signs in front is odd. -/
def isOpposed : Expr → Bool
  | negate e => !e.isOpposed
  | _ => false

/-- A property under an even number of minus signs, and at least two. -/
def isRestoredProperty : Expr → Bool
  | negate e => e.isOpposed && e.unsigned.property?.isSome
  | _ => false

/-! ### Lists -/

theorem listEval_normalizeList {I : Interpretation} {v : Valuation} {es ns : List Expr}
    (h : normalizeList es = .ok ns)
    (heval : ∀ e ∈ es, ∀ n, e.normalizeTree = .ok n → n.eval I v = e.eval I v) :
    listEval I v ns = listEval I v es := by
  induction es generalizing ns with
  | nil =>
    cases h
    rfl
  | cons e es ih =>
    obtain ⟨m, hm, h⟩ := Result.bind_eq_ok.mp h
    obtain ⟨ms, hms, h⟩ := Result.bind_eq_ok.mp h
    cases Result.pure_eq_ok.mp h
    rw [listEval, listEval, heval e List.mem_cons_self m hm,
      ih hms fun d hd => heval d (List.mem_cons_of_mem e hd)]

end Expr

/-! ### Trees -/

/-- What normalization of a tree keeps. A pattern comes only from itself, so that what is known of the patterns
    of a tree still holds where the rule for `like` meets one. -/
structure Keeps (Γ : Typing) (I : Interpretation) (v : Valuation) (τ : ValueType) (e n : Expr) : Prop where
  type : HasType Γ n τ
  value : n.eval I v = e.eval I v
  pattern : ∀ p, n = .pattern p → e = .pattern p

section
variable {Γ : Typing} {I : Interpretation} {v : Valuation}

theorem HasType.eq_pattern {p : Pattern} {τ : ValueType} (h : HasType Γ (.pattern p) τ) : τ = .pattern := by
  cases h
  rfl

/-- A node that is no pattern by its type is kept by a rule that keeps type and value. -/
theorem Keeps.of_rule {τ : ValueType} {e n m : Expr} (hτ : τ ≠ .pattern) (hm : m.eval I v = e.eval I v)
    (h : HasType Γ n τ ∧ n.eval I v = m.eval I v) : Keeps Γ I v τ e n :=
  ⟨h.1, h.2.trans hm, fun _ hp => absurd (hp ▸ h.1).eq_pattern hτ⟩

/-- The types of the members of a normalized list, if members keep theirs. -/
theorem HasType.normalizeList {es ns : List Expr} {τ : Expr → ValueType} (h : Expr.normalizeList es = .ok ns)
    (hes : ∀ e ∈ es, ∀ n, e.normalizeTree = .ok n → HasType Γ n (τ e)) :
    ∃ σ : Expr → ValueType, ∀ n ∈ ns, HasType Γ n (σ n) := by
  have htyped : ∀ n ∈ ns, ∃ σ, HasType Γ n σ := Expr.forall_mem_normalizeList h fun e he n hn => ⟨_, hes e he n hn⟩
  choose! σ hσ using htyped
  exact ⟨σ, hσ⟩

theorem Keeps.comparison (hv : Respects Γ I v) {op : ComparisonOp} {τ : ValueType} {l r l' r' : Expr}
    (hl : Keeps Γ I v τ l l') (hr : Keeps Γ I v τ r r') :
    Keeps Γ I v .boolean (.comparison op l r) (Expr.simplifyComparison op l' r') := by
  refine .of_rule nofun ?_ (hl.type.simplifyComparison hv hr.type)
  rw [Expr.eval, Expr.eval, hl.value, hr.value]

theorem Keeps.like (hv : Respects Γ I v) {τ : ValueType} {l p l' p' : Expr} {negated : Bool}
    (hl : Keeps Γ I v .text l l') (hp : Keeps Γ I v τ p p') (hτ : τ = .pattern ∨ τ = .text)
    (hpatterns : ∀ q ∈ p.patterns, q.Ordered ∧ q.Pinned) :
    Keeps Γ I v .boolean (.like l p negated) (Expr.simplifyLike l' p' negated) := by
  refine .of_rule nofun ?_ (hl.type.simplifyLike hv hp.type hτ fun value hvalue => ?_)
  · rw [Expr.eval, Expr.eval, hl.value, hp.value]
  · rw [hp.pattern value hvalue] at hpatterns
    exact hpatterns value (List.mem_singleton.mpr rfl)

theorem Keeps.between {τ : ValueType} {l low high l' low' high' : Expr} {negated : Bool} {table table' : Option TableId}
    (hl : Keeps Γ I v τ l l') (hlow : Keeps Γ I v τ low low') (hhigh : Keeps Γ I v τ high high') :
    Keeps Γ I v .boolean (.between l low high negated table) (.between l' low' high' negated table') := by
  refine .of_rule nofun ?_ ⟨.between hl.type hlow.type hhigh.type, rfl⟩
  simp only [Expr.eval, hl.value, hlow.value, hhigh.value]

theorem Keeps.arithmetic {op : ArithmeticOp} {σ τ : ValueType} {l r l' r' : Expr} (hτ : τ ≠ .pattern)
    (hl : Keeps Γ I v σ l l') (hr : Keeps Γ I v σ r r') (h : HasType Γ (.arithmetic op l' r') τ) :
    Keeps Γ I v τ (.arithmetic op l r) (Expr.foldArithmetic op l' r') := by
  refine .of_rule hτ ?_ h.foldArithmetic
  rw [Expr.eval, Expr.eval, hl.value, hr.value]

theorem Keeps.negate (hv : Respects Γ I v) {e e' : Expr} (h : Keeps Γ I v .integer e e') :
    Keeps Γ I v .integer (.negate e) e'.foldNegate := by
  obtain ⟨htype, hvalue⟩ := h.type.foldNegate hv
  refine .of_rule (m := .negate e') nofun ?_ ⟨htype, ?_⟩
  · rw [Expr.eval, Expr.eval, h.value]
  · rw [hvalue, Expr.eval]

theorem Keeps.not (hv : Respects Γ I v) {e e' : Expr} (he : HasType Γ e .boolean) (h : Keeps Γ I v .boolean e e') :
    Keeps Γ I v .boolean (.not e) e'.asCondition.opposite := by
  obtain ⟨hctype, hcvalue⟩ := h.type.asCondition hv
  obtain ⟨htype, hvalue⟩ := hctype.opposite hv
  refine .of_rule (m := .not e') nofun ?_ ⟨htype, ?_⟩
  · rw [h.type.eval_not hv, he.eval_not hv, h.value]
  · rw [hvalue, hcvalue, h.type.eval_not hv]

theorem Keeps.logical (hv : Respects Γ I v) {op : LogicalOp} {l r l' r' : Expr} (hl : HasType Γ l .boolean)
    (hr : HasType Γ r .boolean) (kl : Keeps Γ I v .boolean l l') (kr : Keeps Γ I v .boolean r r') :
    Keeps Γ I v .boolean (.logical op l r) (Expr.connect op l'.asCondition r'.asCondition) := by
  obtain ⟨hltype, hlvalue⟩ := kl.type.asCondition hv
  obtain ⟨hrtype, hrvalue⟩ := kr.type.asCondition hv
  obtain ⟨htype, hvalue⟩ := hltype.connect hv hrtype
  refine .of_rule (m := .logical op l' r') nofun ?_ ⟨htype, hvalue.trans ?_⟩
  · rw [kl.type.eval_logical hv kr.type, hl.eval_logical hv hr, kl.value, kr.value]
  · rw [hlvalue, hrvalue, kl.type.eval_logical hv kr.type]

/-- Each node is kept by its rule, if its parts are kept. -/
theorem Expr.Becomes.keeps (hv : Respects Γ I v) {e n : Expr} (h : e.Becomes n) {τ : ValueType}
    (ht : HasType Γ e τ) (hp : ∀ p ∈ e.patterns, p.Ordered ∧ p.Pinned) : Keeps Γ I v τ e n := by
  induction h generalizing τ with
  | leaf => exact ⟨ht, rfl, fun _ hc => hc⟩
  | parameter _ ih =>
    cases ht with
    | parameter hd =>
      have hkeeps := ih (hd _ rfl) hp
      refine ⟨.parameter ?_, by simp only [Expr.eval, Expr.optionEval, hkeeps.value], nofun⟩
      rintro _ ⟨⟩
      exact hkeeps.type
  | list hns _ ih =>
    cases ht with
    | list τ hτ =>
      have hkeeps := fun e he n hen => ih e he n hen (hτ e he) fun p hpe => hp p (Expr.mem_listPatterns he hpe)
      obtain ⟨σ, hσ⟩ := HasType.normalizeList hns fun e he n hen => (hkeeps e he n hen).type
      refine ⟨.list σ hσ, ?_, nofun⟩
      rw [Expr.eval, Expr.eval, Expr.listEval_normalizeList hns fun e he n hen => (hkeeps e he n hen).value]
  | call hns _ ih =>
    cases ht with
    | call τ hτ =>
      have hkeeps := fun e he n hen => ih e he n hen (hτ e he) fun p hpe => hp p (Expr.mem_listPatterns he hpe)
      obtain ⟨σ, hσ⟩ := HasType.normalizeList hns fun e he n hen => (hkeeps e he n hen).type
      refine ⟨.call σ hσ, ?_, nofun⟩
      rw [Expr.eval, Expr.eval, Expr.listEval_normalizeList hns fun e he n hen => (hkeeps e he n hen).value]
  | comparison _ _ ihl ihr =>
    obtain ⟨hpl, hpr⟩ := List.forall_mem_append.mp hp
    cases ht with
    | comparison hl hr => exact .comparison hv (ihl hl hpl) (ihr hr hpr)
  | like _ _ ihl ihp =>
    obtain ⟨hpl, hpr⟩ := List.forall_mem_append.mp hp
    cases ht with
    | like hl hpat hτ => exact .like hv (ihl hl hpl) (ihp hpat hpr) hτ hpr
  | between _ _ _ _ ihl ihlow ihhigh =>
    obtain ⟨hpl, hphigh⟩ := List.forall_mem_append.mp hp
    obtain ⟨hpl, hplow⟩ := List.forall_mem_append.mp hpl
    cases ht with
    | between hl hlow hhigh => exact .between (ihl hl hpl) (ihlow hlow hplow) (ihhigh hhigh hphigh)
  | inList _ hns _ _ ihl ih =>
    obtain ⟨hpl, hpi⟩ := List.forall_mem_append.mp hp
    cases ht with
    | inList hl hitems =>
      have kl := ihl hl hpl
      have hkeeps := fun e he n hen => ih e he n hen (hitems e he) fun p hpe => hpi p (Expr.mem_listPatterns he hpe)
      have htypes := Expr.forall_mem_normalizeList hns fun e he n hen => (hkeeps e he n hen).type
      refine .of_rule nofun ?_ ⟨.inList kl.type htypes, rfl⟩
      simp only [Expr.eval, kl.value, Expr.listEval_normalizeList hns fun e he n hen => (hkeeps e he n hen).value]
  | is _ ih =>
    cases ht with
    | is hl =>
      refine .of_rule nofun ?_ ⟨.is (ih hl hp).type, rfl⟩
      rw [Expr.eval, Expr.eval, (ih hl hp).value]
  | arithmetic _ _ ihl ihr =>
    obtain ⟨hpl, hpr⟩ := List.forall_mem_append.mp hp
    cases ht with
    | arithmetic hop hl hr =>
      exact .arithmetic nofun (ihl hl hpl) (ihr hr hpr) (.arithmetic hop (ihl hl hpl).type (ihr hr hpr).type)
    | concat hop hl hr =>
      exact .arithmetic nofun (ihl hl hpl) (ihr hr hpr) (.concat hop (ihl hl hpl).type (ihr hr hpr).type)
  | negate _ ih =>
    cases ht with
    | negate he => exact .negate hv (ih he hp)
  | not _ ih =>
    cases ht with
    | not he => exact .not hv he (ih he hp)
  | logical _ _ ihl ihr =>
    obtain ⟨hpl, hpr⟩ := List.forall_mem_append.mp hp
    cases ht with
    | logical hl hr => exact .logical hv hl hr (ihl hl hpl) (ihr hr hpr)

/-- Normalization keeps the type and the value of every tree. -/
theorem HasType.normalizeTree (hv : Respects Γ I v) {e : Expr} {τ : ValueType} (h : HasType Γ e τ)
    (hp : ∀ p ∈ e.patterns, p.Ordered ∧ p.Pinned) {n : Expr} (hn : e.normalizeTree = .ok n) :
    Keeps Γ I v τ e n :=
  (Expr.becomes_of_normalizeTree e n hn).keeps hv h hp

end

/-! ### Criteria -/

namespace Expr

theorem unsigned_of_foldNegate {e : Expr} {p : PropertyRef} (h : e.foldNegate.unsigned = property p) :
    e.unsigned = property p := by
  unfold foldNegate at h
  split at h
  · rename_i k
    cases hneg : Number.neg? k <;> simp [hneg, int, unsigned] at h
  · simp [unsigned] at h
  · exact h
  · exact h

theorem unsigned_foldArithmetic (op : ArithmeticOp) (l r : Expr) (p : PropertyRef) :
    (foldArithmetic op l r).unsigned ≠ property p := by
  unfold foldArithmetic
  split
  · cases foldLiterals op _ _ <;> simp [unsigned]
  · simp [unsigned]

/-- Minus signs in front of a property cancel out in pairs. -/
theorem normalizeTree_of_unsigned {e : Expr} {p : PropertyRef} (h : e.unsigned = property p) :
    e.normalizeTree = .ok (if e.isOpposed then negate (property p) else property p) := by
  fun_induction unsigned e with
  | case1 e ih =>
    rw [normalizeTree, ih h]
    cases he : e.isOpposed <;> simp [isOpposed, he, bind, Except.bind, pure, Except.pure, foldNegate]
  | case2 e hnot =>
    subst h
    rfl

/-- The minus signs in front of a property are gone if there were none or if they cancelled out. -/
theorem eq_property_or_isRestoredProperty {e : Expr} {p : PropertyRef} (h : e.unsigned = property p)
    (hn : e.normalizeTree = .ok (property p)) : e = property p ∨ e.isRestoredProperty = true := by
  have hsign : e.isOpposed = false := by
    cases he : e.isOpposed with
    | false => rfl
    | true => simp [normalizeTree_of_unsigned h, he] at hn
  cases e with
  | negate e =>
    rw [isOpposed, Bool.not_eq_false'] at hsign
    rw [unsigned] at h
    exact Or.inr (by rw [isRestoredProperty, hsign, h]; rfl)
  | _ => exact Or.inl h

end Expr

section
variable {Γ : Typing} {I : Interpretation} {v : Valuation}

/-- What is not a criterion becomes a property only by dropping minus signs in front of one. -/
theorem HasType.unsigned_of_normalizeTree {e : Expr} {τ : ValueType} (h : HasType Γ e τ) (hτ : τ ≠ .boolean)
    {n : Expr} (hn : e.normalizeTree = .ok n) {p : PropertyRef} (hp : n.unsigned = .property p) :
    e.unsigned = .property p := by
  replace hn := Expr.becomes_of_normalizeTree e n hn
  induction hn generalizing τ with
  | leaf => exact hp
  | parameter | list | call | between | inList | is => cases hp
  | comparison | like | not | logical =>
    cases h
    exact absurd rfl hτ
  | arithmetic => exact absurd hp (Expr.unsigned_foldArithmetic _ _ _ _)
  | negate _ ih =>
    cases h with
    | negate he => exact ih he nofun (Expr.unsigned_of_foldNegate hp)

theorem HasType.criterionValue (hv : Respects Γ I v) {e : Expr} (h : HasType Γ e .boolean) :
    e.criterionValue I v = e.eval I v := by
  have hfits := h.fits hv
  unfold Expr.criterionValue
  split
  · rw [Expr.eval] at hfits ⊢
    rw [Value.compare_true hfits, Value.ofTruth_truth hfits]
  · rfl

theorem Expr.criterionValue_asCondition (e : Expr) : e.asCondition.criterionValue I v = e.criterionValue I v := by
  cases e <;> rfl

/-- Normalization keeps the value of a criterion, in every interpretation and for all values of properties and
    parameters that keep to their types. -/
theorem Expr.criterionValue_normalize (hv : Respects Γ I v) {e : Expr} {τ : ValueType} (h : HasType Γ e τ)
    (hp : ∀ p ∈ e.patterns, p.Ordered ∧ p.Pinned) (hs : e.isRestoredProperty = false) {n : Expr}
    (hn : e.normalize = .ok n) : n.criterionValue I v = e.criterionValue I v := by
  obtain ⟨m, hm, rfl⟩ : ∃ m, e.normalizeTree = .ok m ∧ m.asCondition = n := by
    unfold normalize at hn
    cases hm : e.normalizeTree with
    | error err => simp [hm, Except.map] at hn
    | ok m => simp_all [Except.map]
  have hkeeps := h.normalizeTree hv hp hm
  rw [Expr.criterionValue_asCondition]
  by_cases hτ : τ = .boolean
  · subst hτ
    rw [hkeeps.type.criterionValue hv, h.criterionValue hv, hkeeps.value]
  · by_cases hprop : ∃ p, m = .property p
    · obtain ⟨p, rfl⟩ := hprop
      rcases eq_property_or_isRestoredProperty (h.unsigned_of_normalizeTree hτ hm rfl) hm with rfl | hrestored
      · rfl
      · rw [hs] at hrestored
        cases hrestored
    · have hcriterion : ∀ {d : Expr}, (∀ p, d ≠ .property p) → d.criterionValue I v = d.eval I v := by
        intro d hd
        cases d with
        | property p => exact absurd rfl (hd p)
        | _ => rfl
      rw [hcriterion fun p hmp => hprop ⟨p, hmp⟩, hcriterion fun p hep => ?_, hkeeps.value]
      rw [hep] at hm
      exact hprop ⟨p, (Except.ok.inj hm).symm⟩

end

/-! ### Examples -/

/-- Untyped values, rows and other calls without a value. -/
def Interpretation.blank : Interpretation :=
  ⟨fun _ => .null, fun _ _ => .null, fun _ _ => .null, fun _ _ => false, fun _ => true⟩

/-- Every property has this value, and no parameter has one. -/
def Valuation.constant (value : Value) : Valuation :=
  ⟨fun _ => value, fun _ => none⟩

/-- Everything is of one type. -/
def Typing.constant (τ : ValueType) : Typing :=
  ⟨fun _ => τ, fun _ => τ, fun _ => τ, fun _ => τ⟩

theorem Respects.constant {value : Value} {τ : ValueType} (h : value.Fits τ) :
    Respects (.constant τ) .blank (.constant value) :=
  ⟨fun _ => h, nofun, fun _ => trivial, fun _ _ => trivial⟩

/-- A negation moves down to a test of a place and to a pattern without wildcards. -/
theorem criterionValue_normalize_not_or :
    let name : Expr := .prop ⟨0, 0⟩ "name"
    let place : Expr := .arithmetic .add (.call .indexOf [name, .text "a"]) (.int 1)
    let e : Expr := .not (.or (.comparison .eq place (.int 0)) (.like name (.pattern (.ofText "ab")) false))
    let n : Expr := .and (.call .contains [name, .text "a"]) (.comparison .ne name (.text "ab"))
    e.normalize = .ok n ∧
      n.criterionValue .blank (.constant (.text "cab")) = e.criterionValue .blank (.constant (.text "cab")) := by
  intro name place e n
  have hn : e.normalize = .ok n := by rfl
  have hname : HasType (.constant .text) name .text := .property _
  have hplace : HasType (.constant .text) place .integer := by
    refine .arithmetic (by simp) (.call (fun _ => .text) fun d hd => ?_) (.integer 1)
    simp only [List.mem_cons, List.not_mem_nil, or_false] at hd
    rcases hd with rfl | rfl
    · exact hname
    · exact .string "a"
  have he : HasType (.constant .text) e .boolean :=
    .not (.logical (.comparison hplace (.integer 0)) (.like hname (.pattern _) (Or.inl rfl)))
  have hp : ∀ p ∈ e.patterns, p.Ordered ∧ p.Pinned := by
    intro p hp
    obtain rfl : p = .ofText "ab" := List.mem_singleton.mp hp
    have honce : Repetition.once.Ordered := Repetition.ordered_of_isOnce rfl
    exact ⟨⟨⟨honce, honce, honce, trivial⟩, trivial⟩, by decide⟩
  have hv : Respects (.constant .text) .blank (.constant (.text "cab")) := .constant trivial
  exact ⟨hn, Expr.criterionValue_normalize hv he hp rfl hn⟩

/-- An anchor that may be left out becomes part of an equality, which fails for a longer text that the pattern
    is found in; two minus signs in front of a number leave a property, which is then read as a truth value. -/
theorem criterionValue_normalize_ne :
    (let value : Pattern := ⟨[[.anchor .start ⟨0, some 1, true⟩, .literal "ab", .at_ .finish]]⟩
      let e : Expr := .like (.prop ⟨0, 0⟩ "name") (.pattern value) false
      let n : Expr := .comparison .eq (.prop ⟨0, 0⟩ "name") (.text "ab")
      let v : Valuation := .constant (.text "xab")
      Respects (.constant .text) .blank v ∧ HasType (.constant .text) e .boolean ∧ value.Ordered ∧
        e.normalize = .ok n ∧ n.criterionValue .blank v ≠ e.criterionValue .blank v) ∧
    (let e : Expr := .negate (.negate (.prop ⟨0, 0⟩ "quantity"))
      let n : Expr := .comparison .eq (.prop ⟨0, 0⟩ "quantity") (.bool true)
      let v : Valuation := .constant (.integer 1)
      Respects (.constant .integer) .blank v ∧ HasType (.constant .integer) e .integer ∧ e.patterns = [] ∧
        e.normalize = .ok n ∧ n.criterionValue .blank v ≠ e.criterionValue .blank v) := by
  constructor
  · intro value e n v
    have hfinds : value.Finds "xab".toList := by
      refine ⟨1, 3, by decide, Or.inl ⟨1, ⟨0, Nat.le_refl _, fun _ _ => Nat.zero_le _, rfl⟩, 3, ?_, 3, ?_, rfl⟩⟩
      · rw [Span.repeated_of_isOnce rfl, Piece.literal, Piece.once]
        decide
      · rw [Span.repeated_of_isOnce rfl, Piece.at_, Piece.once]
        exact ⟨rfl, rfl⟩
    have hordered : value.Ordered := by
      have honce : Repetition.once.Ordered := Repetition.ordered_of_isOnce rfl
      exact ⟨⟨by rintro most ⟨⟩; decide, honce, honce, trivial⟩, trivial⟩
    refine ⟨.constant trivial, .like (.property _) (.pattern _) (Or.inl rfl), hordered, rfl, ?_⟩
    have he : e.criterionValue .blank v = .bool true := by
      simp only [e, Expr.prop, Expr.criterionValue, Expr.eval, v, Valuation.constant, Interpretation.matching, hfinds,
        decide_true]
      rfl
    have hn : n.criterionValue .blank v = .bool false := by
      simp only [n, Expr.prop, Expr.text, Expr.criterionValue, Expr.eval, v, Valuation.constant]
      rfl
    rw [he, hn]
    simp
  · intro e n v
    refine ⟨.constant trivial, .negate (.negate (.property _)), rfl, rfl, ?_⟩
    have he : e.criterionValue .blank v = .integer 1 := by
      simp only [e, Expr.prop, Expr.criterionValue, Expr.eval, v, Valuation.constant]
      rfl
    have hn : n.criterionValue .blank v = .null := by
      simp only [n, Expr.prop, Expr.bool, Expr.criterionValue, Expr.eval, v, Valuation.constant]
      rfl
    rw [he, hn]
    simp

end ItemQuery
