import ItemQuery.Normalize
import ItemQuery.Proofs.Expr.Value
import ItemQuery.Proofs.Pattern.Simplification

/-! Each rule of normalization keeps the type and the value of the node it rewrites. -/

namespace ItemQuery

/-! ### Order -/

theorem Date.compare_swap (a b : Date) : Date.compare a b = (Date.compare b a).swap := by
  unfold Date.compare
  rw [Ordering.swap_then, Ordering.swap_then, ← Std.OrientedCmp.eq_swap, ← Std.OrientedCmp.eq_swap,
    ← Std.OrientedCmp.eq_swap]

theorem DateTime.compare_swap (a b : DateTime) : DateTime.compare a b = (DateTime.compare b a).swap := by
  unfold DateTime.compare
  rw [Ordering.swap_then, Ordering.swap_then, ← Date.compare_swap, ← Std.OrientedCmp.eq_swap,
    ← Std.OrientedCmp.eq_swap]

theorem ComparisonOp.holds_eq_accepts (op : ComparisonOp) (o : Ordering) : op.holds o = op.accepts o := by
  cases op <;> cases o <;> rfl

/-- The relation between integers that a comparison names. -/
def ComparisonOp.Relates : ComparisonOp → Int → Int → Prop
  | eq, a, b => a = b
  | ne, a, b => a ≠ b
  | lt, a, b => a < b
  | le, a, b => a ≤ b
  | gt, a, b => b < a
  | ge, a, b => b ≤ a

namespace Value

theorem order?_swap (a b : Value) : order? b a = (order? a b).map Ordering.swap := by
  cases a <;> cases b <;> simp only [order?, Option.map_some, Option.map_none]
  case bool.bool => exact congrArg some Std.OrientedCmp.eq_swap
  case integer.integer => exact congrArg some Std.OrientedCmp.eq_swap
  case integer.float | float.integer =>
    rw [Option.map_map]
    exact congrArg (Option.map · _) (funext fun _ => Std.OrientedCmp.eq_swap)
  case float.float x y =>
    cases Number.toRat? x <;> cases Number.toRat? y
    case some.some => exact congrArg some Std.OrientedCmp.eq_swap
    all_goals rfl
  case text.text => exact congrArg some Std.OrientedCmp.eq_swap
  case time.time => exact congrArg some (DateTime.compare_swap _ _)

/-- Swapped operands are compared by the flipped operator. -/
theorem compare_flip (op : ComparisonOp) (a b : Value) : compare op.flip b a = compare op a b := by
  rw [compare, compare, order?_swap]
  cases order? a b with
  | none => rfl
  | some o => cases op <;> cases o <;> rfl

theorem compare_negate (op : ComparisonOp) (a b : Value) : compare op.negate a b = (compare op a b).not := by
  rw [compare, compare]
  cases order? a b with
  | none => rfl
  | some o => cases op <;> cases o <;> rfl

theorem eq_of_fits_boolean {a : Value} (h : a.Fits .boolean) : a = null ∨ ∃ b, a = bool b := by
  cases a <;> simp_all [Fits]

theorem eq_of_fits_integer {a : Value} (h : a.Fits .integer) : a = null ∨ ∃ n, a = integer n := by
  cases a <;> simp_all [Fits]

theorem eq_of_fits_text {a : Value} (h : a.Fits .text) : a = null ∨ ∃ s, a = text s := by
  cases a <;> simp_all [Fits]

theorem fits_ofTruth (t : Truth) : (ofTruth t).Fits .boolean := by
  rcases t with _ | b <;> trivial

theorem ofTruth_truth {a : Value} (h : a.Fits .boolean) : ofTruth a.truth = a := by
  rcases eq_of_fits_boolean h with rfl | ⟨b, rfl⟩ <;> rfl

/-- A truth value that is compared with one is kept or turned around. -/
theorem compare_bool {a : Value} (h : a.Fits .boolean) {op : ComparisonOp} (hop : op = .eq ∨ op = .ne) (flag : Bool) :
    compare op a (bool flag) = if flag == (op == .eq) then a.truth else a.truth.not := by
  rcases eq_of_fits_boolean h with rfl | ⟨b, rfl⟩
  · rcases hop with rfl | rfl <;> cases flag <;> rfl
  · rcases hop with rfl | rfl <;> cases b <;> cases flag <;> rfl

theorem compare_true {a : Value} (h : a.Fits .boolean) : compare .eq a (bool true) = a.truth :=
  compare_bool h (Or.inl rfl) true

theorem fits_negate {a : Value} (h : a.Fits .integer) : a.negate.Fits .integer := by
  rcases eq_of_fits_integer h with rfl | ⟨n, rfl⟩ <;> trivial

theorem negate_negate {a : Value} (h : a.Fits .integer) : a.negate.negate = a := by
  rcases eq_of_fits_integer h with rfl | ⟨n, rfl⟩
  · rfl
  · simp [negate]

theorem fits_arithmetic {op : ArithmeticOp} {a b : Value} (ha : a.Fits .integer) (hb : b.Fits .integer) :
    (arithmetic op a b).Fits .integer := by
  rcases eq_of_fits_integer ha with rfl | ⟨m, rfl⟩
  · cases op <;> trivial
  · rcases eq_of_fits_integer hb with rfl | ⟨n, rfl⟩
    · cases op <;> trivial
    · cases op <;> simp only [arithmetic] <;> try trivial
      all_goals split <;> trivial

theorem fits_concat {op : ArithmeticOp} {a b : Value} (ha : a.Fits .text) (hb : b.Fits .text) :
    (arithmetic op a b).Fits .text := by
  rcases eq_of_fits_text ha with rfl | ⟨s, rfl⟩
  · cases op <;> trivial
  · rcases eq_of_fits_text hb with rfl | ⟨t, rfl⟩ <;> cases op <;> trivial

theorem fits_onTexts {f : List Char → List Char → Value} {τ : ValueType} (hf : ∀ s t, (f s t).Fits τ)
    {a b : Value} : (onTexts f a b).Fits τ := by
  unfold onTexts
  split
  · exact hf _ _
  · trivial

end Value

/-! ### Types of values -/

section
variable {Γ : Typing} {I : Interpretation} {v : Valuation}

theorem Respects.apply (hv : Respects Γ I v) (f : Function) (args : List Value) :
    (I.apply f args).Fits (Γ.callType f) := by
  unfold Interpretation.apply
  split
  · refine Value.fits_onTexts fun s t => ?_
    trivial
  · refine Value.fits_onTexts fun s t => ?_
    trivial
  · refine Value.fits_onTexts fun s t => ?_
    trivial
  · exact hv.call _ _

/-- An expression of a type has values of that type. -/
theorem HasType.fits (hv : Respects Γ I v) {e : Expr} {τ : ValueType} (h : HasType Γ e τ) : (e.eval I v).Fits τ := by
  induction h with
  | bool b => trivial
  | integer n => trivial
  | string s => trivial
  | dateTime t => trivial
  | object o => exact hv.object o
  | @parameter name default raw _ ih =>
    rw [Expr.eval]
    cases hp : v.parameter name with
    | some value => exact hv.parameter name value hp
    | none =>
      cases default with
      | none => trivial
      | some e => exact ih e rfl
  | property p => exact hv.property p
  | allProperties table extended =>
    rw [Expr.eval]
    cases I.row table extended <;> trivial
  | list => trivial
  | pattern p => trivial
  | comparison => exact Value.fits_ofTruth _
  | like => exact Value.fits_ofTruth _
  | between => exact Value.fits_ofTruth _
  | inList => exact Value.fits_ofTruth _
  | is => trivial
  | arithmetic _ _ _ ihl ihr => exact Value.fits_arithmetic ihl ihr
  | concat _ _ _ ihl ihr => exact Value.fits_concat ihl ihr
  | negate _ ih => exact Value.fits_negate ih
  | not => exact Value.fits_ofTruth _
  | logical => exact Value.fits_ofTruth _
  | call => exact hv.apply _ _

/-- A criterion is true if its value is. -/
theorem HasType.operandTruth (hv : Respects Γ I v) {e : Expr} (h : HasType Γ e .boolean) :
    e.operandTruth (e.eval I v) = (e.eval I v).truth := by
  have hfits := h.fits hv
  unfold Expr.operandTruth
  split
  · exact Value.compare_true hfits
  · rfl

theorem HasType.eval_not (hv : Respects Γ I v) {e : Expr} (h : HasType Γ e .boolean) :
    (Expr.not e).eval I v = .ofTruth (e.eval I v).truth.not := by
  rw [Expr.eval, h.operandTruth hv]

theorem HasType.eval_logical (hv : Respects Γ I v) {op : LogicalOp} {l r : Expr} (hl : HasType Γ l .boolean)
    (hr : HasType Γ r .boolean) :
    (Expr.logical op l r).eval I v = .ofTruth (.connect op (l.eval I v).truth (r.eval I v).truth) := by
  rw [Expr.eval, hl.operandTruth hv, hr.operandTruth hv]

/-! ### Criteria -/

theorem HasType.asCondition (hv : Respects Γ I v) {e : Expr} (h : HasType Γ e .boolean) :
    HasType Γ e.asCondition .boolean ∧ e.asCondition.eval I v = e.eval I v := by
  unfold Expr.asCondition
  split
  · rename_i p
    refine ⟨.comparison h (.bool true), ?_⟩
    have hfits := h.fits hv
    rw [Expr.eval] at hfits
    simp only [Expr.eval, Expr.bool, Value.ofLiteral]
    rw [Value.compare_true hfits, Value.ofTruth_truth hfits]
  · exact ⟨h, rfl⟩

/-- The opposite of a criterion has the opposite truth. -/
theorem HasType.opposite (hv : Respects Γ I v) {e : Expr} (h : HasType Γ e .boolean) :
    HasType Γ e.opposite .boolean ∧ e.opposite.eval I v = .ofTruth (e.eval I v).truth.not := by
  fun_induction Expr.opposite e with
  | case1 b => exact ⟨.bool _, rfl⟩
  | case2 e =>
    cases h with
    | not h =>
      refine ⟨h, ?_⟩
      rw [h.eval_not hv, Value.truth_ofTruth, Truth.not_not, Value.ofTruth_truth (h.fits hv)]
  | case3 op l r =>
    cases h with
    | comparison hl hr =>
      refine ⟨.comparison hl hr, ?_⟩
      simp only [Expr.eval, Value.truth_ofTruth, Value.compare_negate]
  | case4 l p negated =>
    cases h with
    | like hl hp hτ =>
      refine ⟨.like hl hp hτ, ?_⟩
      simp only [Expr.eval, Value.truth_ofTruth, Truth.not_negated]
  | case5 l low high negated table =>
    cases h with
    | between hl hlow hhigh =>
      refine ⟨.between hl hlow hhigh, ?_⟩
      simp only [Expr.eval, Value.truth_ofTruth, Truth.not_negated]
  | case6 l items negated table =>
    cases h with
    | inList hl hitems =>
      refine ⟨.inList hl hitems, ?_⟩
      simp only [Expr.eval, Value.truth_ofTruth, Truth.not_negated]
  | case7 l operand =>
    cases h with
    | is hl =>
      refine ⟨.is hl, ?_⟩
      cases operand <;> simp [Expr.eval, Interpretation.test, IsOperand.negate, Value.truth, Value.ofTruth, Truth.not]
  | case8 op l r ihl ihr =>
    cases h with
    | logical hl hr =>
      obtain ⟨tl, el⟩ := ihl hl
      obtain ⟨tr, er⟩ := ihr hr
      refine ⟨.logical tl tr, ?_⟩
      rw [tl.eval_logical hv tr, hl.eval_logical hv hr, el, er, Value.truth_ofTruth, Value.truth_ofTruth,
        Value.truth_ofTruth, Truth.not_connect]
  | case9 e =>
    obtain ⟨hc, hceval⟩ := h.asCondition hv
    refine ⟨.not hc, ?_⟩
    rw [hc.eval_not hv, hceval]

/-- Truth values are left out of a combination without a change of its truth. -/
theorem HasType.connect (hv : Respects Γ I v) {op : LogicalOp} {l r : Expr} (hl : HasType Γ l .boolean)
    (hr : HasType Γ r .boolean) :
    HasType Γ (Expr.connect op l r) .boolean ∧
      (Expr.connect op l r).eval I v = .ofTruth (.connect op (l.eval I v).truth (r.eval I v).truth) := by
  have hlf := Value.ofTruth_truth (hl.fits hv)
  have hrf := Value.ofTruth_truth (hr.fits hv)
  have keep : ∀ {e : Expr} {t : Truth}, HasType Γ e .boolean → t = (e.eval I v).truth →
      HasType Γ e .boolean ∧ e.eval I v = .ofTruth t := fun he ht =>
    ⟨he, by rw [ht, Value.ofTruth_truth (he.fits hv)]⟩
  unfold Expr.connect
  split
  · refine keep hr ?_
    rcases (r.eval I v).truth with _ | _ | _ <;> rfl
  · refine keep hl ?_
    rcases (l.eval I v).truth with _ | _ | _ <;> rfl
  · refine keep (.bool false) ?_
    rcases (r.eval I v).truth with _ | _ | _ <;> rfl
  · refine keep (.bool false) ?_
    rcases (l.eval I v).truth with _ | _ | _ <;> rfl
  · refine keep hr ?_
    rcases (r.eval I v).truth with _ | _ | _ <;> rfl
  · refine keep hl ?_
    rcases (l.eval I v).truth with _ | _ | _ <;> rfl
  · refine keep (.bool true) ?_
    rcases (r.eval I v).truth with _ | _ | _ <;> rfl
  · refine keep (.bool true) ?_
    rcases (l.eval I v).truth with _ | _ | _ <;> rfl
  · exact ⟨.logical hl hr, hl.eval_logical hv hr⟩

/-! ### Arithmetic -/

end

theorem Number.toInt_of_int64? {n : Int} {m : Int64} (h : int64? n = some m) : m.toInt = n := by
  unfold int64? at h
  split at h
  · rename_i hrange
    cases h
    exact Int64.toInt_ofInt_of_le hrange.1 (Int.lt_add_one_of_le hrange.2)
  · cases h

/-- A folded operation on integers has the exact value. -/
theorem Expr.arithmetic_of_foldIntegers {op : ArithmeticOp} {a b n : Int64} (h : foldIntegers op a b = some n) :
    Value.arithmetic op (.integer a.toInt) (.integer b.toInt) = .integer n.toInt := by
  have hdiv : ∀ {m : Int64}, Number.div? a b = some m → b.toInt ≠ 0 ∧ m.toInt = a.toInt.tdiv b.toInt := by
    intro m hm
    unfold Number.div? at hm
    split at hm
    · cases hm
    · rename_i hb
      exact ⟨hb, Number.toInt_of_int64? hm⟩
  cases op with
  | add => rw [Number.toInt_of_int64? h, Value.arithmetic]
  | sub => rw [Number.toInt_of_int64? h, Value.arithmetic]
  | mul => rw [Number.toInt_of_int64? h, Value.arithmetic]
  | div =>
    obtain ⟨hb, hm⟩ := hdiv h
    rw [Value.arithmetic, if_neg hb, hm]
  | mod =>
    obtain ⟨q, hq, hm⟩ := Option.bind_eq_some_iff.mp h
    rw [Value.arithmetic, if_neg (hdiv hq).1, Number.toInt_of_int64? hm]
  | concat => cases h

section
variable {Γ : Typing} {I : Interpretation} {v : Valuation}

theorem HasType.foldArithmetic {op : ArithmeticOp} {l r : Expr} {τ : ValueType}
    (h : HasType Γ (.arithmetic op l r) τ) :
    HasType Γ (Expr.foldArithmetic op l r) τ ∧
      (Expr.foldArithmetic op l r).eval I v = (Expr.arithmetic op l r).eval I v := by
  unfold Expr.foldArithmetic
  split
  · rename_i a b
    cases hf : Expr.foldLiterals op a b with
    | none => exact ⟨h, rfl⟩
    | some c =>
      rw [Option.elim_some]
      cases h with
      | arithmetic hop hl hr =>
        cases hl with
        | integer m =>
          cases hr with
          | integer n =>
            obtain ⟨k, hk, rfl⟩ := Option.map_eq_some_iff.mp hf
            refine ⟨.integer k, ?_⟩
            simp only [Expr.eval, Value.ofLiteral, Expr.arithmetic_of_foldIntegers hk]
      | concat hop hl hr =>
        cases hl with
        | string s =>
          cases hr with
          | string t =>
            simp only [Expr.foldLiterals, hop, if_true, Option.some.injEq] at hf
            subst hf
            refine ⟨.string _, ?_⟩
            rcases hop with rfl | rfl <;> simp only [Expr.eval, Value.ofLiteral, Value.arithmetic]
  · exact ⟨h, rfl⟩

theorem HasType.foldNegate (hv : Respects Γ I v) {e : Expr} (h : HasType Γ e .integer) :
    HasType Γ e.foldNegate .integer ∧ e.foldNegate.eval I v = (e.eval I v).negate := by
  unfold Expr.foldNegate
  split
  · rename_i n
    cases hn : Number.neg? n with
    | none => exact ⟨.negate h, by simp only [Option.elim_none, Expr.int, Expr.eval]⟩
    | some m =>
      refine ⟨.integer m, ?_⟩
      simp only [Option.elim_some, Expr.int, Expr.eval, Value.ofLiteral, Value.negate,
        Number.toInt_of_int64? hn]
  · cases h
  · rename_i e
    cases h with
    | negate h =>
      refine ⟨h, ?_⟩
      rw [Expr.eval, Value.negate_negate (h.fits hv)]
  · exact ⟨.negate h, by rw [Expr.eval]⟩

/-! ### Places of texts -/

end

theorem neg_one_le_indexIn (s part : List Char) : -1 ≤ indexIn s part := by
  unfold indexIn
  split <;> omega

/-- A text is at place zero of the texts that start with it. -/
theorem indexIn_eq_zero_iff (s part : List Char) : indexIn s part = 0 ↔ part <+: s := by
  unfold indexIn
  split
  · rename_i i hi
    rw [List.find?_range_eq_some] at hi
    obtain ⟨hstarts, -, hbefore⟩ := hi
    rw [List.isPrefixOf_iff_prefix] at hstarts
    constructor
    · intro h0
      have hzero : i = 0 := by omega
      rwa [hzero, List.drop_zero] at hstarts
    · intro hstart
      cases i with
      | zero => rfl
      | succ i =>
        have hfirst := hbefore 0 (Nat.succ_pos i)
        rw [List.drop_zero, List.isPrefixOf_iff_prefix.mpr hstart] at hfirst
        cases hfirst
  · rename_i hnone
    rw [List.find?_eq_none] at hnone
    refine ⟨fun h => by omega, fun hstart => ?_⟩
    have hfirst := hnone 0 (List.mem_range.mpr (Nat.succ_pos _))
    rw [List.drop_zero, List.isPrefixOf_iff_prefix] at hfirst
    exact absurd hstart hfirst

/-- Only a text that occurs nowhere has no place. -/
theorem indexIn_eq_neg_one_iff (s part : List Char) : indexIn s part = -1 ↔ ¬part <:+: s := by
  unfold indexIn
  split
  · rename_i i hi
    rw [List.find?_range_eq_some] at hi
    have hstarts := List.isPrefixOf_iff_prefix.mp hi.1
    refine ⟨fun h => by omega, fun h => ?_⟩
    exact absurd (List.infix_iff_prefix_suffix.mpr ⟨s.drop i, hstarts, List.drop_suffix i s⟩) h
  · rename_i hnone
    rw [List.find?_eq_none] at hnone
    refine ⟨fun _ hinfix => ?_, fun _ => rfl⟩
    obtain ⟨a, b, rfl⟩ := hinfix
    have hat := hnone a.length (List.mem_range.mpr (by simp only [List.length_append]; omega))
    rw [List.append_assoc, List.drop_left, List.isPrefixOf_iff_prefix] at hat
    exact hat (List.prefix_append part b)

section
variable {Γ : Typing} {I : Interpretation} {v : Valuation}

theorem HasType.args {f : Function} {args : List Expr} {τ : ValueType} (h : HasType Γ (.call f args) τ) :
    ∃ σ : Expr → ValueType, ∀ e ∈ args, HasType Γ e (σ e) := by
  cases h with
  | call σ hargs => exact ⟨σ, hargs⟩

/-- A comparison of integers holds if the relation that it names does. -/
theorem Value.compare_integer {op : ComparisonOp} {a b : Int} {p : Prop} [Decidable p] (h : op.Relates a b ↔ p) :
    compare op (integer a) (integer b) = some (decide p) := by
  have haccepts : op.accepts (Ord.compare a b) = true ↔ op.Relates a b := by
    cases op <;> simp only [ComparisonOp.accepts, ComparisonOp.Relates]
    case eq => exact Ordering.isEq_iff_eq_eq.trans Std.LawfulEqCmp.compare_eq_iff_eq
    case ne => exact Ordering.isNe_iff_ne_eq.trans (not_congr Std.LawfulEqCmp.compare_eq_iff_eq)
    case lt => exact Ordering.isLT_iff_eq_lt.trans Int.compare_eq_lt
    case le => exact Int.isLE_compare
    case gt => exact Ordering.isGT_iff_eq_gt.trans Int.compare_eq_gt
    case ge => exact Int.isGE_compare
  rw [compare, order?, Option.map_some, Option.some.injEq, Bool.eq_iff_iff, haccepts, h, decide_eq_true_iff]

/-- A test of two texts that agrees with a comparison of the place of one in the other. -/
theorem eval_placeComparison {s part e : Expr} {op : ComparisonOp} {place : Int64} {n : Int}
    {p : List Char → List Char → Prop} [∀ a b, Decidable (p a b)] (hn : place.toInt = n)
    (he : e.eval I v = Value.onTexts (fun a b => .bool (decide (p a b))) (s.eval I v) (part.eval I v))
    (hp : ∀ a b, op.Relates (indexIn a b) n ↔ p a b) :
    e.eval I v = (Expr.comparison op (.call .indexOf [s, part]) (.int place)).eval I v := by
  simp only [he, Expr.eval, Expr.listEval, Interpretation.apply, Expr.int, Value.ofLiteral, hn]
  -- One of the texts may be absent, and then neither side is known.
  generalize s.eval I v = a
  generalize part.eval I v = b
  cases a <;> cases b <;> simp only [Value.onTexts]
  case text.text a b => rw [Value.compare_integer (hp a.toList b.toList)]; rfl
  all_goals rfl

/-- A comparison of the place of a text with 0 or -1 becomes a test of the text. -/
theorem HasType.placeTest {args : List Expr} (h : HasType Γ (.call .indexOf args) .integer) (op : ComparisonOp)
    (place : Int64) :
    HasType Γ (Expr.placeTest op args place) .boolean ∧
      (Expr.placeTest op args place).eval I v
        = (Expr.comparison op (.call .indexOf args) (.int place)).eval I v := by
  have hunchanged : HasType Γ (.comparison op (.call .indexOf args) (.int place)) .boolean :=
    .comparison h (.integer place)
  obtain ⟨σ, hargs⟩ := h.args
  unfold Expr.placeTest
  split
  · rename_i s part
    have hcontains : HasType Γ (.call .contains [s, part]) .boolean := .call σ hargs
    have heval : (Expr.call .contains [s, part]).eval I v
        = Value.onTexts (fun a b => .bool (decide (b <:+: a))) (s.eval I v) (part.eval I v) := by
      simp only [Expr.eval, Expr.listEval, Interpretation.apply]
    split
    · rename_i hplace
      refine ⟨.call σ hargs, eval_placeComparison (p := fun a b => b <+: a) hplace ?_ fun a b => ?_⟩
      · simp only [Expr.eval, Expr.listEval, Interpretation.apply]
      · exact indexIn_eq_zero_iff a b
    · rename_i hplace
      refine ⟨.not hcontains, eval_placeComparison (p := fun a b => ¬b <:+: a) hplace ?_ fun a b => ?_⟩
      · rw [Expr.eval, heval]
        generalize s.eval I v = a
        generalize part.eval I v = b
        cases a <;> cases b <;> simp [Value.onTexts, Expr.operandTruth, Value.truth, Truth.not, Value.ofTruth]
      · exact indexIn_eq_neg_one_iff a b
    · rename_i hplace
      refine ⟨hcontains, eval_placeComparison hplace heval fun a b => ?_⟩
      rw [ComparisonOp.Relates, ne_eq, indexIn_eq_neg_one_iff, Decidable.not_not]
    · rename_i hplace
      refine ⟨hcontains, eval_placeComparison hplace heval fun a b => ?_⟩
      have hle := neg_one_le_indexIn a b
      rw [ComparisonOp.Relates, ← Decidable.not_not (p := b <:+: a), ← indexIn_eq_neg_one_iff]
      omega
    · rename_i hplace
      refine ⟨hcontains, eval_placeComparison hplace heval fun a b => ?_⟩
      have hle := neg_one_le_indexIn a b
      rw [ComparisonOp.Relates, ← Decidable.not_not (p := b <:+: a), ← indexIn_eq_neg_one_iff]
      omega
    · exact ⟨hunchanged, rfl⟩
  · exact ⟨hunchanged, rfl⟩

/-! ### Comparisons -/

theorem Value.compare_shift (op : ComparisonOp) (a k c : Int) :
    compare op (integer (a + k)) (integer c) = compare op (integer a) (integer (c - k)) := by
  have horder : Ord.compare (a + k) c = Ord.compare a (c - k) := by
    have hlt : a + k < c ↔ a < c - k := by omega
    have heq : a + k = c ↔ a = c - k := by omega
    simp only [Ord.compare, compareOfLessAndEq, hlt, heq]
  simp only [compare, order?, horder]

theorem HasType.eq_boolean {b : Bool} {τ : ValueType} (h : HasType Γ (.literal (.bool b)) τ) : τ = .boolean := by
  cases h
  rfl

theorem HasType.eq_integer {n : Int64} {τ : ValueType} (h : HasType Γ (.literal (.integer n)) τ) : τ = .integer := by
  cases h
  rfl

theorem HasType.simplifyOrdered (hv : Respects Γ I v) (op : ComparisonOp) {l r : Expr} {τ : ValueType}
    (hl : HasType Γ l τ) (hr : HasType Γ r τ) :
    HasType Γ (Expr.simplifyOrdered op l r) .boolean ∧
      (Expr.simplifyOrdered op l r).eval I v = (Expr.comparison op l r).eval I v := by
  have hunchanged : HasType Γ (.comparison op l r) .boolean := .comparison hl hr
  unfold Expr.simplifyOrdered
  split
  · rename_i flag
    obtain rfl := hr.eq_boolean
    split
    · rename_i hop
      simp only [Bool.and_eq_true, Bool.or_eq_true, beq_iff_eq] at hop
      have hcompare := Value.compare_bool (hl.fits hv) hop.2 flag
      rw [Expr.eval, Expr.eval, Value.ofLiteral, hcompare]
      split
      · exact ⟨hl, (Value.ofTruth_truth (hl.fits hv)).symm⟩
      · exact hl.opposite hv
    · exact ⟨hunchanged, rfl⟩
  · rename_i args k c
    obtain rfl := hr.eq_integer
    cases hl with
    | arithmetic _ hcall _ =>
      split
      · rename_i shifted hshifted
        obtain ⟨htype, heval⟩ := hcall.placeTest (I := I) (v := v) op shifted
        refine ⟨htype, heval.trans ?_⟩
        have hplace := hcall.fits hv
        have hexact := Number.toInt_of_int64? hshifted
        simp only [Expr.eval, Expr.int, Value.ofLiteral, hexact] at hplace ⊢
        rcases Value.eq_of_fits_integer hplace with hnull | ⟨n, hn⟩
        · rw [hnull]
          rfl
        · rw [hn, Value.arithmetic, Value.compare_shift]
      · exact ⟨hunchanged, rfl⟩
  · obtain rfl := hr.eq_integer
    exact hl.placeTest op _
  · exact ⟨hunchanged, rfl⟩

/-- Literals of one type are compared by their values. -/
theorem HasType.order?_of_compare? {a b : Literal} {τ : ValueType} {o : Ordering} (ha : HasType Γ (.literal a) τ)
    (hb : HasType Γ (.literal b) τ) (h : a.compare? b = some o) :
    Value.order? (.ofLiteral a) (.ofLiteral b) = some o := by
  cases ha <;> cases hb <;> exact h

/-- A comparison keeps its truth when literals are compared at once and operands change places. -/
theorem HasType.simplifyComparison (hv : Respects Γ I v) {op : ComparisonOp} {l r : Expr} {τ : ValueType}
    (hl : HasType Γ l τ) (hr : HasType Γ r τ) :
    HasType Γ (Expr.simplifyComparison op l r) .boolean ∧
      (Expr.simplifyComparison op l r).eval I v = (Expr.comparison op l r).eval I v := by
  unfold Expr.simplifyComparison
  split
  · split
    · rename_i a b _ o ho
      refine ⟨.bool _, ?_⟩
      rw [Expr.bool, Expr.eval, Expr.eval, Expr.eval, Expr.eval, Value.compare, hl.order?_of_compare? hr ho,
        ComparisonOp.holds_eq_accepts]
      rfl
    · exact hl.simplifyOrdered hv op hr
  · split
    · obtain ⟨htype, heval⟩ := hr.simplifyOrdered hv op.flip hl
      refine ⟨htype, heval.trans ?_⟩
      rw [Expr.eval, Expr.eval, Value.compare_flip]
    · exact hl.simplifyOrdered hv op hr

/-! ### Patterns -/

theorem Value.compare_text (s t : String) (negated : Bool) :
    compare (if negated then .ne else .eq) (text s) (text t) = .negated negated (some (decide (s = t))) := by
  have heq : (Ord.compare s t).isEq = decide (s = t) := by
    rw [Bool.eq_iff_iff, decide_eq_true_iff, Ordering.isEq_iff_eq_eq]
    exact Std.LawfulEqCmp.compare_eq_iff_eq
  rw [← heq, compare, order?]
  cases negated <;> cases Ord.compare s t <;> rfl

/-- A pattern without wildcards is an equality, and any other is found where its canonical form is. -/
theorem HasType.simplifyLike (hv : Respects Γ I v) {l p : Expr} {negated : Bool} {τ : ValueType}
    (hl : HasType Γ l .text) (hp : HasType Γ p τ) (hτ : τ = .pattern ∨ τ = .text)
    (hordered : ∀ value, p = .pattern value → value.Ordered ∧ value.Pinned) :
    HasType Γ (Expr.simplifyLike l p negated) .boolean ∧
      (Expr.simplifyLike l p negated).eval I v = (Expr.like l p negated).eval I v := by
  unfold Expr.simplifyLike
  split
  · rename_i value
    obtain ⟨hord, hpinned⟩ := hordered value rfl
    split
    · rename_i s hs
      refine ⟨.comparison hl (.string s), ?_⟩
      simp only [Expr.eval, Expr.text, Value.ofLiteral]
      rcases Value.eq_of_fits_text (hl.fits hv) with hnull | ⟨t, ht⟩
      · rw [hnull]
        cases negated <;> rfl
      · have hfinds : value.Finds t.toList ↔ t = s := by
          rw [← Pattern.finds_simplify hord,
            Pattern.finds_iff_of_literal? hord.simplify hs (hpinned (Option.isSome_of_eq_some hs))]
          exact String.toList_inj
        rw [ht, Value.compare_text, Interpretation.matching]
        simp only [hfinds]
    · refine ⟨.like hl (.pattern _) (Or.inl rfl), ?_⟩
      simp only [Expr.eval]
      rcases Value.eq_of_fits_text (hl.fits hv) with hnull | ⟨t, ht⟩
      · rw [hnull]
        rfl
      · have hfinds := propext (Pattern.finds_simplify hord t.toList)
        simp only [ht, Interpretation.matching]
        rw [hfinds]
  · exact ⟨.like hl hp hτ, rfl⟩

end
end ItemQuery
