import ItemQuery.Proofs.Expr.Nodes
import ItemQuery.Proofs.Normalize.Meaning

/-! When normalizing again changes nothing. Each rule leaves nodes that no rule applies to, with three exceptions,
    all of nodes that a rule builds without looking at them again: the comparison that a `like` without wildcards
    becomes, a negated comparison of a place, and a pattern that one pass of simplification has not settled. A result
    without such nodes is a fixed point. -/

namespace ItemQuery.Expr

variable {d e l r : Expr}

/-! ### Nodes without a rule -/

/-- Neither a property nor a truth value. -/
def Standing (e : Expr) : Prop :=
  (∀ p, e ≠ property p) ∧ ∀ b, e ≠ bool b

/-- No rule for comparisons applies, unless both sides are texts or the place of a text is compared. -/
structure Compared (op : ComparisonOp) (l r : Expr) : Prop where
  ordered : swaps l r = false
  literals : ∀ a b, l = literal a → r = literal b → a.compare? b = none ∨ ∃ s t, a = .string s ∧ b = .string t
  flag : ∀ b, r = bool b → l.isPredicate = true → op ≠ .eq ∧ op ≠ .ne
  shift : ∀ args k c, l = arithmetic .add (call .indexOf args) (int k) → r = int c → Number.sub? c k = none
  place : ∀ x y c, l = call .indexOf [x, y] → r = int c → c.toInt = -1 → op ≠ .eq ∧ op ≠ .ne

/-- What a rule leaves behind. -/
def Still : Expr → Prop
  | comparison op l r => Compared op l r
  | like _ p _ => ∀ value, p = pattern value → value.literal? = none
  | between l low high _ table => singleTable "between" [l, low, high] = .ok table
  | inList l items _ table => singleTable "in" (l :: items) = .ok table
  | arithmetic op l r => foldArithmetic op l r = arithmetic op l r
  | negate e => foldNegate e = negate e
  | not e => e.asCondition.opposite = not e
  | logical _ l r => l.Standing ∧ r.Standing
  | _ => True

/-- A node that a rule has built and that another rule would change. -/
def Missed : Expr → Prop
  | comparison _ (literal (.string _)) (literal (.string _)) => True
  | comparison op (call .indexOf [_, _]) (literal (.integer c)) =>
    (op = .eq ∨ op = .ge) ∧ c.toInt = 0 ∨ op = .gt ∧ c.toInt = -1
  | like _ (pattern value) _ => value.simplify ≠ value
  | _ => False

/-- Every node is as a rule leaves it. -/
def Reduced (e : Expr) : Prop :=
  e.Everywhere Still

/-- No node is left that a rule would change. -/
def Finished (e : Expr) : Prop :=
  e.Everywhere fun d => ¬d.Missed

theorem reduced_iff : e.Reduced ↔ e.Still ∧ ∀ d ∈ e.children, d.Reduced :=
  everywhere_iff

theorem finished_iff : e.Finished ↔ ¬e.Missed ∧ ∀ d ∈ e.children, d.Finished :=
  everywhere_iff

theorem reduced_literal (value : Literal) : (literal value).Reduced :=
  reduced_iff.mpr ⟨trivial, nofun⟩

theorem reduced_comparison {op : ComparisonOp} (h : Compared op l r) (hl : l.Reduced) (hr : r.Reduced) :
    (comparison op l r).Reduced :=
  reduced_iff.mpr ⟨h, by simp [children, hl, hr]⟩

theorem reduced_logical {op : LogicalOp} (hls : l.Standing) (hrs : r.Standing) (hl : l.Reduced) (hr : r.Reduced) :
    (logical op l r).Reduced :=
  reduced_iff.mpr ⟨⟨hls, hrs⟩, by simp [children, hl, hr]⟩

theorem reduced_not (h : e.asCondition.opposite = not e) (he : e.Reduced) : (not e).Reduced :=
  reduced_iff.mpr ⟨h, by simp [children, he]⟩

theorem reduced_call {function : Function} {args : List Expr} (h : ∀ d ∈ args, d.Reduced) : (call function args).Reduced :=
  reduced_iff.mpr ⟨trivial, h⟩

/-! ### Conditions and their opposites -/

theorem asCondition_ne_property (e : Expr) (p : PropertyRef) : e.asCondition ≠ property p := by
  cases e <;> nofun

theorem asCondition_of_ne (h : ∀ p, e ≠ property p) : e.asCondition = e := by
  cases e with
  | property p => exact absurd rfl (h p)
  | _ => rfl

theorem Reduced.asCondition (h : e.Reduced) : e.asCondition.Reduced := by
  by_cases hp : ∃ p, e = property p
  · obtain ⟨p, rfl⟩ := hp
    refine reduced_comparison ⟨rfl, nofun, nofun, nofun, nofun⟩ h (reduced_literal _)
  · rw [asCondition_of_ne fun p he => hp ⟨p, he⟩]
    exact h

theorem standing_of_opposite (h : e.asCondition.opposite = not e) : e.Standing := by
  refine ⟨?_, ?_⟩
  · rintro p rfl
    cases h
  · rintro b rfl
    cases h

theorem Compared.negate {op : ComparisonOp} (h : Compared op l r) : Compared op.negate l r where
  ordered := h.ordered
  literals := h.literals
  flag b hr hl := by
    have hop := h.flag b hr hl
    cases op <;> simp_all [ComparisonOp.negate]
  shift := h.shift
  place x y c hl hr hc := by
    have hop := h.place x y c hl hr hc
    cases op <;> simp_all [ComparisonOp.negate]

theorem Reduced.opposite (h : e.Reduced) (hp : ∀ p, e ≠ property p) :
    e.opposite.Reduced ∧ (e.Standing → e.opposite.Standing) := by
  fun_induction Expr.opposite e with
  | case1 b => exact ⟨reduced_literal _, fun hs => absurd rfl (hs.2 b)⟩
  | case2 e =>
    obtain ⟨hstill, hparts⟩ := reduced_iff.mp h
    exact ⟨hparts e (by simp [children]), fun _ => standing_of_opposite hstill⟩
  | case3 op l r =>
    obtain ⟨hstill, hparts⟩ := reduced_iff.mp h
    exact ⟨reduced_comparison (Compared.negate hstill) (hparts l (by simp [children])) (hparts r (by simp [children])),
      fun _ => ⟨by rintro _ ⟨⟩, by rintro _ ⟨⟩⟩⟩
  | case4 l p negated =>
    obtain ⟨hstill, hparts⟩ := reduced_iff.mp h
    exact ⟨reduced_iff.mpr ⟨hstill, hparts⟩, fun _ => ⟨by rintro _ ⟨⟩, by rintro _ ⟨⟩⟩⟩
  | case5 l low high negated table =>
    obtain ⟨hstill, hparts⟩ := reduced_iff.mp h
    exact ⟨reduced_iff.mpr ⟨hstill, hparts⟩, fun _ => ⟨by rintro _ ⟨⟩, by rintro _ ⟨⟩⟩⟩
  | case6 l items negated table =>
    obtain ⟨hstill, hparts⟩ := reduced_iff.mp h
    exact ⟨reduced_iff.mpr ⟨hstill, hparts⟩, fun _ => ⟨by rintro _ ⟨⟩, by rintro _ ⟨⟩⟩⟩
  | case7 l operand =>
    obtain ⟨hstill, hparts⟩ := reduced_iff.mp h
    exact ⟨reduced_iff.mpr ⟨hstill, hparts⟩, fun _ => ⟨by rintro _ ⟨⟩, by rintro _ ⟨⟩⟩⟩
  | case8 op l r ihl ihr =>
    obtain ⟨⟨hls, hrs⟩, hparts⟩ := reduced_iff.mp h
    obtain ⟨hl, hlstanding⟩ := ihl (hparts l (by simp [children])) hls.1
    obtain ⟨hr, hrstanding⟩ := ihr (hparts r (by simp [children])) hrs.1
    exact ⟨reduced_logical (hlstanding hls) (hrstanding hrs) hl hr, fun _ => ⟨by rintro _ ⟨⟩, by rintro _ ⟨⟩⟩⟩
  | case9 e hbool hnot hcomparison hlike hbetween hin his hlogical =>
    have hopposite : e.opposite = not e.asCondition :=
      opposite.eq_9 e hbool hnot hcomparison hlike hbetween hin his hlogical
    rw [asCondition_of_ne hp] at hopposite ⊢
    exact ⟨reduced_not (by rw [asCondition_of_ne hp, hopposite]) h, fun _ => ⟨by rintro _ ⟨⟩, by rintro _ ⟨⟩⟩⟩

theorem connect_of_standing (op : LogicalOp) (hl : l.Standing) (hr : r.Standing) :
    connect op l r = logical op l r := by
  fun_cases Expr.connect op l r with
  | case1 | case3 | case5 | case7 => exact absurd rfl (hl.2 _)
  | case2 | case4 | case6 | case8 => exact absurd rfl (hr.2 _)
  | case9 => rfl

theorem Reduced.connect (op : LogicalOp) (hl : l.Reduced) (hr : r.Reduced) (hlp : ∀ p, l ≠ property p)
    (hrp : ∀ p, r ≠ property p) : (connect op l r).Reduced := by
  fun_cases Expr.connect op l r with
  | case1 | case5 => exact hr
  | case2 | case6 => exact hl
  | case3 | case4 | case7 | case8 => exact reduced_literal _
  | case9 h1 h2 h3 h4 h5 h6 h7 h8 =>
    refine reduced_logical ⟨hlp, ?_⟩ ⟨hrp, ?_⟩ hl hr
    · rintro b rfl
      cases op <;> cases b <;> simp_all [bool]
    · rintro b rfl
      cases op <;> cases b <;> simp_all [bool]

/-! ### Numbers -/

theorem Reduced.foldArithmetic (op : ArithmeticOp) (hl : l.Reduced) (hr : r.Reduced) :
    (foldArithmetic op l r).Reduced := by
  by_cases hfold : Expr.foldArithmetic op l r = arithmetic op l r
  · rw [hfold]
    exact reduced_iff.mpr ⟨hfold, by simp [children, hl, hr]⟩
  · unfold Expr.foldArithmetic at hfold ⊢
    split at hfold
    next a b =>
      cases hvalue : foldLiterals op a b with
      | none => simp [hvalue] at hfold
      | some value => exact reduced_literal value
    next => exact absurd rfl hfold

theorem Reduced.foldNegate (h : e.Reduced) : e.foldNegate.Reduced := by
  by_cases hfold : e.foldNegate = negate e
  · rw [hfold]
    exact reduced_iff.mpr ⟨hfold, by simp [children, h]⟩
  · unfold Expr.foldNegate at hfold ⊢
    split at hfold
    next n =>
      cases hvalue : Number.neg? n with
      | none => simp [hvalue, int] at hfold
      | some value => exact reduced_literal _
    next => exact reduced_literal _
    next e => exact (reduced_iff.mp h).2 e (by simp [children])
    next => exact absurd rfl hfold

/-! ### Comparisons -/

theorem swaps_comm (h : swaps l r = true) : swaps r l = false := by
  fun_cases swaps l r with
  | case1 => simp [swaps] at h
  | case2 => cases l <;> rfl
  | case3 =>
    rw [swaps] at h
    cases l with
    | literal | object => rfl
    | _ => cases h
  | case4 h1 h2 h3 => simp [swaps] at h

/-- The place of a text in another, compared. -/
theorem placeTest_of_still {op : ComparisonOp} {args : List Expr} {c : Int64}
    (hplace : ∀ x y, args = [x, y] → c.toInt = -1 → op ≠ .eq ∧ op ≠ .ne)
    (hmissed : ¬(comparison op (call .indexOf args) (int c)).Missed) :
    placeTest op args c = comparison op (call .indexOf args) (int c) := by
  unfold placeTest
  dsimp only
  split
  next x y =>
    split
    all_goals simp_all [Missed, int]
  next => rfl

theorem Reduced.placeTest (op : ComparisonOp) {args : List Expr} (c : Int64) (h : ∀ d ∈ args, d.Reduced) :
    (placeTest op args c).Reduced := by
  have hunchanged (hplace : ∀ x y, args = [x, y] → c.toInt = -1 → op ≠ .eq ∧ op ≠ .ne) :
      (comparison op (call .indexOf args) (int c)).Reduced := by
    refine reduced_comparison ⟨rfl, nofun, nofun, nofun, ?_⟩ (reduced_call h) (reduced_literal _)
    rintro x y c' hargs hc hminus
    cases hargs
    cases hc
    exact hplace x y rfl hminus
  fun_cases Expr.placeTest op args c with
  | case1 | case3 | case4 | case5 => exact reduced_call h
  | case2 => exact reduced_not rfl (reduced_call h)
  | case6 op x y hop1 hop2 hop3 hop4 hop5 =>
    refine hunchanged fun x' y' _ hminus => ⟨fun hop => ?_, fun hop => ?_⟩
    · exact hop2 hop hminus
    · exact hop3 hop hminus
  | case7 op args _ hargs => exact hunchanged fun x y heq => absurd heq (hargs x y)

theorem Reduced.args {function : Function} {args : List Expr} (h : (call function args).Reduced) :
    ∀ d ∈ args, d.Reduced :=
  (reduced_iff.mp h).2

theorem Reduced.left {op : ArithmeticOp} (h : (arithmetic op l r).Reduced) : l.Reduced :=
  (reduced_iff.mp h).2 l (by simp [children])

theorem ne_property_of_isPredicate (h : e.isPredicate = true) (p : PropertyRef) : e ≠ property p := by
  rintro rfl
  cases h

theorem Reduced.simplifyOrdered (op : ComparisonOp) (hl : l.Reduced) (hr : r.Reduced) (hordered : swaps l r = false)
    (hliterals : ∀ a b, l = literal a → r = literal b → a.compare? b = none) : (simplifyOrdered op l r).Reduced := by
  fun_cases Expr.simplifyOrdered op l r with
  | case1 => exact hl
  | case2 l flag htest =>
    have hpredicate : l.isPredicate = true := (Bool.and_eq_true_iff.mp htest).1
    exact (hl.opposite (ne_property_of_isPredicate hpredicate)).1
  | case3 l flag htest =>
    refine reduced_comparison ⟨hordered, fun a b ha hb => .inl (hliterals a b ha hb), ?_, nofun, nofun⟩ hl hr
    intro b _ hpredicate
    simpa [hpredicate] using htest
  | case4 args k c shifted => exact .placeTest op shifted hl.left.args
  | case5 args k c hnone =>
    refine reduced_comparison ⟨hordered, nofun, nofun, ?_, nofun⟩ hl hr
    rintro args' k' c' harithmetic hinteger
    cases harithmetic
    cases hinteger
    exact hnone
  | case6 args c => exact .placeTest op c hl.args
  | case7 l r _ hflag hshift hplace =>
    refine reduced_comparison ⟨hordered, fun a b ha hb => .inl (hliterals a b ha hb), ?_, ?_, ?_⟩ hl hr
    · intro b hb
      exact absurd hb (hflag b)
    · intro args k c hsum hc
      exact absurd hc (hshift args k c hsum)
    · intro x y c hcall hc
      exact absurd hc (hplace [x, y] c hcall)

theorem Reduced.simplifyComparison (op : ComparisonOp) (hl : l.Reduced) (hr : r.Reduced) :
    (simplifyComparison op l r).Reduced := by
  fun_cases Expr.simplifyComparison op l r with
  | case1 => exact reduced_literal _
  | case2 a b hnone =>
    refine .simplifyOrdered op hl hr rfl fun a' b' ha hb => ?_
    cases ha
    cases hb
    exact hnone
  | case3 l r hliterals hswaps =>
    rw [if_pos hswaps]
    exact .simplifyOrdered op.flip hr hl (swaps_comm hswaps) fun a b ha hb => (hliterals b a hb ha).elim
  | case4 l r hliterals hswaps =>
    rw [if_neg hswaps]
    exact .simplifyOrdered op hl hr (by simpa using hswaps) fun a b ha hb => (hliterals a b ha hb).elim

theorem swaps_literal (l : Expr) (value : Literal) : swaps l (literal value) = false := by
  cases l <;> rfl

theorem Reduced.simplifyLike {p : Expr} (negated : Bool) (hl : l.Reduced) (hp : p.Reduced) :
    (simplifyLike l p negated).Reduced := by
  fun_cases Expr.simplifyLike l p negated with
  | case1 value s hs =>
    refine reduced_comparison ⟨swaps_literal l _, fun a b ha hb => ?_, by simp [text, bool], by simp [text, int],
      by simp [text, int]⟩ hl (reduced_literal _)
    cases hb
    cases a with
    | string a => exact .inr ⟨a, s, rfl, rfl⟩
    | _ => exact .inl rfl
  | case2 value hnone =>
    refine reduced_iff.mpr ⟨?_, ?_⟩
    · rintro value' ⟨⟩
      exact hnone
    · simp only [children, List.mem_cons, List.not_mem_nil, or_false, forall_eq_or_imp, forall_eq]
      exact ⟨hl, reduced_iff.mpr ⟨trivial, List.forall_mem_nil _⟩⟩
  | case3 p hpattern =>
    refine reduced_iff.mpr ⟨fun value hvalue => absurd hvalue (hpattern value), ?_⟩
    simp only [children, List.mem_cons, List.not_mem_nil, or_false, forall_eq_or_imp, forall_eq]
    exact ⟨hl, hp⟩

/-! ### Trees -/

/-- The rules leave every node as some rule leaves it. -/
theorem Becomes.reduced {n : Expr} (h : e.Becomes n) : n.Reduced := by
  induction h with
  | @leaf e hleaf =>
    refine reduced_iff.mpr ⟨?_, by simp [hleaf]⟩
    cases e with
    | comparison | like | between | inList | is | arithmetic | negate | not | logical => cases hleaf
    | _ => trivial
  | parameter _ ih => exact reduced_iff.mpr ⟨trivial, by simpa [children] using ih⟩
  | list hns _ ih => exact reduced_iff.mpr ⟨trivial, forall_mem_normalizeList hns ih⟩
  | call hns _ ih => exact reduced_call (forall_mem_normalizeList hns ih)
  | comparison _ _ hl hr => exact hl.simplifyComparison _ hr
  | like _ _ hl hp => exact hl.simplifyLike _ hp
  | between _ _ _ htable hl hlow hhigh => exact reduced_iff.mpr ⟨htable, by simp [children, hl, hlow, hhigh]⟩
  | inList _ hns _ htable hl ih =>
    exact reduced_iff.mpr ⟨htable, List.forall_mem_cons.mpr ⟨hl, forall_mem_normalizeList hns ih⟩⟩
  | is _ hl => exact reduced_iff.mpr ⟨trivial, by simpa [children] using hl⟩
  | arithmetic _ _ hl hr => exact hl.foldArithmetic _ hr
  | negate _ he => exact he.foldNegate
  | @not _ e' _ he => exact (he.asCondition.opposite (asCondition_ne_property e')).1
  | @logical _ _ _ l' r' _ _ hl hr =>
    exact hl.asCondition.connect _ hr.asCondition (asCondition_ne_property l') (asCondition_ne_property r')

theorem normalizeList_of_fixed {es : List Expr} (h : ∀ e ∈ es, e.normalizeTree = .ok e) : normalizeList es = .ok es := by
  induction es with
  | nil => rfl
  | cons e es ih =>
    rw [normalizeList, h e List.mem_cons_self, ih fun d hd => h d (List.mem_cons_of_mem e hd)]
    rfl

theorem Compared.simplifyOrdered_eq {op : ComparisonOp} (h : Compared op l r) (hm : ¬(comparison op l r).Missed) :
    simplifyOrdered op l r = comparison op l r := by
  fun_cases Expr.simplifyOrdered op l r with
  | case1 l flag htest | case2 l flag htest =>
    rw [Bool.and_eq_true, Bool.or_eq_true, beq_iff_eq, beq_iff_eq] at htest
    have hop := h.flag flag rfl htest.1
    exact absurd htest.2 (not_or.mpr hop)
  | case3 => rfl
  | case4 args k c shifted hshift => exact absurd (h.shift args k c rfl rfl) (by simp [hshift])
  | case5 => rfl
  | case6 args c => exact placeTest_of_still (fun x y hargs => h.place x y c (by rw [hargs]) rfl) hm
  | case7 => rfl

theorem Compared.simplifyComparison_eq {op : ComparisonOp} (h : Compared op l r) (hm : ¬(comparison op l r).Missed) :
    simplifyComparison op l r = comparison op l r := by
  fun_cases Expr.simplifyComparison op l r with
  | case1 a b order horder =>
    rcases h.literals a b rfl rfl with hnone | ⟨s, t, rfl, rfl⟩
    · rw [hnone] at horder
      cases horder
    · exact absurd trivial hm
  | case2 a b => exact h.simplifyOrdered_eq hm
  | case3 l r _ hswaps =>
    rw [h.ordered] at hswaps
    cases hswaps
  | case4 l r _ hswaps =>
    rw [if_neg hswaps]
    exact h.simplifyOrdered_eq hm

theorem normalizeTree_of_reduced (e : Expr) : e.Reduced → e.Finished → e.normalizeTree = .ok e := by
  induction e using induction_children with
  | h e ih =>
  intro hreduced hfinished
  obtain ⟨hstill, hreduced⟩ := reduced_iff.mp hreduced
  obtain ⟨hnode, hfinished⟩ := finished_iff.mp hfinished
  have hparts : ∀ d ∈ e.children, d.normalizeTree = .ok d := fun d hd => ih d hd (hreduced d hd) (hfinished d hd)
  cases e with
  | literal | object | property | allProperties | pattern => rfl
  | parameter name default raw =>
    cases default with
    | none => rfl
    | some e =>
      rw [normalizeTree, normalizeOption, hparts e (by simp [children])]
      rfl
  | list items =>
    rw [normalizeTree, show normalizeList items = .ok items from normalizeList_of_fixed hparts]
    rfl
  | call function args =>
    rw [normalizeTree, show normalizeList args = .ok args from normalizeList_of_fixed hparts]
    rfl
  | comparison op l r =>
    rw [normalizeTree, hparts l (by simp [children]), hparts r (by simp [children])]
    exact congrArg Except.ok (Compared.simplifyComparison_eq hstill hnode)
  | like l p negated =>
    rw [normalizeTree, hparts l (by simp [children]), hparts p (by simp [children])]
    refine congrArg Except.ok ?_
    cases p with
    | pattern value =>
      have hstable : value.simplify = value := Classical.not_not.mp hnode
      simp only [simplifyLike, hstable, hstill value rfl]
    | _ => rfl
  | between l low high negated table =>
    rw [normalizeTree, hparts l (by simp [children]), hparts low (by simp [children]),
      hparts high (by simp [children])]
    change (singleTable "between" [l, low, high] >>= _) = _
    rw [show singleTable "between" [l, low, high] = .ok table from hstill]
    rfl
  | inList l items negated table =>
    rw [normalizeTree, hparts l List.mem_cons_self,
      normalizeList_of_fixed fun d hd => hparts d (List.mem_cons_of_mem l hd)]
    change (singleTable "in" (l :: items) >>= _) = _
    rw [show singleTable "in" (l :: items) = .ok table from hstill]
    rfl
  | is l operand =>
    rw [normalizeTree, hparts l (by simp [children])]
    rfl
  | arithmetic op l r =>
    rw [normalizeTree, hparts l (by simp [children]), hparts r (by simp [children])]
    exact congrArg Except.ok hstill
  | negate e =>
    rw [normalizeTree, hparts e (by simp [children])]
    exact congrArg Except.ok hstill
  | not e =>
    rw [normalizeTree, hparts e (by simp [children])]
    exact congrArg Except.ok hstill
  | logical op l r =>
    obtain ⟨hl, hr⟩ := hstill
    rw [normalizeTree, hparts l (by simp [children]), hparts r (by simp [children])]
    refine congrArg Except.ok ?_
    rw [asCondition_of_ne hl.1, asCondition_of_ne hr.1, connect_of_standing op hl hr]

/-- Normalizing a second time changes nothing, unless the first time has left a comparison of two texts, a comparison
    of a place that is a test, or a pattern that is not simple. -/
theorem normalize_normalize {n : Expr} (h : e.normalize = .ok n) (hfinished : n.Finished) : n.normalize = .ok n := by
  obtain ⟨m, hm, rfl⟩ := Result.map_eq_ok.mp h
  have hreduced : m.asCondition.Reduced := (becomes_of_normalizeTree e m hm).reduced.asCondition
  rw [normalize, normalizeTree_of_reduced _ hreduced hfinished, Except.map,
    asCondition_of_ne (asCondition_ne_property m)]

/-- A negation moves down to a test of a place and to a pattern that stays one. -/
theorem normalize_normalize_not_or :
    let name : Expr := .prop ⟨0, 0⟩ "name"
    let place : Expr := .arithmetic .add (.call .indexOf [name, .text "a"]) (.int 1)
    let ending : Pattern := .ofShape .endsWith "b"
    let e : Expr := .not (.or (.comparison .eq place (.int 0)) (.like name (.pattern ending) false))
    let n : Expr := .and (.call .contains [name, .text "a"]) (.like name (.pattern ending) true)
    e.normalize = .ok n ∧ n.Finished ∧ n.normalize = .ok n := by
  intro name place ending e n
  have hn : e.normalize = .ok n := by rfl
  have hname : name.Finished := finished_iff.mpr ⟨id, List.forall_mem_nil _⟩
  have htext : (text "a").Finished := finished_iff.mpr ⟨id, List.forall_mem_nil _⟩
  have hpattern : (pattern ending).Finished := finished_iff.mpr ⟨id, List.forall_mem_nil _⟩
  have hcontains : (call .contains [name, text "a"]).Finished :=
    finished_iff.mpr ⟨id, by simp [children, hname, htext]⟩
  have hlike : (like name (pattern ending) true).Finished :=
    finished_iff.mpr ⟨fun hmissed => hmissed rfl, by simp [children, hname, hpattern]⟩
  have hfinished : n.Finished := finished_iff.mpr ⟨id, by simp [n, Expr.and, children, hcontains, hlike]⟩
  exact ⟨hn, hfinished, normalize_normalize hn hfinished⟩

/-- The three exceptions: a text that is like a text, a negated comparison of a place, and a letter that meets the
    same letter only once the one between them is dropped. -/
theorem normalize_normalize_ne :
    let name : Expr := .prop ⟨0, 0⟩ "name"
    let place : Expr := .call .indexOf [name, .text "a"]
    let starts : Expr := .call .startsWith [name, .text "a"]
    let dropped : Pattern := ⟨[[.literal "x", .text "a" ⟨0, some 0, true⟩, .literal "a"]]⟩
    let kept : Pattern := ⟨[[.literal "x", .literal "a"]]⟩
    let joined : Pattern := ⟨[[.literal "xa"]]⟩
    ((like (text "ab") (pattern (.ofText "ab")) false).normalize = .ok (comparison .eq (text "ab") (text "ab")) ∧
        (comparison .eq (text "ab") (text "ab")).normalize = .ok (bool true)) ∧
      ((not (comparison .ne place (int 0))).normalize = .ok (comparison .eq place (int 0)) ∧
        (comparison .eq place (int 0)).normalize = .ok starts) ∧
      (like name (pattern dropped) false).normalize = .ok (like name (pattern kept) false) ∧
        (like name (pattern kept) false).normalize = .ok (like name (pattern joined) false) := by
  intro name place starts dropped kept joined
  refine ⟨⟨rfl, rfl⟩, ⟨rfl, rfl⟩, rfl, rfl⟩

end ItemQuery.Expr
