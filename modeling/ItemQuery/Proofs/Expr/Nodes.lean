import ItemQuery.Expr.Basic

/-! The nodes of a tree, and what holds of all of them. -/

namespace ItemQuery.Expr

variable {d e : Expr}

theorem sizeOf_lt_of_mem_children (h : d ∈ e.children) : sizeOf d < sizeOf e := by
  cases e with
  | parameter name default raw =>
    cases default with
    | none => cases h
    | some d' =>
      obtain rfl : d = d' := by simpa [children] using h
      simp +arith
  | list items =>
    have : sizeOf d < sizeOf items := List.sizeOf_lt_of_mem h
    simp only [list.sizeOf_spec]
    omega
  | inList l items negated table =>
    rcases List.mem_cons.mp h with rfl | h
    · simp +arith
    · have := List.sizeOf_lt_of_mem h
      simp only [inList.sizeOf_spec]
      omega
  | call function args =>
    have : sizeOf d < sizeOf args := List.sizeOf_lt_of_mem h
    simp only [call.sizeOf_spec]
    omega
  | literal | object | property | allProperties | pattern => cases h
  | comparison | like | between | is | arithmetic | negate | not | logical =>
    simp only [children, List.mem_cons, List.not_mem_nil, or_false] at h
    rcases h with rfl | rfl | rfl <;> simp +arith

/-- Induction from the parts of a tree to the tree. -/
theorem induction_children {P : Expr → Prop} (h : ∀ e, (∀ d ∈ e.children, P d) → P e) (e : Expr) : P e :=
  h e fun d _ => induction_children h d
termination_by e
decreasing_by exact sizeOf_lt_of_mem_children ‹_›

/-- A node of a tree. -/
inductive Within (d : Expr) : Expr → Prop
  | self : Within d d
  | part {c e : Expr} (hc : c ∈ e.children) (hd : Within d c) : Within d e

/-- Of every node of the tree. -/
def Everywhere (P : Expr → Prop) (e : Expr) : Prop :=
  ∀ d : Expr, d.Within e → P d

theorem everywhere_iff {P : Expr → Prop} : e.Everywhere P ↔ P e ∧ ∀ d ∈ e.children, d.Everywhere P := by
  constructor
  · intro h
    exact ⟨h e .self, fun c hc d hd => h d (.part hc hd)⟩
  · rintro ⟨hnode, hparts⟩ d hd
    cases hd with
    | self => exact hnode
    | part hc hd => exact hparts _ hc d hd

theorem everywhere_leaf {P : Expr → Prop} (hleaf : e.children = []) (h : P e) : e.Everywhere P :=
  everywhere_iff.mpr ⟨h, by simp [hleaf]⟩

theorem everywhere_pair {P : Expr → Prop} {l r : Expr} (hpair : e.children = [l, r]) (h : P e) (hl : l.Everywhere P)
    (hr : r.Everywhere P) : e.Everywhere P :=
  everywhere_iff.mpr ⟨h, by simp [hpair, hl, hr]⟩

/-! ### Direct parts -/

/-- The expression with every direct part replaced. -/
def mapChildren (f : Expr → Expr) : Expr → Expr
  | parameter name default raw => parameter name (default.map f) raw
  | list items => list (items.map f)
  | comparison op l r => comparison op (f l) (f r)
  | like l p negated => like (f l) (f p) negated
  | between l low high negated table => between (f l) (f low) (f high) negated table
  | inList l items negated table => inList (f l) (items.map f) negated table
  | is l operand => is (f l) operand
  | arithmetic op l r => arithmetic op (f l) (f r)
  | negate e => negate (f e)
  | not e => not (f e)
  | logical op l r => logical op (f l) (f r)
  | call function args => call function (args.map f)
  | e => e

variable {f g : Expr → Expr}

@[simp] theorem children_mapChildren (f : Expr → Expr) (e : Expr) : (e.mapChildren f).children = e.children.map f := by
  cases e with
  | parameter name default raw => cases default <;> rfl
  | _ => rfl

theorem mapChildren_congr (h : ∀ d ∈ e.children, f d = g d) : e.mapChildren f = e.mapChildren g := by
  cases e with
  | parameter name default raw =>
    cases default with
    | none => rfl
    | some d => simp only [mapChildren, Option.map_some, h d (by simp [children])]
  | list items => exact congrArg list (List.map_congr_left h)
  | call function args => exact congrArg (call function) (List.map_congr_left h)
  | inList l items negated table =>
    rw [children, List.forall_mem_cons] at h
    rw [mapChildren, mapChildren, h.1, List.map_congr_left h.2]
  | literal | object | property | allProperties | pattern => rfl
  | comparison | like | between | is | arithmetic | negate | not | logical =>
    simp only [children, List.forall_mem_cons, List.not_mem_nil, false_imp_iff, implies_true, and_true] at h
    simp only [mapChildren, h]

theorem mapChildren_id (e : Expr) : e.mapChildren id = e := by
  cases e <;> simp [mapChildren]

theorem mapChildren_eq_self (h : ∀ d ∈ e.children, f d = d) : e.mapChildren f = e :=
  (mapChildren_congr h).trans (mapChildren_id e)

end ItemQuery.Expr
