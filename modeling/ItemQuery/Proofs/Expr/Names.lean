import ItemQuery.Proofs.Expr.Handles
import ItemQuery.Proofs.Expr.Tables
import ItemQuery.Proofs.Sql.Regrouping

/-! The tables that an expression names in SQL: those of its properties and stars. Recorded tables and the properties
    that untyped values belong to are not written. -/

namespace ItemQuery.Expr

variable {P Q : TableId → Prop} {e : Expr}

/-- All tables that the expression names satisfy `P`. -/
def Names (P : TableId → Prop) (e : Expr) : Prop :=
  ∀ t ∈ e.tableRefs, P t

theorem Names.mono (h : e.Names P) (hPQ : ∀ t, P t → Q t) : e.Names Q :=
  fun t ht => hPQ t (h t ht)

theorem Among.names (h : e.Among P) : e.Names P :=
  h.2

/-- What a node names besides its parts. -/
def NamesOwn (P : TableId → Prop) : Expr → Prop
  | property p => P p.table
  | allProperties table _ => P table
  | _ => True

theorem listNames_iff {es : List Expr} : (∀ t ∈ listTableRefs es, P t) ↔ ∀ e ∈ es, e.Names P := by
  induction es with
  | nil => simp [listTableRefs]
  | cons e es ih => rw [listTableRefs, List.forall_mem_append, ih, List.forall_mem_cons, Names]

theorem names_iff : e.Names P ↔ NamesOwn P e ∧ ∀ d ∈ e.children, d.Names P := by
  cases e with
  | parameter name default raw =>
    cases default <;> simp [Names, tableRefs, optionTableRefs, children, NamesOwn]
  | list items | call f items =>
    rw [Names, tableRefs, listNames_iff, NamesOwn, children, true_and]
    all_goals simp
  | inList l items negated table =>
    rw [Names, tableRefs, List.forall_mem_append, listNames_iff, children, List.forall_mem_cons, NamesOwn, true_and, Names]
    all_goals simp
  | _ => simp [Names, tableRefs, children, NamesOwn, or_imp, forall_and]

theorem names_iff_everywhere : e.Names P ↔ e.Everywhere (NamesOwn P) := by
  induction e using induction_children with
  | h e ih =>
    rw [names_iff, everywhere_iff]
    exact and_congr_right fun _ => forall₂_congr ih

theorem Confined.names (h : e.Confined P) : e.Names P := by
  induction e using induction_children with
  | h e ih =>
    refine names_iff.mpr ?_
    cases e with
    | parameter name default raw =>
      cases default with
      | none => exact ⟨trivial, List.forall_mem_nil _⟩
      | some e => exact ⟨trivial, List.forall_mem_singleton.mpr (ih e (by simp [children]) h)⟩
    | list items | call f items => exact ⟨trivial, fun d hd => ih d hd (listConfined_iff.mp h d hd)⟩
    | comparison op l r | arithmetic op l r | logical op l r | like l r op =>
      refine ⟨trivial, List.forall_mem_cons.mpr ⟨ih l (by simp [children]) h.1, List.forall_mem_singleton.mpr ?_⟩⟩
      exact ih r (by simp [children]) h.2
    | between l low high negated table =>
      refine ⟨trivial, List.forall_mem_cons.mpr ⟨ih l (by simp [children]) h.1, List.forall_mem_cons.mpr
        ⟨ih low (by simp [children]) h.2.1, List.forall_mem_singleton.mpr (ih high (by simp [children]) h.2.2.1)⟩⟩⟩
    | inList l items negated table =>
      refine ⟨trivial, List.forall_mem_cons.mpr ⟨ih l (by simp [children]) h.1, fun d hd => ?_⟩⟩
      exact ih d (List.mem_cons_of_mem l hd) (listConfined_iff.mp h.2.1 d hd)
    | is e _ | negate e | not e => exact ⟨trivial, List.forall_mem_singleton.mpr (ih e (by simp [children]) h)⟩
    | property p | allProperties table extended => exact ⟨h, List.forall_mem_nil _⟩
    | literal _ | object _ | pattern _ => exact ⟨trivial, List.forall_mem_nil _⟩

theorem collects_namesOwn : Collects (NamesOwn P) where
  chain _ _ := trivial
  values _ _ := trivial
  node e hne h := by
    cases e with
    | logical op l r =>
      cases op with
      | or => exact absurd rfl (hne l r)
      | and => exact eq_collapseIn (e := logical .and l r) rfl ▸ trivial
    | _ =>
      rw [eq_collapseIn rfl]
      exact h

theorem counts_namesOwn : Counts (NamesOwn P) where
  int _ := trivial
  sum _ _ _ := trivial
  node e h := by cases e <;> exact h

theorem Names.collapseIn (h : e.Names P) : e.collapseIn.Names P :=
  names_iff_everywhere.mpr ((names_iff_everywhere.mp h).collapseIn collects_namesOwn)

theorem Names.oneBased (h : e.Names P) : e.oneBased.Names P :=
  names_iff_everywhere.mpr ((names_iff_everywhere.mp h).oneBased counts_namesOwn)

end ItemQuery.Expr
