import ItemQuery.Aml.Reader
import ItemQuery.Aml.Writer
import ItemQuery.Proofs.Expr.Grouping
import ItemQuery.Proofs.Expr.Tables
import ItemQuery.Proofs.Pattern.WildcardText
import ItemQuery.Proofs.Sql.Numerals

/-! Criteria about one property. Each is an element with a condition and a text, and the condition and the text
    are read as the criterion again. The bounds of a range and the items of a value list stand in that text as
    SQL, patterns as text with wildcards. -/

namespace ItemQuery

/-- An expression whose properties are all of `table`, without recorded tables. -/
def Expr.movedTo (table : TableId) (e : Expr) : Expr :=
  e.withoutTables.mapTables fun _ => table

end ItemQuery

namespace ItemQuery.Aml

/-! ### Values -/

/-- Whether a text stands for the current time. -/
def IsNow (s : String) : Prop :=
  (Text.trim s).toLower = "__now()"

theorem isNow_now : IsNow "__now()" := by
  unfold IsNow
  decide +kernel

/-- The values in lists and ranges about a property: texts bound to it, and integers without a sign. -/
inductive Listed (p : PropertyRef) : Expr → Prop
  | object {s : String} (hs : ¬IsNow s) : Listed p (.object ⟨s, some p⟩)
  | integer {n : Int64} (hn : 0 ≤ n) : Listed p (.int n)

/-- A value as it is read before it is bound to a property. -/
def unbound : Expr → Expr
  | .object o => .text o.value
  | e => e

section
variable {p : PropertyRef} {e : Expr} (h : Listed p e)
include h

theorem Listed.listText (w : Writer) : w.listText e = .ok (unbound e).display := by
  cases h <;> simp only [Writer.listText, Expr.int] <;> rfl

theorem Listed.bindValue (table : TableId) : bindValue ⟨table, p.name⟩ (unbound e) = e.movedTo table := by
  cases h with
  | object hs => exact if_neg hs
  | integer => rfl

theorem Listed.legible : Sql.Legible (unbound e).display (unbound e) := by
  cases h with
  | object => exact Sql.legible_quoted _
  | integer hn => exact Sql.legible_int hn

end

/-! ### Conditions -/

section
variable (q : Query) (p : PropertyRef) (value : String)

/-- The conditions that are written have one spelling. -/
theorem normalizedCondition_of_mem {condition : String}
    (h : condition ∈ ["like", "not like", "in", "not in", "between", "not between", "is null", "is not null",
      "is defined", "is not defined", "eq", "ne", "lt", "le", "gt", "ge"]) :
    normalizedCondition condition = condition := by
  revert condition
  decide +kernel

theorem criterion_comparison (op : ComparisonOp) :
    criterion q p op.name value = .ok (.comparison op (.property p) (propertyValue p value)) := by
  cases op <;> (unfold criterion; rw [normalizedCondition_of_mem (by decide)]; rfl)

theorem criterion_like (negated : Bool) :
    criterion q p (Expr.negatable negated "like") value
      = (Pattern.ofWildcard .aml value).map fun pattern => .like (.property p) (.pattern pattern) negated := by
  cases negated <;> (unfold criterion; rw [normalizedCondition_of_mem (by decide)]; rfl)

theorem criterion_inList (negated : Bool) :
    criterion q p (Expr.negatable negated "in") value
      = (Sql.parseInList q p.table value).map fun items =>
          .inList (.property p) (items.map (bindValue p)) negated none := by
  cases negated <;> (unfold criterion; rw [normalizedCondition_of_mem (by decide)]; rfl)

theorem criterion_between (negated : Bool) :
    criterion q p (Expr.negatable negated "between") value
      = (Sql.parseBetween q p.table value).map fun bounds =>
          .between (.property p) (bindValue p bounds.1) (bindValue p bounds.2) negated none := by
  cases negated <;> (unfold criterion; rw [normalizedCondition_of_mem (by decide)]; rfl)

theorem criterion_is (operand : IsOperand) :
    criterion q p operand.condition value = .ok (.is (.property p) operand) := by
  cases operand <;> (unfold criterion; rw [normalizedCondition_of_mem (by decide)]; rfl)

end

/-! ### Criteria -/

/-- The criteria about a property that have an element of their own. -/
inductive Leaf (p : PropertyRef) : Expr → Prop
  | comparison (op : ComparisonOp) {s : String} (hs : ¬IsNow s) :
      Leaf p (.comparison op (.property p) (.object ⟨s, some p⟩))
  | now (op : ComparisonOp) : Leaf p (.comparison op (.property p) (.call .currentDateTime []))
  | like {source : String} {pattern : Pattern} (hpattern : Pattern.ofWildcard .aml source = .ok pattern)
      (negated : Bool) : Leaf p (.like (.property p) (.pattern pattern) negated)
  | inList {items : List Expr} (hitems : ∀ e ∈ items, Listed p e) (negated : Bool) (recorded : Option TableId) :
      Leaf p (.inList (.property p) items negated recorded)
  | between {low high : Expr} (hlow : Listed p low) (hhigh : Listed p high) (negated : Bool)
      (recorded : Option TableId) : Leaf p (.between (.property p) low high negated recorded)
  | is (operand : IsOperand) : Leaf p (.is (.property p) operand)

/-- A criterion is written as an element with this condition and text, which are read as the criterion about the
    property of any table. -/
structure Tells (w : Writer) (p : PropertyRef) (e : Expr) (condition : Option String) (text : String) : Prop where
  written : w.leaf p.table e = .ok (conditionElement p.name condition text)
  read : ∀ q table, criterion q ⟨table, p.name⟩ (condition.getD "eq") text = .ok (e.movedTo table)

theorem ownProperty_self (p : PropertyRef) : ownProperty p.table (.property p) = .ok p.name :=
  if_pos rfl

/-- An equality has no condition, which counts as one. -/
theorem tells_comparison {w : Writer} {p : PropertyRef} (op : ComparisonOp) {r : Expr} {text : String}
    (hwritten : w.valueText r = .ok text) (hread : ∀ table, propertyValue ⟨table, p.name⟩ text = r.movedTo table) :
    Tells w p (.comparison op (.property p) r) (if op = .eq then none else some op.name) text := by
  refine ⟨?_, fun q table => ?_⟩
  · rw [Writer.leaf, ownProperty_self, hwritten]
    rfl
  · have hcondition : (if op = .eq then none else some op.name).getD "eq" = op.name := by
      cases op <;> rfl
    rw [hcondition, criterion_comparison, hread]
    rfl

theorem mapM_listText (w : Writer) {p : PropertyRef} {items : List Expr} (h : ∀ e ∈ items, Listed p e) :
    items.mapM w.listText = .ok (items.map fun e => (unbound e).display) := by
  induction items with
  | nil => rfl
  | cons e items ih =>
    rw [List.mapM_cons, (h e List.mem_cons_self).listText, ih fun other hother => h other (List.mem_cons_of_mem e hother)]
    rfl

theorem Leaf.tells (w : Writer) {p : PropertyRef} {e : Expr} (h : Leaf p e) :
    ∃ condition text, Tells w p e condition text := by
  cases h with
  | comparison op hs => exact ⟨_, _, tells_comparison op (by rw [Writer.valueText]) fun table => if_neg hs⟩
  | now op => exact ⟨_, _, tells_comparison op (by rw [Writer.valueText]) fun table => if_pos isNow_now⟩
  | like hpattern negated =>
    obtain ⟨shown, hshown, hback⟩ := Pattern.exists_toWildcard Pattern.clear_aml hpattern
    refine ⟨some (Expr.negatable negated "like"), shown, ?_, fun q table => ?_⟩
    · rw [Writer.leaf, ownProperty_self, hshown]
      rfl
    · rw [Option.getD_some, criterion_like, hback]
      rfl
  | @inList items hitems negated recorded =>
    have hvalues : items.mapM w.listText = .ok ((items.map unbound).map Expr.display) := by
      rw [List.map_map]
      exact mapM_listText w hitems
    have hlegible : List.Forall₂ Sql.Legible ((items.map unbound).map Expr.display) (items.map unbound) :=
      List.forall₂_map_left_iff.mpr (List.forall₂_same.mpr (List.forall_mem_map.mpr fun e he => (hitems e he).legible))
    have hbound : ∀ table, (items.map unbound).map (bindValue ⟨table, p.name⟩) = items.map (Expr.movedTo table) := by
      intro table
      rw [List.map_map]
      exact List.map_congr_left fun e he => (hitems e he).bindValue table
    refine ⟨some (Expr.negatable negated "in"), ", ".intercalate ((items.map unbound).map Expr.display), ?_,
      fun q table => ?_⟩
    · rw [Writer.leaf, hvalues, ownProperty_self]
      rfl
    · rw [Option.getD_some, criterion_inList, Sql.parseInList_legible q table hlegible, Except.map, hbound]
      simp only [Expr.movedTo, Expr.withoutTables, Expr.mapTables, Expr.listWithoutTables_eq_map,
        Expr.listMapTables_eq_map, List.map_map]
      rfl
  | @between low high hlow hhigh negated recorded =>
    refine ⟨some (Expr.negatable negated "between"), (unbound low).display ++ " and " ++ (unbound high).display, ?_,
      fun q table => ?_⟩
    · rw [Writer.leaf, ownProperty_self, hlow.listText, hhigh.listText]
      rfl
    · rw [Option.getD_some, criterion_between, Sql.parseBetween_legible q table hlow.legible hhigh.legible, Except.map,
        hlow.bindValue, hhigh.bindValue]
      rfl
  | is operand =>
    refine ⟨some operand.condition, "", ?_, fun q table => ?_⟩
    · rw [Writer.leaf, ownProperty_self]
      rfl
    · rw [Option.getD_some, criterion_is]
      rfl

end ItemQuery.Aml
