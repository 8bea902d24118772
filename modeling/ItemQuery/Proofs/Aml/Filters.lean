import ItemQuery.Proofs.Aml.Elements
import ItemQuery.Proofs.Aml.Leaves
import Mathlib.Data.List.Forall2

/-! Filters about one table. No criterion leads to another table, so the parts stand in the order of the operands:
    a chain of conjunctions lies flat in its item, any other connective is an element. Read again, the operands of
    a chain are joined from the left. -/

namespace ItemQuery.Aml

/-! ### Tables -/

/-- Connectives over criteria about the properties of one table. -/
inductive Criteria (table : TableId) : Expr → Prop
  | leaf {name : String} {e : Expr} (hname : name ∉ reservedNames) (h : Leaf ⟨table, name⟩ e) : Criteria table e
  | not {e : Expr} (h : Criteria table e) : Criteria table (.not e)
  | logical (op : LogicalOp) {l r : Expr} (hl : Criteria table l) (hr : Criteria table r) :
      Criteria table (.logical op l r)

theorem Listed.tableRefs {p : PropertyRef} {e : Expr} (h : Listed p e) : e.tableRefs = [] := by
  cases h <;> simp only [Expr.tableRefs, Expr.int]

theorem listTableRefs_listed {p : PropertyRef} {items : List Expr} (h : ∀ e ∈ items, Listed p e) :
    Expr.listTableRefs items = [] := by
  induction items with
  | nil => rfl
  | cons e items ih =>
    rw [Expr.listTableRefs, (h e List.mem_cons_self).tableRefs,
      ih fun other hother => h other (List.mem_cons_of_mem e hother)]
    rfl

theorem Leaf.tableRefs {p : PropertyRef} {e : Expr} (h : Leaf p e) : e.tableRefs = [p.table] := by
  cases h with
  | inList hitems => rw [Expr.tableRefs, listTableRefs_listed hitems, Expr.tableRefs]; rfl
  | between hlow hhigh => rw [Expr.tableRefs, hlow.tableRefs, hhigh.tableRefs, Expr.tableRefs]; rfl
  | _ => simp [Expr.tableRefs, Expr.listTableRefs]

theorem Criteria.eq_of_mem_tableRefs {table : TableId} {e : Expr} (h : Criteria table e) {id : TableId}
    (hid : id ∈ e.tableRefs) : id = table := by
  induction h with
  | leaf _ hleaf =>
    rw [hleaf.tableRefs] at hid
    exact List.mem_singleton.mp hid
  | not _ ih => exact ih (by rwa [Expr.tableRefs] at hid)
  | logical op _ _ ihl ihr =>
    rw [Expr.tableRefs] at hid
    rcases List.mem_append.mp hid with hid | hid
    · exact ihl hid
    · exact ihr hid

/-- A criterion about the table itself does not lead to another one. -/
theorem Criteria.hop? (w : Writer) {table : TableId} {e : Expr} (h : Criteria table e) : w.hop? table e = none := by
  unfold Writer.hop?
  cases hids : e.tables with
  | nil => rfl
  | cons id ids =>
    have hid : id = table := h.eq_of_mem_tableRefs (Expr.mem_tables.mp (hids ▸ List.mem_cons_self))
    simp only [List.map_cons, hid, if_true]

/-! ### Parts -/

/-- A part that gives these events and involves no table. -/
def Part.Writes (part : Part) (events : List Xml.Event) : Prop :=
  ∀ seen, part seen = .ok (events, seen)

/-- The operand stays on its table, and its part is read as `x` on the table of the reader. -/
def Speaks (w : Writer) (table target : TableId) (operand : Writer.Operand) (x : Expr) : Prop :=
  w.hop? table operand.1 = none ∧ ∃ events, operand.2.Writes events ∧ Gathers target events [x]

section
variable {w : Writer} {table target : TableId} {nested : Writer.Nested} {operands : List Writer.Operand} {xs : List Expr}

theorem Part.Writes.within {part : Part} {events : List Xml.Event} (h : part.Writes events) (name : String) :
    (Part.within name part).Writes (Xml.Event.element name events) := by
  intro seen
  rw [Part.within, h seen]
  rfl

/-- Parts one after the other are read one after the other. -/
theorem exists_writes_all (h : List.Forall₂ (Speaks w table target) operands xs) :
    ∃ events, (Part.all (operands.map (·.2))).Writes events ∧ Gathers target events xs := by
  induction h with
  | nil => exact ⟨[], fun _ => rfl, gathers_nil⟩
  | cons hfirst _ ih =>
    obtain ⟨-, first, hwrites, hgathers⟩ := hfirst
    obtain ⟨rest, hwrites', hgathers'⟩ := ih
    refine ⟨first ++ rest, fun seen => ?_, hgathers.append hgathers'⟩
    rw [List.map_cons, Part.all, hwrites seen]
    simp only [bind, Except.bind, hwrites' seen]
    rfl

theorem conjunctionParts_eq_map {all : List Writer.Operand} {done : List TableId}
    (h : List.Forall₂ (Speaks w table target) operands xs) :
    w.conjunctionParts table nested all done operands = operands.map (·.2) := by
  induction h with
  | nil => rfl
  | cons hfirst _ ih => rw [Writer.conjunctionParts, hfirst.1, ih, List.map_cons]

theorem exists_writes_conjunction (nested : Writer.Nested) (h : List.Forall₂ (Speaks w table target) operands xs) :
    ∃ events, (w.conjunction table nested operands).Writes events ∧ Gathers target events xs := by
  rw [Writer.conjunction, conjunctionParts_eq_map h]
  exact exists_writes_all h

theorem disjunction_eq_all (h : List.Forall₂ (Speaks w table target) operands xs) :
    w.disjunction table nested operands = Part.all (operands.map (·.2)) := by
  rw [Writer.disjunction]
  congr 1
  induction h with
  | nil => rfl
  | cons hfirst _ ih => simp only [List.map_cons, hfirst.1, ih]

theorem exists_writes_disjunction (nested : Writer.Nested) (h : List.Forall₂ (Speaks w table target) operands xs) :
    ∃ events, (w.disjunction table nested operands).Writes events ∧ Gathers target events xs := by
  rw [disjunction_eq_all h]
  exact exists_writes_all h

end

/-! ### Operands -/

/-- An operand that is one element. -/
theorem speaks_of_writes (w : Writer) {table target : TableId} {e x : Expr} {part : Part} {events : List Xml.Event}
    (h : Criteria table e) (hwrites : part.Writes events) (hgathers : Gathers target events [x]) :
    List.Forall₂ (Speaks w table target) [(e, part)] [x] :=
  .cons ⟨h.hop? w, events, hwrites, hgathers⟩ .nil

theorem Listed.leftGrouped {p : PropertyRef} {e : Expr} (h : Listed p e) (table : TableId) :
    (e.movedTo table).leftGrouped = e.movedTo table := by
  cases h <;> rfl

/-- Regrouping has nothing to do in a criterion about a property. -/
theorem Leaf.leftGrouped {p : PropertyRef} {e : Expr} (h : Leaf p e) (table : TableId) :
    (e.movedTo table).leftGrouped = e.movedTo table := by
  cases h with
  | inList hitems =>
    simp only [Expr.movedTo, Expr.withoutTables, Expr.mapTables, Expr.leftGrouped, Expr.listWithoutTables_eq_map,
      Expr.listMapTables_eq_map, Expr.listLeftGrouped_eq_map, List.map_map]
    refine congrArg (Expr.inList _ · _ none) (List.map_congr_left fun e he => ?_)
    exact (hitems e he).leftGrouped table
  | between hlow hhigh =>
    refine congrArg₂ (Expr.between _ · · _ none) (hlow.leftGrouped table) (hhigh.leftGrouped table)
  | _ => rfl

/-- The operands of a chain are read as the operands of the chain, each with its own chains grouped. -/
theorem Criteria.speaks (w : Writer) (nested : Writer.Nested) (target : TableId) {table : TableId} {e : Expr}
    (h : Criteria table e) (chain : LogicalOp) :
    List.Forall₂ (Speaks w table target) (w.operands table nested chain e)
      (((e.movedTo target).flatten chain).map Expr.leftGrouped) := by
  induction h generalizing chain with
  | @leaf name e hname hleaf =>
    obtain ⟨condition, text, htells⟩ := hleaf.tells w
    have hwrites : (Part.ofEvents (w.leaf table e)).Writes (conditionElement name condition text) := by
      intro seen
      rw [Part.ofEvents, htells.written]
      rfl
    have hgathers := gathers_conditionElement hname fun q => htells.read q target
    rw [← hleaf.leftGrouped target] at hgathers
    have hspeaks := speaks_of_writes w (.leaf hname hleaf) hwrites hgathers
    cases hleaf <;> exact hspeaks
  | @not e h ih =>
    obtain ⟨events, hwrites, hgathers⟩ := exists_writes_conjunction nested (ih .and)
    have hcombined : combined .not (((e.movedTo target).flatten .and).map Expr.leftGrouped)
        = some (Expr.not (e.movedTo target)).leftGrouped := by
      rw [combined, Expr.allOf, Expr.joinAll_flatten]
      rfl
    exact speaks_of_writes w h.not (hwrites.within "not") (hgathers.combination .not hcombined)
  | @logical op l r hl hr ihl ihr =>
    have hinner : List.Forall₂ (Speaks w table target)
        (w.operands table nested op l ++ w.operands table nested op r)
        (((Expr.movedTo target (.logical op l r)).flatten op).map Expr.leftGrouped) := by
      rw [Expr.movedTo, Expr.withoutTables, Expr.mapTables, Expr.flatten, if_pos rfl, List.map_append]
      exact List.rel_append (ihl op) (ihr op)
    by_cases hop : op = chain
    · unfold Writer.operands
      rw [← hop, if_pos rfl]
      exact hinner
    · have hflat : (Expr.movedTo target (.logical op l r)).flatten chain = [Expr.movedTo target (.logical op l r)] := by
        rw [Expr.movedTo, Expr.withoutTables, Expr.mapTables, Expr.flatten, if_neg hop]
      have hjoined := Expr.joinAll_flatten op (Expr.movedTo target (.logical op l r))
      unfold Writer.operands
      rw [hflat, if_neg hop]
      cases op with
      | and =>
        obtain ⟨events, hwrites, hgathers⟩ := exists_writes_conjunction nested hinner
        exact speaks_of_writes w (hl.logical .and hr) (hwrites.within "and") (hgathers.combination .and hjoined)
      | or =>
        obtain ⟨events, hwrites, hgathers⟩ := exists_writes_disjunction nested hinner
        exact speaks_of_writes w (hl.logical .or hr) (hwrites.within "or") (hgathers.combination .or hjoined)

end ItemQuery.Aml
