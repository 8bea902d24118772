import ItemQuery.Proofs.Aml.Conveyed
import ItemQuery.Proofs.Aml.Visits

/-! Where criteria and filters come to stand. An item conveys the criteria that led to it and the filters of all tables
    that come up in it. By induction over the depth of items: the operands of a conjunction are conveyed one after the
    other, those behind one foreign key together; inside of an alternative or an opposite no filter comes up. -/

namespace ItemQuery

namespace Expr

variable {e : Expr}

theorem tableRefs_of_isMute (h : e.isMute = true) : e.tableRefs = [] := by
  fun_induction isMute e with
  | case1 b => rfl
  | case2 op l r ihl ihr =>
    rw [Bool.and_eq_true] at h
    rw [tableRefs, ihl h.1, ihr h.2]
    rfl
  | case3 => cases h

theorem mem_tableRefs_of_mem_flatten {op : LogicalOp} {x : Expr} {t : TableId} (hx : x ∈ e.flatten op)
    (ht : t ∈ x.tableRefs) : t ∈ e.tableRefs := by
  fun_induction flatten op e with
  | case1 l r ihl ihr =>
    rw [tableRefs, List.mem_append]
    exact (List.mem_append.mp hx).imp ihl ihr
  | case2 inner l r => rwa [List.mem_singleton.mp hx] at ht
  | case3 e => rwa [List.mem_singleton.mp hx] at ht

end Expr

namespace Aml

open Query

/-! ### Sayable criteria -/

/-- Criteria of which nothing is lost although nothing is written for a truth: the opposite is not one of a truth,
    and alternatives are all of them truths or none. -/
def Sayable (P : Expr → Prop) : Expr → Prop
  | .logical op l r => Sayable P l ∧ Sayable P r ∧ (op = .or → l.isMute = r.isMute)
  | .not e => Sayable P e ∧ e.isMute = false
  | e => P e

theorem Sayable.isMute_of_mem_flatten {P : Expr → Prop} {e x : Expr} (h : Sayable P e) (hx : x ∈ e.flatten .or) :
    x.isMute = e.isMute := by
  fun_induction Expr.flatten .or e with
  | case1 l r ihl ihr =>
    rw [Sayable] at h
    have hsame := h.2.2 rfl
    rw [Expr.isMute]
    rcases List.mem_append.mp hx with hx | hx
    · rw [ihl h.1 hx, hsame, Bool.and_self]
    · rw [ihr h.2.1 hx, hsame, Bool.and_self]
  | case2 inner l r => rw [List.mem_singleton.mp hx]
  | case3 e => rw [List.mem_singleton.mp hx]

theorem Keeps.isMute_eq_false {q : Query} {e : Expr} {c : TableId} (h : Keeps q e c) : e.isMute = false := by
  obtain ⟨t, ht, -⟩ := h.touches
  rw [← Bool.not_eq_true]
  intro hmute
  rw [Expr.tableRefs_of_isMute hmute] at ht
  cases ht

/-- What is conveyed of a criterion. -/
noncomputable def meanings (e : Expr) : List Meaning :=
  if e.isMute then [] else [fun I v => e.truth I v]

theorem meanings_of_isMute {e : Expr} (h : e.isMute = true) : meanings e = [] :=
  if_pos h

theorem meanings_of_not_isMute {e : Expr} (h : e.isMute = false) : meanings e = [fun I v => e.truth I v] :=
  if_neg (by simp [h])

/-- The truth of all of these meanings. -/
def Meaning.all (Ts : List Meaning) : Meaning :=
  Meaning.chain .and Ts

section
variable {I : Interpretation} {v : Valuation} {Ts Us : List Meaning}

theorem Meaning.all_append : Meaning.all (Ts ++ Us) I v = (Meaning.all Ts I v).and (Meaning.all Us I v) := by
  rw [all, chain, List.map_append]
  exact Truth.all_append

theorem Meaning.all_combined : Meaning.all (Meaning.combined .and Ts) I v = Meaning.all Ts I v := by
  unfold combined
  split
  next hempty => rw [List.isEmpty_iff.mp hempty]
  next => exact Truth.and_true _

theorem Meaning.all_meanings (e : Expr) : Meaning.all (meanings e) I v = e.truth I v := by
  cases h : e.isMute with
  | false =>
    rw [meanings_of_not_isMute h]
    exact Truth.and_true _
  | true =>
    rw [meanings_of_isMute h, Expr.truth_of_isMute h]
    rfl

/-- All filters of these tables. -/
noncomputable def filters (q : Query) (ids : List TableId) : Meaning :=
  fun I v => .all (ids.map fun id => Expr.filterTruth I v (q.filterOf id))

/-- All of these criteria. -/
noncomputable def criteria (es : List Expr) : Meaning :=
  fun I v => .all (es.map (Expr.truth I v))

theorem filters_append (q : Query) (ids ids' : List TableId) :
    filters q (ids ++ ids') I v = (filters q ids I v).and (filters q ids' I v) := by
  rw [filters, List.map_append]
  exact Truth.all_append

theorem criteria_append (es es' : List Expr) : criteria (es ++ es') I v = (criteria es I v).and (criteria es' I v) := by
  rw [criteria, List.map_append]
  exact Truth.all_append

theorem filters_of_forall {q : Query} {ids : List TableId} (h : ∀ id ∈ ids, q.filterOf id = none) :
    filters q ids I v = some true := by
  refine Truth.all_eq_true.mpr (List.forall_mem_map.mpr fun id hid => ?_)
  rw [h id hid]
  rfl

theorem criteria_congr {es es' : List Expr} (h : ∀ e, e ∈ es ↔ e ∈ es') : criteria es I v = criteria es' I v := by
  refine Truth.all_congr fun t _ => ?_
  simp only [List.mem_map, h]

theorem criteria_flatten (es : List Expr) : criteria (es.flatMap (Expr.flatten .and)) I v = criteria es I v := by
  induction es with
  | nil => rfl
  | cons e es ih =>
    rw [List.flatMap_cons, criteria_append, ih]
    exact congrArg (Truth.and · _) (Expr.truth_flatten .and e)

end

section
variable {w : Writer} {V : Interpretation → Valuation → Prop} {table : TableId} {es : List Xml.Event} {Ts Us : List Meaning}

/-- Meanings matter for the rows and values in question only. -/
theorem Conveys.congr (h : Conveys w V table es Ts)
    (heq : List.Forall₂ (fun T U => ∀ I v, V I v → T I v = U I v) Ts Us) : Conveys w V table es Us := by
  intro r q target outer frame criteria hframe hr hgrown hlive hpath
  obtain ⟨r', q', found, hrun, hr', hdeep, hsaid⟩ := h r q target outer frame criteria hframe hr hgrown hlive hpath
  refine ⟨r', q', found, hrun, hr', hdeep, ?_⟩
  clear hrun hr' h
  induction hsaid generalizing Us with
  | nil => cases heq; exact .nil
  | cons hfirst _ ih =>
    cases heq with
    | cons heqFirst heqRest =>
      obtain ⟨x, hx, htruth⟩ := hfirst
      refine .cons ⟨x, hx, fun I v v' hV hagree => ?_⟩ (ih heqRest)
      rw [htruth I v v' hV hagree, heqFirst I v hV]

theorem Conveys.one {T : Meaning} {e : Expr} (h : Conveys w V table es [T]) (hloud : e.isMute = false)
    (htruth : ∀ I v, V I v → T I v = e.truth I v) : Conveys w V table es (meanings e) := by
  rw [meanings_of_not_isMute hloud]
  exact h.congr (.cons htruth .nil)

end

/-! ### Parts -/

/-- The part of a criterion conveys it, and no filter comes up in it, if all filters of the tables that it is about are
    written. -/
def Delivers (w : Writer) (V : Interpretation → Valuation → Prop) (table : TableId) (operand : Writer.Operand) : Prop :=
  ∀ seen es seen', operand.2 seen = .ok (es, seen') → Settled w.query seen table →
    (∀ b, w.query.Below table b → Touches w.query operand.1 b → Done w.query seen b) →
    ∃ new, seen' = new ++ seen ∧ Visits w.query table seen new ∧ (∀ b ∈ new, w.query.filterOf b = none) ∧
      Conveys w V table es (meanings operand.1)

/-- The events convey these criteria on the table together with the filters of all tables that come up. -/
structure Placed (w : Writer) (V : Interpretation → Valuation → Prop) (table : TableId) (seen new : List TableId)
    (es : List Xml.Event) (Ts : List Meaning) (terms : List Expr) : Prop where
  visits : Visits w.query table seen new
  conveys : Conveys w V table es Ts
  truth : ∀ I v, V I v → Meaning.all Ts I v = (criteria terms I v).and (filters w.query new I v)
  mute : Ts = [] → ∀ e ∈ terms, e.isMute = true

/-- What is written for criteria behind a foreign key is one criterion at most, and no filter behind the key is left
    out. -/
def DeliversNested (w : Writer) (V : Interpretation → Valuation → Prop) (P : Expr → Prop) (table : TableId)
    (nested : Writer.Nested) : Prop :=
  ∀ child terms ready seen es seen', nested child terms seen = .ok (es, seen') → child ∈ w.query.keyed table →
    (∀ e ∈ terms, Keeps w.query e child ∧ Sayable P e) →
    Confined w.query ready (terms.flatMap (Expr.flatten .and)) →
    (∀ b, w.query.Below table b → ready b → Done w.query seen b) →
    Arrived w.query seen (terms.flatMap (Expr.flatten .and)) child → Settled w.query seen table →
    ∃ new Ts, seen' = new ++ seen ∧ Placed w V table seen new es Ts terms ∧ Ts.length ≤ 1 ∧
      (∀ b ∈ new, w.query.Behind child b) ∧ Done w.query seen' child

section
variable {w : Writer} {V : Interpretation → Valuation → Prop} {table : TableId} {seen new new' : List TableId}
  {es es' : List Xml.Event} {Ts Us : List Meaning} {terms terms' : List Expr}

theorem placed_nil (h : Settled w.query seen table) : Placed w V table seen [] [] [] [] :=
  ⟨visits_nil h, conveys_nil, fun _ _ _ => rfl, nofun⟩

theorem Placed.append (h : Placed w V table seen new es Ts terms) (h' : Placed w V table (new ++ seen) new' es' Us terms') :
    Placed w V table seen (new' ++ new) (es ++ es') (Ts ++ Us) (terms ++ terms') := by
  refine ⟨h.visits.append h'.visits, h.conveys.append h'.conveys, fun I v hV => ?_, fun hnil => ?_⟩
  · rw [Meaning.all_append, h.truth I v hV, h'.truth I v hV, Truth.and_and_and_comm, criteria_append, filters_append]
    exact congrArg _ (Truth.and_comm _ _)
  · obtain ⟨hTs, hUs⟩ := List.append_eq_nil_iff.mp hnil
    exact List.forall_mem_append.mpr ⟨h.mute hTs, h'.mute hUs⟩

theorem Placed.congr (h : Placed w V table seen new es Ts terms) (heq : ∀ e, e ∈ terms ↔ e ∈ terms') :
    Placed w V table seen new es Ts terms' := by
  refine ⟨h.visits, h.conveys, fun I v hV => ?_, fun hnil e he => h.mute hnil e ((heq e).mpr he)⟩
  rw [h.truth I v hV, criteria_congr heq]

/-- A criterion alone, without a filter. -/
theorem Placed.of_conveys {e : Expr} (hvisits : Visits w.query table seen new)
    (hfilters : ∀ b ∈ new, w.query.filterOf b = none) (hconveys : Conveys w V table es (meanings e)) :
    Placed w V table seen new es (meanings e) [e] := by
  refine ⟨hvisits, hconveys, fun I v _ => ?_, fun hnil => ?_⟩
  · rw [Meaning.all_meanings, filters_of_forall hfilters, Truth.and_true]
    exact (Truth.and_true _).symm
  · cases hmute : e.isMute with
    | true => simpa using hmute
    | false => rw [meanings_of_not_isMute hmute] at hnil; cases hnil

end

theorem Placed.conveys_one {w : Writer} {V : Interpretation → Valuation → Prop} {table : TableId}
    {seen new : List TableId} {es : List Xml.Event} {Ts : List Meaning} {e : Expr}
    (h : Placed w V table seen new es Ts [e]) (hlength : Ts.length ≤ 1) (hfilters : ∀ b ∈ new, w.query.filterOf b = none)
    (hloud : e.isMute = false) : Conveys w V table es (meanings e) := by
  cases Ts with
  | nil =>
    have hmute := h.mute rfl e List.mem_cons_self
    rw [hloud] at hmute
    cases hmute
  | cons T Ts =>
    obtain rfl : Ts = [] := List.length_eq_zero_iff.mp (Nat.le_zero.mp (Nat.le_of_succ_le_succ hlength))
    refine h.conveys.one hloud fun I v hV => ?_
    have htruth := h.truth I v hV
    rw [filters_of_forall hfilters, Truth.and_true] at htruth
    simpa [Meaning.all, Meaning.chain, Truth.chain, criteria] using htruth

theorem Part.all_cons_eq_ok {part : Part} {parts : List Part} {seen seen' : List TableId} {es : List Xml.Event} :
    Part.all (part :: parts) seen = .ok (es, seen') ↔ ∃ first mid rest, part seen = .ok (first, mid) ∧
      Part.all parts mid = .ok (rest, seen') ∧ es = first ++ rest := by
  rw [Part.all]
  simp only [Result.bind_eq_ok, Result.pure_eq_ok, Prod.exists, Prod.mk.injEq]
  constructor
  · rintro ⟨first, mid, hfirst, rest, _, hrest, rfl, rfl⟩
    exact ⟨first, mid, rest, hfirst, hrest, rfl⟩
  · rintro ⟨first, mid, rest, hfirst, hrest, rfl⟩
    exact ⟨first, mid, hfirst, rest, seen', hrest, rfl, rfl⟩

theorem Part.within_eq_ok {part : Part} {name : String} {seen seen' : List TableId} {es : List Xml.Event} :
    Part.within name part seen = .ok (es, seen') ↔ ∃ inner, part seen = .ok (inner, seen') ∧
      es = Xml.Event.element name inner := by
  rw [Part.within, Result.map_eq_ok]
  simp only [Prod.exists, Prod.mk.injEq]
  constructor
  · rintro ⟨inner, _, hinner, rfl, rfl⟩
    exact ⟨inner, hinner, rfl⟩
  · rintro ⟨inner, hinner, rfl⟩
    exact ⟨inner, seen', hinner, rfl, rfl⟩

/-! ### Conjunctions -/

/-- An operand of a conjunction on the table. -/
structure Operates (w : Writer) (V : Interpretation → Valuation → Prop) (P : Expr → Prop) (table : TableId)
    (o : Writer.Operand) : Prop where
  delivers : Delivers w V table o
  sayable : Sayable P o.1
  flat : o.1.flatten .and = [o.1]
  behind : ∀ t ∈ o.1.tableRefs, w.query.Behind table t

/-- The criteria of a conjunction that lead behind this foreign key. -/
def termsBehind (w : Writer) (table : TableId) (operands : List Writer.Operand) (c : TableId) : List Expr :=
  (operands.map (·.1)).filter fun e => w.hop? table e == some c

/-- What holds while a conjunction is written, when the operands of `rest` are left and the tables of `done` have their
    part. -/
structure Ahead (w : Writer) (V : Interpretation → Valuation → Prop) (P : Expr → Prop) (table : TableId)
    (all rest : List Writer.Operand) (done seen : List TableId) (ready : TableId → Prop) : Prop where
  operands : ∀ o ∈ rest, Operates w V P table o
  pending : ∀ c ∉ done, termsBehind w table all c = termsBehind w table rest c
  confined : Confined w.query ready (rest.map (·.1))
  ready : ∀ b, w.query.Below table b → ready b → Done w.query seen b
  arrived : ∀ e ∈ rest.map (·.1), ∀ c, w.hop? table e = some c → Arrived w.query seen (all.map (·.1)) c
  done : ∀ c ∈ done, Done w.query seen c
  settled : Settled w.query seen table

/-- The outcome: what is left is placed, apart from what stands in a part already. -/
structure Conjoined (w : Writer) (V : Interpretation → Valuation → Prop) (table : TableId) (rest : List Writer.Operand)
    (done seen new : List TableId) (es : List Xml.Event) (Ts : List Meaning) (covered : List Expr) : Prop where
  placed : Placed w V table seen new es Ts covered
  sub : ∀ e ∈ covered, e ∈ rest.map (·.1)
  cover : ∀ e ∈ rest.map (·.1), e ∈ covered ∨ ∃ c ∈ done, w.hop? table e = some c
  origin : ∀ b ∈ new, w.query.filterOf b = none ∨
    ∃ e ∈ rest.map (·.1), ∃ c, w.hop? table e = some c ∧ w.query.Behind c b
  visited : ∀ e ∈ rest.map (·.1), ∀ c, w.hop? table e = some c → Done w.query (new ++ seen) c
  quiet : (∀ e ∈ rest.map (·.1), e.isMute = true) → Ts = []

section
variable {w : Writer} {V : Interpretation → Valuation → Prop} {P : Expr → Prop} {table c : TableId}
  {nested : Writer.Nested} {all rest : List Writer.Operand} {o : Writer.Operand} {done seen new new' : List TableId}
  {ready : TableId → Prop} {es es' : List Xml.Event} {Ts Us : List Meaning} {covered : List Expr}

theorem termsBehind_cons_of_ne (h : w.hop? table o.1 ≠ some c) :
    termsBehind w table (o :: rest) c = termsBehind w table rest c := by
  rw [termsBehind, List.map_cons, List.filter_cons_of_neg (by simpa using h)]
  rfl

theorem mem_termsBehind {e : Expr} :
    e ∈ termsBehind w table rest c ↔ e ∈ rest.map (·.1) ∧ w.hop? table e = some c := by
  rw [termsBehind, List.mem_filter, beq_iff_eq]

/-- The next operand stays on the table. -/
theorem Ahead.operand (h : Ahead w V P table all (o :: rest) done seen ready) (hhop : w.hop? table o.1 = none)
    (hnot : ∀ b, w.query.Below table b → ¬Keeps w.query o.1 b) (hvisits : Visits w.query table seen new) :
    Ahead w V P table all rest done (new ++ seen) fun b => ready b ∨ Keeps w.query o.1 b where
  operands other hother := h.operands other (List.mem_cons_of_mem o hother)
  pending c hc := (h.pending c hc).trans (termsBehind_cons_of_ne (by simp [hhop]))
  confined := h.confined.2
  ready b hb := Or.rec (fun hready => (h.ready b hb hready).append new) fun hkeeps => absurd hkeeps (hnot b hb)
  arrived e he c hc := (h.arrived e (List.mem_cons_of_mem _ he) c hc).append new
  done c hc := (h.done c hc).append new
  settled := hvisits.settled

/-- The next operand stands in the part of its foreign key, which comes now or has come before. -/
theorem Ahead.child {done' : List TableId} (h : Ahead w V P table all (o :: rest) done seen ready)
    (hhop : w.hop? table o.1 = some c) (hkept : ∀ b, w.query.Below table b → Keeps w.query o.1 b → w.query.Behind c b)
    (hdone' : ∀ d, d ∈ done' ↔ d = c ∨ d ∈ done) (hdone : Done w.query (new ++ seen) c)
    (hsettled : Settled w.query (new ++ seen) table) :
    Ahead w V P table all rest done' (new ++ seen) fun b => ready b ∨ Keeps w.query o.1 b where
  operands other hother := h.operands other (List.mem_cons_of_mem o hother)
  pending d hd := by
    obtain ⟨hne, hd⟩ := not_or.mp ((hdone' d).not.mp hd)
    exact (h.pending d hd).trans (termsBehind_cons_of_ne (by simpa [hhop] using Ne.symm hne))
  confined := h.confined.2
  ready b hb := Or.rec (fun hready => (h.ready b hb hready).append new) fun hkeeps => hdone.of_behind (hkept b hb hkeeps)
  arrived e he c hc := (h.arrived e (List.mem_cons_of_mem _ he) c hc).append new
  done d hd := by
    rcases (hdone' d).mp hd with rfl | hd
    · exact hdone
    · exact (h.done d hd).append new
  settled := hsettled

theorem Conjoined.operand (h : Conjoined w V table rest done (new ++ seen) new' es' Us covered)
    (hhop : w.hop? table o.1 = none) (hvisits : Visits w.query table seen new)
    (hfilters : ∀ b ∈ new, w.query.filterOf b = none)
    (hconveys : Conveys w V table es (meanings o.1)) :
    Conjoined w V table (o :: rest) done seen (new' ++ new) (es ++ es') (meanings o.1 ++ Us) (o.1 :: covered) where
  placed := (Placed.of_conveys hvisits hfilters hconveys).append h.placed
  sub := List.forall_mem_cons.mpr ⟨List.mem_cons_self, fun x hx => List.mem_cons_of_mem _ (h.sub x hx)⟩
  cover := List.forall_mem_cons.mpr ⟨.inl List.mem_cons_self, fun x hx => (h.cover x hx).imp_left (List.mem_cons_of_mem _)⟩
  origin := by
    refine List.forall_mem_append.mpr ⟨fun b hb => ?_, fun b hb => .inl (hfilters b hb)⟩
    exact (h.origin b hb).imp_right fun ⟨x, hx, hway⟩ => ⟨x, List.mem_cons_of_mem _ hx, hway⟩
  visited := by
    rw [List.append_assoc]
    refine List.forall_mem_cons.mpr ⟨fun c hc => ?_, h.visited⟩
    cases hhop.symm.trans hc
  quiet hmute := by
    obtain ⟨hfirst, hrest⟩ := List.forall_mem_cons.mp hmute
    rw [meanings_of_isMute hfirst, h.quiet hrest]
    rfl

theorem Conjoined.skip (h : Conjoined w V table rest done seen new es Ts covered) (hc : c ∈ done)
    (hhop : w.hop? table o.1 = some c) (hdone : Done w.query seen c) (hloud : o.1.isMute = false) :
    Conjoined w V table (o :: rest) done seen new es Ts covered where
  placed := h.placed
  sub x hx := List.mem_cons_of_mem _ (h.sub x hx)
  cover := List.forall_mem_cons.mpr ⟨.inr ⟨c, hc, hhop⟩, h.cover⟩
  origin b hb := (h.origin b hb).imp_right fun ⟨x, hx, hway⟩ => ⟨x, List.mem_cons_of_mem _ hx, hway⟩
  visited := by
    refine List.forall_mem_cons.mpr ⟨fun d hd => ?_, h.visited⟩
    cases hhop.symm.trans hd
    exact hdone.append new
  quiet hmute := absurd (hmute _ List.mem_cons_self) (by simp [hloud])

theorem Conjoined.child (h : Conjoined w V table rest (c :: done) (new ++ seen) new' es' Us covered)
    (hhop : w.hop? table o.1 = some c) (hloud : o.1.isMute = false)
    (hplaced : Placed w V table seen new es Ts (termsBehind w table (o :: rest) c))
    (hbehind : ∀ b ∈ new, w.query.Behind c b) (hdone : Done w.query (new ++ seen) c) :
    Conjoined w V table (o :: rest) done seen (new' ++ new) (es ++ es') (Ts ++ Us)
      (termsBehind w table (o :: rest) c ++ covered) where
  placed := hplaced.append h.placed
  sub := by
    refine List.forall_mem_append.mpr ⟨fun x hx => (mem_termsBehind.mp hx).1, fun x hx => ?_⟩
    exact List.mem_cons_of_mem _ (h.sub x hx)
  cover x hx := by
    by_cases hway : w.hop? table x = some c
    · exact .inl (List.mem_append_left _ (mem_termsBehind.mpr ⟨hx, hway⟩))
    · rcases List.mem_cons.mp hx with rfl | hx
      · exact absurd hhop hway
      · refine (h.cover x hx).imp (List.mem_append_right _) ?_
        rintro ⟨d, hd, hway'⟩
        refine ⟨d, (List.mem_cons.mp hd).resolve_left ?_, hway'⟩
        rintro rfl
        exact hway hway'
  origin := by
    refine List.forall_mem_append.mpr ⟨fun b hb => ?_, fun b hb => .inr ⟨o.1, List.mem_cons_self, c, hhop, hbehind b hb⟩⟩
    exact (h.origin b hb).imp_right fun ⟨x, hx, hway⟩ => ⟨x, List.mem_cons_of_mem _ hx, hway⟩
  visited := by
    rw [List.append_assoc]
    refine List.forall_mem_cons.mpr ⟨fun d hd => ?_, h.visited⟩
    cases hhop.symm.trans hd
    exact hdone.append new'
  quiet hmute := absurd (hmute _ List.mem_cons_self) (by simp [hloud])

end

section
variable {w : Writer} {V : Interpretation → Valuation → Prop} {P : Expr → Prop} {table c : TableId}
  {nested : Writer.Nested} (htree : w.query.KeyTree)
include htree

/-- What keeps to a table below another one is reached through the foreign key towards it. -/
theorem exists_hop? {e : Expr} {b : TableId} (hb : w.query.Below table b) (he : Keeps w.query e b) :
    ∃ c, w.hop? table e = some c ∧ w.query.Behind c b := by
  obtain ⟨c, hc, hcb⟩ := hb
  exact ⟨c, (hop?_eq_some htree).mpr ⟨hc, he.of_behind hcb⟩, hcb⟩

/-- The part of a foreign key. -/
theorem Ahead.exists_placed {all rest : List Writer.Operand} {done seen mid : List TableId} {ready : TableId → Prop}
    {es : List Xml.Event} (h : Ahead w V P table all rest done seen ready) (hnested : DeliversNested w V P table nested)
    (hc : c ∈ w.query.keyed table) (hpending : termsBehind w table all c = termsBehind w table rest c)
    (harrived : Arrived w.query seen (all.map (·.1)) c)
    (hwritten : nested c (termsBehind w table rest c) seen = .ok (es, mid)) :
    ∃ new Ts, mid = new ++ seen ∧ Placed w V table seen new es Ts (termsBehind w table rest c) ∧
      (∀ b ∈ new, w.query.Behind c b) ∧ Done w.query mid c := by
  have hterms : ∀ x ∈ termsBehind w table rest c, Keeps w.query x c ∧ Sayable P x ∧ x.flatten .and = [x] := by
    intro x hx
    obtain ⟨hmem, hhop⟩ := mem_termsBehind.mp hx
    obtain ⟨o, ho, rfl⟩ := List.mem_map.mp hmem
    exact ⟨((hop?_eq_some htree).mp hhop).2, (h.operands o ho).sayable, (h.operands o ho).flat⟩
  have hflat : (termsBehind w table rest c).flatMap (Expr.flatten .and) = termsBehind w table rest c := by
    rw [List.flatMap_congr fun x hx => (hterms x hx).2.2]
    exact List.flatMap_singleton' _
  have hconfined : Confined w.query ready (termsBehind w table rest c) :=
    h.confined.filter htree fun x => by rw [beq_iff_eq, hop?_eq_some htree]; exact and_iff_right hc
  have harrived' : Arrived w.query seen (termsBehind w table rest c) c := fun a f hac hf x hx hkeeps => by
    rw [← hpending]
    exact (harrived a f hac hf x hx hkeeps).imp_left fun hmem =>
      mem_termsBehind.mpr ⟨hmem, (hop?_eq_some htree).mpr ⟨hc, hkeeps⟩⟩
  obtain ⟨new, Ts, hmid, hplaced, -, hbehind, hdone⟩ := hnested c _ ready seen es mid hwritten hc
    (fun x hx => ⟨(hterms x hx).1, (hterms x hx).2.1⟩) (hflat.symm ▸ hconfined) h.ready (hflat.symm ▸ harrived') h.settled
  exact ⟨new, Ts, hmid, hplaced, hbehind, hdone⟩

/-- All filters that could come up in an operand that stays on the table are written. -/
theorem Ahead.touched {all rest : List Writer.Operand} {o : Writer.Operand} {done seen : List TableId}
    {ready : TableId → Prop} (h : Ahead w V P table all (o :: rest) done seen ready) {b : TableId}
    (hb : w.query.Below table b) (hnot : ¬Keeps w.query o.1 b) (htouches : Touches w.query o.1 b) :
    Done w.query seen b := by
  obtain ⟨a, hab, hnotKeeps, hready⟩ := (h.confined.1 b htouches).resolve_left hnot
  have hkeeps : Keeps w.query o.1 table :=
    ⟨htouches.of_behind (behind_of_below hb), (h.operands o List.mem_cons_self).behind⟩
  have hbelow : w.query.Below table a := by
    rcases htree.behind_total (behind_of_below hb) hab with hta | hat
    · exact (eq_or_below_of_behind hta).resolve_left fun heq => hnotKeeps (heq ▸ hkeeps)
    · exact absurd (hkeeps.of_behind hat) hnotKeeps
  exact (h.ready a hbelow hready).of_behind hab

/-- The parts of a conjunction, by induction over the operands that are left. -/
theorem exists_conjoined (hnested : DeliversNested w V P table nested) {all rest : List Writer.Operand}
    {done seen seen' : List TableId} {ready : TableId → Prop} {es : List Xml.Event}
    (hwritten : Part.all (w.conjunctionParts table nested all done rest) seen = .ok (es, seen'))
    (h : Ahead w V P table all rest done seen ready) :
    ∃ new Ts covered, seen' = new ++ seen ∧ Conjoined w V table rest done seen new es Ts covered := by
  induction rest generalizing done seen ready es with
  | nil =>
    cases hwritten
    exact ⟨[], [], [], rfl, placed_nil h.settled, nofun, nofun, nofun, nofun, fun _ => rfl⟩
  | cons o rest ih =>
    obtain ⟨e, part⟩ := o
    rw [Writer.conjunctionParts] at hwritten
    cases hhop : w.hop? table e with
    | none =>
      simp only [hhop] at hwritten
      obtain ⟨first, mid, later, hfirst, hlater, rfl⟩ := Part.all_cons_eq_ok.mp hwritten
      have hnot : ∀ b, w.query.Below table b → ¬Keeps w.query e b := by
        intro b hb hkeeps
        obtain ⟨c, hc, -⟩ := exists_hop? htree hb hkeeps
        cases hhop.symm.trans hc
      obtain ⟨new, rfl, hvisits, hfilters, hconveys⟩ := (h.operands _ List.mem_cons_self).delivers seen first mid hfirst
        h.settled fun b hb => h.touched htree hb (hnot b hb)
      obtain ⟨new', Us, covered, rfl, hrest⟩ := ih hlater (h.operand hhop hnot hvisits)
      exact ⟨_, _, _, (List.append_assoc _ _ _).symm, hrest.operand (o := (e, part)) hhop hvisits hfilters hconveys⟩
    | some c =>
      have hkept : ∀ b, w.query.Below table b → Keeps w.query e b → w.query.Behind c b := by
        intro b hb hkeeps
        obtain ⟨d, hd, hdb⟩ := exists_hop? htree hb hkeeps
        obtain rfl : c = d := Option.some.inj (hhop.symm.trans hd)
        exact hdb
      obtain ⟨hc, hkeeps⟩ := (hop?_eq_some htree).mp hhop
      simp only [hhop] at hwritten
      split at hwritten
      next hmem =>
        rw [List.contains_iff_mem] at hmem
        have hahead : Ahead w V P table all rest done ([] ++ seen) fun b => ready b ∨ Keeps w.query e b :=
          h.child hhop hkept (fun d => ⟨.inr, Or.rec (fun heq => heq ▸ hmem) id⟩) (h.done c hmem) h.settled
        obtain ⟨new, Ts, covered, rfl, hrest⟩ := ih hwritten hahead
        exact ⟨new, Ts, covered, rfl, hrest.skip hmem hhop (h.done c hmem) hkeeps.isMute_eq_false⟩
      next hmem =>
        rw [List.contains_iff_mem] at hmem
        obtain ⟨first, mid, later, hfirst, hlater, rfl⟩ := Part.all_cons_eq_ok.mp hwritten
        have hpending := h.pending c hmem
        have hterms := hpending
        rw [termsBehind] at hterms
        rw [hterms] at hfirst
        obtain ⟨new, Ts, rfl, hplaced, hbehind, hdone⟩ :=
          h.exists_placed htree hnested hc hpending (h.arrived e List.mem_cons_self c hhop) hfirst
        obtain ⟨new', Us, covered, rfl, hrest⟩ := ih hlater
          (h.child hhop hkept (fun _ => List.mem_cons) hdone hplaced.visits.settled)
        exact ⟨_, _, _, (List.append_assoc _ _ _).symm,
          hrest.child (o := (e, part)) hhop hkeeps.isMute_eq_false hplaced hbehind hdone⟩

/-- Criteria about `a` and what stands behind it, when all filters below `a` that they touch are written. -/
theorem confined_of_done {a : TableId} {seen : List TableId} {terms : List Expr}
    (hbehind : ∀ e ∈ terms, ∀ t ∈ e.tableRefs, w.query.Behind a t)
    (hdone : ∀ e ∈ terms, ∀ b, w.query.Below a b → Touches w.query e b → Done w.query seen b) :
    Confined w.query (Done w.query seen) terms := by
  refine confined_of_forall fun e he b htouches => ?_
  have hkeeps : Keeps w.query e a := by
    obtain ⟨t, ht, -⟩ := htouches
    exact ⟨⟨t, ht, hbehind e he t ht⟩, hbehind e he⟩
  rcases hkeeps.behind_or_keeps htree htouches with hab | hb
  · rcases eq_or_below_of_behind hab with rfl | hbelow
    · exact .inl hkeeps
    · exact .inr (hdone e he b hbelow htouches)
  · exact .inl hb

theorem exists_conjoined_operands (hnested : DeliversNested w V P table nested) {operands : List Writer.Operand}
    {seen seen' : List TableId} {ready : TableId → Prop} {es : List Xml.Event}
    (hwritten : w.conjunction table nested operands seen = .ok (es, seen'))
    (hoperands : ∀ o ∈ operands, Operates w V P table o) (hconfined : Confined w.query ready (operands.map (·.1)))
    (hready : ∀ b, w.query.Below table b → ready b → Done w.query seen b)
    (harrived : ∀ e ∈ operands.map (·.1), ∀ c, w.hop? table e = some c → Arrived w.query seen (operands.map (·.1)) c)
    (hsettled : Settled w.query seen table) :
    ∃ new Ts, seen' = new ++ seen ∧ Conjoined w V table operands [] seen new es Ts (operands.map (·.1)) := by
  obtain ⟨new, Ts, covered, hseen, h⟩ := exists_conjoined htree hnested hwritten
    ⟨hoperands, fun _ _ => rfl, hconfined, hready, harrived, nofun, hsettled⟩
  have hplaced : Placed w V table seen new es Ts (operands.map (·.1)) := h.placed.congr fun e =>
    ⟨h.sub e, fun he => (h.cover e he).resolve_right fun ⟨_, hc, _⟩ => List.not_mem_nil hc⟩
  exact ⟨new, Ts, hseen, hplaced, fun _ he => he, fun _ he => .inl he, h.origin, h.visited, h.quiet⟩

/-! ### Alternatives -/

/-- A criterion alone behind a foreign key whose filters are written. -/
theorem exists_conveys_child (hnested : DeliversNested w V P table nested) {e : Expr} {seen seen' : List TableId}
    {es : List Xml.Event} (hhop : w.hop? table e = some c) (hwritten : nested c [e] seen = .ok (es, seen'))
    (he : Sayable P e) (hdone : ∀ b, w.query.Below table b → Touches w.query e b → Done w.query seen b)
    (hsettled : Settled w.query seen table) :
    ∃ new, seen' = new ++ seen ∧ Visits w.query table seen new ∧ (∀ b ∈ new, w.query.filterOf b = none) ∧
      Conveys w V table es (meanings e) := by
  obtain ⟨hc, hkeeps⟩ := (hop?_eq_some htree).mp hhop
  have hconfined : Confined w.query (Done w.query seen) ([e].flatMap (Expr.flatten .and)) := by
    rw [List.flatMap_singleton]
    refine confined_of_done htree (a := c) (fun x hx t ht => ?_) fun x hx b hb htouches => ?_
    · exact hkeeps.behind t (Expr.mem_tableRefs_of_mem_flatten hx ht)
    · obtain ⟨t, ht, hbt⟩ := htouches
      exact hdone b ⟨c, hc, behind_of_below hb⟩ ⟨t, Expr.mem_tableRefs_of_mem_flatten hx ht, hbt⟩
  obtain ⟨new, Ts, hseen, hplaced, hlength, hbehind, -⟩ := hnested c [e] (Done w.query seen) seen es seen' hwritten hc
    (List.forall_mem_singleton.mpr ⟨hkeeps, he⟩) hconfined (fun _ _ h => h)
    (fun _ _ _ _ _ _ _ => .inr (hdone c ⟨c, hc, .refl⟩ hkeeps.touches)) hsettled
  have hfilters : ∀ b ∈ new, w.query.filterOf b = none := fun b hb =>
    hplaced.visits.filterOf_eq_none (hdone c ⟨c, hc, .refl⟩ hkeeps.touches) hb (hbehind b hb)
  exact ⟨new, hseen, hplaced.visits, hfilters, hplaced.conveys_one hlength hfilters hkeeps.isMute_eq_false⟩

theorem exists_conveys_disjunction (hnested : DeliversNested w V P table nested) {operands : List Writer.Operand}
    {seen seen' : List TableId} {es : List Xml.Event}
    (hwritten : w.disjunction table nested operands seen = .ok (es, seen'))
    (hoperands : ∀ o ∈ operands, Delivers w V table o ∧ Sayable P o.1)
    (hdone : ∀ o ∈ operands, ∀ b, w.query.Below table b → Touches w.query o.1 b → Done w.query seen b)
    (hsettled : Settled w.query seen table) :
    ∃ new, seen' = new ++ seen ∧ Visits w.query table seen new ∧ (∀ b ∈ new, w.query.filterOf b = none) ∧
      Conveys w V table es (operands.flatMap fun o => meanings o.1) := by
  unfold Writer.disjunction at hwritten
  induction operands generalizing seen es with
  | nil =>
    cases hwritten
    exact ⟨[], rfl, visits_nil hsettled, nofun, conveys_nil⟩
  | cons o operands ih =>
    rw [List.forall_mem_cons] at hoperands hdone
    obtain ⟨first, mid, later, hfirst, hlater, rfl⟩ := Part.all_cons_eq_ok.mp hwritten
    have hone : ∃ new, mid = new ++ seen ∧ Visits w.query table seen new ∧ (∀ b ∈ new, w.query.filterOf b = none) ∧
        Conveys w V table first (meanings o.1) := by
      cases hhop : w.hop? table o.1 with
      | none =>
        simp only [hhop] at hfirst
        exact hoperands.1.1 seen first mid hfirst hsettled hdone.1
      | some c =>
        simp only [hhop] at hfirst
        exact exists_conveys_child htree hnested hhop hfirst hoperands.1.2 hdone.1 hsettled
    obtain ⟨new, rfl, hvisits, hfilters, hconveys⟩ := hone
    obtain ⟨new', rfl, hvisits', hfilters', hconveys'⟩ := ih hlater hoperands.2
      (fun o ho b hb htouches => (hdone.2 o ho b hb htouches).append new) hvisits.settled
    refine ⟨new' ++ new, (List.append_assoc _ _ _).symm, hvisits.append hvisits', ?_, hconveys.append hconveys'⟩
    exact List.forall_mem_append.mpr ⟨hfilters', hfilters⟩

/-! ### Operands -/

omit htree in
theorem map_operands (nested : Writer.Nested) (chain : LogicalOp) (e : Expr) :
    (w.operands table nested chain e).map (·.1) = e.flatten chain := by
  fun_induction Writer.operands w table nested chain e with
  | case1 op l r inner ihl ihr =>
    rw [Expr.flatten, if_pos rfl, ← ihl, ← ihr]
    exact List.map_append
  | case2 chain op l r inner hne part =>
    rw [Expr.flatten, if_neg hne]
    rfl
  | case3 chain e => rfl
  | case4 chain e hlogical hnot =>
    cases e with
    | logical op l r => exact absurd rfl (hlogical op l r)
    | _ => rfl

omit htree in
/-- The operands of a conjunction are no conjunctions themselves. -/
theorem operates_operands {e : Expr} (h : ∀ o ∈ w.operands table nested .and e, Delivers w V table o ∧ Sayable P o.1)
    (htables : ∀ t ∈ e.tableRefs, w.query.Behind table t) :
    ∀ o ∈ w.operands table nested .and e, Operates w V P table o := by
  intro o ho
  have hmem : o.1 ∈ e.flatten .and := by
    rw [← map_operands nested .and e]
    exact List.mem_map_of_mem ho
  exact ⟨(h o ho).1, (h o ho).2, Expr.flatten_of_mem_flatten hmem, fun t ht =>
    htables t (Expr.mem_tableRefs_of_mem_flatten hmem ht)⟩

/-- A conjunction inside of a combination: all filters that could come up are written. -/
theorem exists_conveys_conjunction (hnested : DeliversNested w V P table nested) {e : Expr} {seen seen' : List TableId}
    {es : List Xml.Event}
    (hoperands : ∀ o ∈ w.operands table nested .and e, Operates w V P table o)
    (htables : ∀ t ∈ e.tableRefs, w.query.Behind table t)
    (hwritten : w.conjunction table nested (w.operands table nested .and e) seen = .ok (es, seen'))
    (hdone : ∀ b, w.query.Below table b → Touches w.query e b → Done w.query seen b)
    (hsettled : Settled w.query seen table) :
    ∃ new Ts, seen' = new ++ seen ∧ Visits w.query table seen new ∧ (∀ b ∈ new, w.query.filterOf b = none) ∧
      Conveys w V table es Ts ∧ (∀ I v, V I v → Meaning.all Ts I v = e.truth I v) ∧ (Ts = [] ↔ e.isMute = true) := by
  have htouches : ∀ x ∈ e.flatten .and, ∀ b, Touches w.query x b → Touches w.query e b := by
    rintro x hx b ⟨t, ht, hbt⟩
    exact ⟨t, Expr.mem_tableRefs_of_mem_flatten hx ht, hbt⟩
  have hconfined : Confined w.query (Done w.query seen) (e.flatten .and) := by
    refine confined_of_done htree (a := table) (fun x hx t ht => ?_) fun x hx b hb hx' => ?_
    · exact htables t (Expr.mem_tableRefs_of_mem_flatten hx ht)
    · exact hdone b hb (htouches x hx b hx')
  have harrived : ∀ x ∈ e.flatten .and, ∀ c, w.hop? table x = some c → Arrived w.query seen (e.flatten .and) c := by
    intro x hx c hhop _ _ _ _ _ _ _
    obtain ⟨hc, hkeeps⟩ := (hop?_eq_some htree).mp hhop
    exact .inr (hdone c ⟨c, hc, .refl⟩ (htouches x hx c hkeeps.touches))
  rw [← map_operands nested .and e] at hconfined harrived
  obtain ⟨new, Ts, hseen, hconjoined⟩ := exists_conjoined_operands htree hnested hwritten hoperands hconfined
    (fun _ _ h => h) harrived hsettled
  have hplaced := hconjoined.placed
  have hnew := hconjoined.origin
  have hquiet := hconjoined.quiet
  rw [map_operands] at hplaced hnew hquiet
  have hfilters : ∀ b ∈ new, w.query.filterOf b = none := by
    intro b hb
    rcases hnew b hb with hnone | ⟨x, hx, c, hhop, hcb⟩
    · exact hnone
    · obtain ⟨hc, hkeeps⟩ := (hop?_eq_some htree).mp hhop
      exact hplaced.visits.filterOf_eq_none (hdone c ⟨c, hc, .refl⟩ (htouches x hx c hkeeps.touches)) hb hcb
  refine ⟨new, Ts, hseen, hplaced.visits, hfilters, hplaced.conveys, fun I v hV => ?_, ?_⟩
  · rw [hplaced.truth I v hV, filters_of_forall hfilters, Truth.and_true]
    exact Expr.truth_flatten .and e
  · rw [Expr.isMute_iff_flatten .and]
    exact ⟨hplaced.mute, hquiet⟩

omit htree in
theorem Conveys.conjunction {e : Expr} {es : List Xml.Event} {Ts : List Meaning} (h : Conveys w V table es Ts)
    (htruth : ∀ I v, V I v → Meaning.all Ts I v = e.truth I v) (hmute : Ts = [] ↔ e.isMute = true) :
    Conveys w V table (Xml.Event.element "and" es) (meanings e) := by
  have hcombined := h.combination .and
  cases hloud : e.isMute with
  | true =>
    rw [hmute.mpr hloud] at hcombined
    rw [meanings_of_isMute hloud]
    exact hcombined
  | false =>
    have hne : ¬Ts.isEmpty = true := fun hempty => by simp [hmute.mp (List.isEmpty_iff.mp hempty)] at hloud
    rw [Meaning.combined, if_neg hne] at hcombined
    exact hcombined.one hloud htruth

omit htree in
theorem Conveys.opposite {e : Expr} {es : List Xml.Event} {Ts : List Meaning} (h : Conveys w V table es Ts)
    (htruth : ∀ I v, V I v → Meaning.all Ts I v = e.truth I v) (hne : Ts ≠ []) :
    Conveys w V table (Xml.Event.element "not" es) (meanings e.not) := by
  have hcombined := h.combination .not
  rw [Meaning.combined, if_neg (List.isEmpty_iff.not.mpr hne)] at hcombined
  refine hcombined.one rfl fun I v hV => ?_
  rw [Expr.truth_not, ← htruth I v hV]
  rfl

omit htree in
theorem Conveys.disjunction {e : Expr} (he : Sayable P e) {es : List Xml.Event}
    (h : Conveys w V table es ((e.flatten .or).flatMap meanings)) :
    Conveys w V table (Xml.Event.element "or" es) (meanings e) := by
  have hcombined := h.combination .or
  cases hloud : e.isMute with
  | true =>
    have hnil : (e.flatten .or).flatMap meanings = [] :=
      List.flatMap_eq_nil_iff.mpr fun x hx => meanings_of_isMute ((he.isMute_of_mem_flatten hx).trans hloud)
    rw [hnil] at hcombined
    rw [meanings_of_isMute hloud]
    exact hcombined
  | false =>
    have hmap : (e.flatten .or).flatMap meanings = (e.flatten .or).map fun x I v => x.truth I v := by
      rw [List.flatMap_congr fun x hx => meanings_of_not_isMute ((he.isMute_of_mem_flatten hx).trans hloud)]
      exact List.flatMap_pure_eq_map _ _
    have hne : ¬((e.flatten .or).map fun x I v => x.truth I v : List Meaning).isEmpty = true := by
      rw [List.isEmpty_iff, List.map_eq_nil_iff]
      exact Expr.flatten_ne_nil .or e
    rw [hmap, Meaning.combined, if_neg hne] at hcombined
    refine hcombined.one hloud fun I v hV => ?_
    rw [← Expr.truth_flatten .or e, Meaning.chain, List.map_map]
    rfl

/-- The operands of a chain on the table of an item. -/
theorem delivers_operands (hnested : DeliversNested w V P table nested)
    (hleaf : ∀ e es, P e → w.leaf table e = .ok es → Conveys w V table es (meanings e)) (chain : LogicalOp) (e : Expr)
    (he : Sayable P e) (htables : ∀ t ∈ e.tableRefs, w.query.Behind table t) :
    ∀ o ∈ w.operands table nested chain e, Delivers w V table o ∧ Sayable P o.1 := by
  fun_induction Writer.operands w table nested chain e with
  | case1 op l r inner ihl ihr =>
    rw [Sayable] at he
    rw [Expr.tableRefs, List.forall_mem_append] at htables
    exact List.forall_mem_append.mpr ⟨ihl he.1 htables.1, ihr he.2.1 htables.2⟩
  | case2 chain op l r inner hne part ihl ihr =>
    have hinner : w.operands table nested op (.logical op l r) = inner := by
      unfold Writer.operands
      exact if_pos rfl
    have hparts : ∀ o ∈ inner, Delivers w V table o ∧ Sayable P o.1 := by
      have he' := he
      have htables' := htables
      rw [Sayable] at he'
      rw [Expr.tableRefs, List.forall_mem_append] at htables'
      exact List.forall_mem_append.mpr ⟨ihl he'.1 htables'.1, ihr he'.2.1 htables'.2⟩
    refine List.forall_mem_singleton.mpr ⟨fun seen es seen' hwritten hsettled hdone => ?_, he⟩
    rw [← hinner] at hparts
    cases op with
    | and =>
      obtain ⟨body, hbody, rfl⟩ := Part.within_eq_ok.mp hwritten
      rw [← hinner] at hbody
      obtain ⟨new, Ts, hseen, hvisits, hfilters, hconveys, htruth, hmute⟩ :=
        exists_conveys_conjunction htree hnested (operates_operands hparts htables) htables hbody hdone hsettled
      exact ⟨new, hseen, hvisits, hfilters, hconveys.conjunction htruth hmute⟩
    | or =>
      obtain ⟨body, hbody, rfl⟩ := Part.within_eq_ok.mp hwritten
      rw [← hinner] at hbody
      have htouches : ∀ o ∈ w.operands table nested .or (.logical .or l r), ∀ b, w.query.Below table b →
          Touches w.query o.1 b → Done w.query seen b := by
        rintro o ho b hb ⟨t, ht, hbt⟩
        have hmem : o.1 ∈ (Expr.logical .or l r).flatten .or := by
          rw [← map_operands nested .or]
          exact List.mem_map_of_mem ho
        exact hdone b hb ⟨t, Expr.mem_tableRefs_of_mem_flatten hmem ht, hbt⟩
      obtain ⟨new, hseen, hvisits, hfilters, hconveys⟩ :=
        exists_conveys_disjunction htree hnested hbody hparts htouches hsettled
      rw [← List.flatMap_map, map_operands] at hconveys
      exact ⟨new, hseen, hvisits, hfilters, hconveys.disjunction he⟩
  | case3 chain e ih =>
    rw [Sayable] at he
    rw [Expr.tableRefs] at htables
    refine List.forall_mem_singleton.mpr ⟨fun seen es seen' hwritten hsettled hdone => ?_, he⟩
    obtain ⟨body, hbody, rfl⟩ := Part.within_eq_ok.mp hwritten
    obtain ⟨new, Ts, hseen, hvisits, hfilters, hconveys, htruth, hmute⟩ :=
      exists_conveys_conjunction htree hnested (operates_operands (ih he.1 htables) htables) htables hbody hdone hsettled
    refine ⟨new, hseen, hvisits, hfilters, hconveys.opposite htruth fun hnil => ?_⟩
    rw [he.2] at hmute
    cases hmute.mp hnil
  | case4 chain e hlogical hnot =>
    have hP : P e := by
      cases e with
      | logical op l r => exact absurd rfl (hlogical op l r)
      | not e => exact absurd rfl (hnot e)
      | _ => exact he
    refine List.forall_mem_singleton.mpr ⟨fun seen es seen' hwritten hsettled _ => ?_, he⟩
    obtain ⟨written, hleafWritten, heq⟩ := Result.map_eq_ok.mp hwritten
    cases heq
    exact ⟨[], rfl, visits_nil hsettled, nofun, hleaf e es hP hleafWritten⟩

end

end Aml
end ItemQuery
