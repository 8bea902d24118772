import ItemQuery.Proofs.Aml.Filters
import ItemQuery.Proofs.Query.KeyTree

/-! In which order the tables of a query come up when its filters are written. A criterion about several tables behind
    one foreign key is written in the item of that key, and all filters behind the key are written with the first item
    of it. So a criterion that also is about other tables does not come before them if a criterion about tables behind
    the key alone precedes it. -/

namespace ItemQuery.Aml

open Query

variable {q : Query} {a b c t : TableId} {e : Expr}

/-! ### What criteria are about -/

/-- The criterion is about the table or one behind it. -/
def Touches (q : Query) (e : Expr) (b : TableId) : Prop :=
  ∃ t ∈ e.tableRefs, q.Behind b t

/-- The criterion is about the table and tables behind it only. -/
structure Keeps (q : Query) (e : Expr) (b : TableId) : Prop where
  touches : Touches q e b
  behind : ∀ t ∈ e.tableRefs, q.Behind b t

theorem Touches.of_behind (h : Touches q e b) (hab : q.Behind a b) : Touches q e a := by
  obtain ⟨t, ht, hbt⟩ := h
  exact ⟨t, ht, hab.trans hbt⟩

theorem Keeps.of_behind (h : Keeps q e b) (hab : q.Behind a b) : Keeps q e a :=
  ⟨h.touches.of_behind hab, fun t ht => hab.trans (h.behind t ht)⟩

theorem Touches.keeps {ref : TableId} (h : Touches q e b) (href : ∀ t ∈ e.tableRefs, t = ref) : Keeps q e b := by
  refine ⟨h, fun t ht => ?_⟩
  obtain ⟨t', ht', hbt'⟩ := h
  rwa [href t ht, ← href t' ht']

/-- What is about tables behind `c` only is about a table that does not stand behind it if that stands before it. -/
theorem Keeps.behind_or_keeps (htree : q.KeyTree) (h : Keeps q e c) (hb : Touches q e b) :
    q.Behind c b ∨ Keeps q e b := by
  obtain ⟨t, ht, hbt⟩ := hb
  rcases htree.behind_total (h.behind t ht) hbt with hcb | hbc
  · exact .inl hcb
  · exact .inr (h.of_behind hbc)

/-- The foreign key through which a criterion is reached. -/
theorem hop?_eq_some {w : Writer} (htree : w.query.KeyTree) :
    w.hop? a e = some c ↔ c ∈ w.query.keyed a ∧ Keeps w.query e c := by
  have hstep : ∀ t, (fun t => if t = a then none
      else ((w.query.childTowards a t).filter (·.isForeignKey)).map (·.right)) t = some c ↔
      c ∈ w.query.keyed a ∧ w.query.Behind c t := by
    intro t
    dsimp only
    split
    next heq => simpa [heq] using htree.not_behind_of_mem_keyed
    next => exact htree.childTowards_eq
  have hkeeps : Keeps w.query e c ↔ e.tables ≠ [] ∧ ∀ t ∈ e.tables, w.query.Behind c t := by
    simp only [Expr.mem_tables]
    constructor
    · rintro ⟨⟨t, ht, -⟩, hbehind⟩
      exact ⟨List.ne_nil_of_mem (Expr.mem_tables.mpr ht), hbehind⟩
    · rintro ⟨hne, hbehind⟩
      obtain ⟨t, ht⟩ := List.exists_mem_of_ne_nil _ hne
      exact ⟨⟨t, Expr.mem_tables.mp ht, hbehind t (Expr.mem_tables.mp ht)⟩, hbehind⟩
  rw [hkeeps, Writer.hop?]
  generalize (fun t => if t = a then none
    else ((w.query.childTowards a t).filter (·.isForeignKey)).map (·.right)) = step at hstep
  cases e.tables with
  | nil => simp
  | cons t ts =>
    have hsteps : (∀ t' ∈ t :: ts, step t' = some c) ↔ c ∈ w.query.keyed a ∧ t :: ts ≠ [] ∧
        ∀ t' ∈ t :: ts, w.query.Behind c t' := by
      simp only [hstep]
      constructor
      · intro hall
        exact ⟨(hall t List.mem_cons_self).1, List.cons_ne_nil t ts, fun t' ht' => (hall t' ht').2⟩
      · rintro ⟨hc, -, hall⟩ t' ht'
        exact ⟨hc, hall t' ht'⟩
    rw [← hsteps, List.forall_mem_cons, List.map_cons]
    cases step t with
    | none => simp
    | some child =>
      dsimp only
      by_cases hchild : child = c
      · simp [hchild]
      · have hne : some child ≠ some c := fun heq => hchild (Option.some.inj heq)
        simp only [hne, false_and, iff_false]
        split
        · exact hne
        · nofun

/-! ### Criteria in order -/

/-- The criterion keeps to the table, or this stands behind a table that is ready and that the criterion does not keep
    to. -/
def Cleared (q : Query) (ready : TableId → Prop) (e : Expr) (b : TableId) : Prop :=
  Keeps q e b ∨ ∃ a, q.Behind a b ∧ ¬Keeps q e a ∧ ready a

/-- Criteria that come up in this order when the tables of `ready` have been dealt with. All tables that one of them
    is about are cleared, where a table that a criterion before keeps to is ready as well. -/
def Confined (q : Query) (ready : TableId → Prop) : List Expr → Prop
  | [] => True
  | e :: es => (∀ b, Touches q e b → Cleared q ready e b) ∧ Confined q (fun b => ready b ∨ Keeps q e b) es

section
variable {ready ready' : TableId → Prop} {es es' : List Expr}

theorem Cleared.mono (h : Cleared q ready e b) (hready : ∀ a, ready a → ready' a) : Cleared q ready' e b :=
  h.imp_right fun ⟨a, hab, hnot, ha⟩ => ⟨a, hab, hnot, hready a ha⟩

theorem Confined.mono (h : Confined q ready es) (hready : ∀ b, ready b → ready' b) : Confined q ready' es := by
  induction es generalizing ready ready' with
  | nil => trivial
  | cons e es ih => exact ⟨fun b hb => (h.1 b hb).mono hready, ih h.2 fun b => .imp_left (hready b)⟩

theorem Confined.append (h : Confined q ready es) (h' : Confined q (fun b => ready b ∨ ∃ e ∈ es, Keeps q e b) es') :
    Confined q ready (es ++ es') := by
  induction es generalizing ready with
  | nil => exact h'.mono fun b => Or.rec id nofun
  | cons e es ih =>
    refine ⟨h.1, ih h.2 (h'.mono fun b => ?_)⟩
    rintro (hb | ⟨other, hother, hb⟩)
    · exact .inl (.inl hb)
    · rcases List.mem_cons.mp hother with rfl | hother
      · exact .inl (.inr hb)
      · exact .inr ⟨other, hother, hb⟩

theorem confined_of_forall (h : ∀ e ∈ es, ∀ b, Touches q e b → Keeps q e b ∨ ready b) : Confined q ready es := by
  induction es generalizing ready with
  | nil => trivial
  | cons e es ih =>
    rw [List.forall_mem_cons] at h
    refine ⟨fun b hb => ?_, ih fun other hother b hb => (h.2 other hother b hb).imp_right .inl⟩
    by_cases hkeeps : Keeps q e b
    · exact .inl hkeeps
    · exact .inr ⟨b, .refl, hkeeps, (h.1 b hb).resolve_left hkeeps⟩

/-- Of criteria about `c` and what stands behind it, it matters only which tables below it are ready. -/
theorem Confined.of_behind (htree : q.KeyTree) (h : Confined q ready es)
    (hes : ∀ e ∈ es, ∀ t ∈ e.tableRefs, q.Behind c t) (hready : ∀ b, q.Below c b → ready b → ready' b) :
    Confined q ready' es := by
  induction es generalizing ready ready' with
  | nil => trivial
  | cons e es ih =>
    rw [List.forall_mem_cons] at hes
    refine ⟨fun b hb => ?_, ih h.2 hes.2 fun b hcb => .imp_left (hready b hcb)⟩
    refine (h.1 b hb).imp_right ?_
    rintro ⟨a, hab, hnot, ha⟩
    obtain ⟨t, ht, hbt⟩ := hb
    have hkeeps : Keeps q e c := ⟨⟨t, ht, hes.1 t ht⟩, hes.1⟩
    refine ⟨a, hab, hnot, hready a ?_ ha⟩
    rcases htree.behind_total (hes.1 t ht) (hab.trans hbt) with hca | hac
    · exact (eq_or_below_of_behind hca).resolve_left fun heq => hnot (heq ▸ hkeeps)
    · exact absurd (hkeeps.of_behind hac) hnot

/-- The criteria about `c` and what stands behind it, without the others. -/
theorem Confined.filter (htree : q.KeyTree) (h : Confined q ready es) {p : Expr → Bool}
    (hp : ∀ e, p e = true ↔ Keeps q e c) : Confined q ready (es.filter p) := by
  induction es generalizing ready with
  | nil => trivial
  | cons e es ih =>
    by_cases he : p e = true
    · rw [List.filter_cons_of_pos he]
      exact ⟨h.1, ih h.2⟩
    · rw [List.filter_cons_of_neg he]
      refine (ih h.2).of_behind htree (fun other hother => ((hp other).mp (List.mem_filter.mp hother).2).behind) ?_
      rintro b hcb (hb | hb)
      · exact hb
      · exact absurd ((hp e).mpr (hb.of_behind (behind_of_below hcb))) he

end

/-! ### Written filters -/

/-- The filters of the table and of all tables behind it are among those written. -/
def Done (q : Query) (seen : List TableId) (c : TableId) : Prop :=
  ∀ b, q.Behind c b → (q.filterOf b).isSome = true → b ∈ seen

/-- The tables that are dealt with before the filter of `id`: no filter stands behind them, or a criterion of a table
    above keeps to them. -/
def Prepared (q : Query) (id b : TableId) : Prop :=
  Done q [] b ∨ ∃ a f, q.Below a id ∧ q.filterOf a = some f ∧ ∃ e ∈ f.flatten .and, Keeps q e b

/-- Every criterion of a table above `c` that keeps to `c` is among these, unless the filters behind `c` are written. -/
def Arrived (q : Query) (seen : List TableId) (es : List Expr) (c : TableId) : Prop :=
  ∀ a f, q.Below a c → q.filterOf a = some f → ∀ e ∈ f.flatten .and, Keeps q e c → e ∈ es ∨ Done q seen c

/-- What stands below `a` was written together with all that stands behind it. -/
def Settled (q : Query) (seen : List TableId) (a : TableId) : Prop :=
  ∀ c ∈ seen, q.Below a c → Done q seen c

/-- Tables that come up while something is written for `a`. -/
structure Visits (q : Query) (a : TableId) (seen new : List TableId) : Prop where
  fresh : ∀ b ∈ new, b ∉ seen
  below : ∀ b ∈ new, q.Below a b
  settled : Settled q (new ++ seen) a

section
variable {seen new new' : List TableId}

theorem Done.mono (h : Done q seen c) (hsub : ∀ b ∈ seen, b ∈ new) : Done q new c := fun b hb hfilter =>
  hsub b (h b hb hfilter)

theorem Done.append (h : Done q seen c) (new : List TableId) : Done q (new ++ seen) c :=
  h.mono fun _ => List.mem_append_right new

theorem Done.of_behind (h : Done q seen a) (hab : q.Behind a b) : Done q seen b := fun t ht hfilter =>
  h t (hab.trans ht) hfilter

theorem Arrived.append {es : List Expr} (h : Arrived q seen es c) (new : List TableId) :
    Arrived q (new ++ seen) es c := fun a f hac hf e he hkeeps =>
  (h a f hac hf e he hkeeps).imp_right (·.append new)

theorem Settled.of_behind (h : Settled q seen a) (hab : q.Behind a b) : Settled q seen b := fun c hc hbelow =>
  h c hc (.of_behind_below hab hbelow)

theorem visits_nil (h : Settled q seen a) : Visits q a seen [] :=
  ⟨nofun, nofun, h⟩

theorem Visits.append (h : Visits q a seen new) (h' : Visits q a (new ++ seen) new') :
    Visits q a seen (new' ++ new) := by
  refine ⟨fun b hb hseen => ?_, fun b hb => ?_, ?_⟩
  · rcases List.mem_append.mp hb with hb | hb
    · exact h'.fresh b hb (List.mem_append_right new hseen)
    · exact h.fresh b hb hseen
  · rcases List.mem_append.mp hb with hb | hb
    · exact h'.below b hb
    · exact h.below b hb
  · rw [List.append_assoc]
    exact h'.settled

/-- What comes up behind a foreign key whose filters are written has no filter. -/
theorem Visits.filterOf_eq_none (h : Visits q a seen new) (hdone : Done q seen c) (hb : b ∈ new) (hcb : q.Behind c b) :
    q.filterOf b = none := by
  cases hfilter : q.filterOf b with
  | none => rfl
  | some e => exact absurd (hdone b hcb (by rw [hfilter]; rfl)) (h.fresh b hb)

/-- What has been written in the item of a foreign key. -/
theorem Settled.visits (h : Settled q seen a) (hc : c ∈ q.keyed a) (hfresh : ∀ b ∈ new, b ∉ seen)
    (hbehind : ∀ b ∈ new, q.Behind c b) (hsettled : Settled q (new ++ seen) c) (hdone : Done q (new ++ seen) c) :
    Visits q a seen new := by
  refine ⟨hfresh, fun b hb => ⟨c, hc, hbehind b hb⟩, fun b hb hbelow => ?_⟩
  rcases List.mem_append.mp hb with hnew | hseen
  · rcases eq_or_below_of_behind (hbehind b hnew) with rfl | hcb
    · exact hdone
    · exact hsettled b hb hcb
  · exact (h b hseen hbelow).append new

end

/-- A table with a filter behind a foreign key gives reason to follow it. -/
theorem hasCriteria_of_filterOf {w : Writer} (htree : w.query.KeyTree) {depth : Nat} (hdeep : w.query.Deep depth c)
    (hb : w.query.Behind c b) (hfilter : (w.query.filterOf b).isSome = true) : w.hasCriteria depth c = true := by
  induction depth generalizing c with
  | zero => exact absurd rfl hdeep.ne_zero
  | succ depth ih =>
    rcases hb.cases_head with rfl | ⟨d, hd, hdb⟩
    · obtain ⟨e, he⟩ := Option.isSome_iff_exists.mp hfilter
      obtain ⟨item, hitem, hitemFilter⟩ := Option.bind_eq_some_iff.mp he
      simp [Writer.hasCriteria, hitem, hitemFilter]
    · have hbelow := ih (htree.deep_of_mem_keyed hdeep hd) hdb
      unfold keyed at hd
      cases hitem : w.query.get? c with
      | none => simp [hitem] at hd
      | some item =>
        simp only [hitem, Option.elim_some, List.mem_map] at hd
        obtain ⟨j, hj, rfl⟩ := hd
        have hany : (item.joins.any fun j => !j.isForeignKey || w.hasCriteria depth j.right) = true :=
          List.any_eq_true.mpr ⟨j, List.mem_of_mem_filter hj, by rw [hbelow, Bool.or_true]⟩
        simp [Writer.hasCriteria, hitem, hany]

end ItemQuery.Aml
