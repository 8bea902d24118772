import ItemQuery.Proofs.Sql.Bounds

/-! The value list of an `in`. Its parenthesis is the lowest open one, so that nothing in it reaches what lies below, and
    closing it leaves the list alone. -/

namespace ItemQuery.Sql

variable {b b' : Pending} {ops front : List Pending} {os : List Operand} {offset opened stop : Nat}
  {m m' c c' base : Machine}
  {a : Action} {scope : Scope} {t : Token} {ts : List Token} {x : Operand} {e : Expr}

/-! ### Balanced texts -/

/-- Parentheses that are never closed too early, and all closed in the end. -/
structure Balanced (ts : List Token) : Prop where
  solvent : Solvent Token.turn 0 ts
  closed : total Token.turn ts = 0

theorem turn_of_comment (h : t.kind = .comment) : t.turn = 0 := by
  simp [Token.turn, Token.isOp, h]

theorem total_turn_spoken (ts : List Token) : total Token.turn (spoken ts) = total Token.turn ts := by
  induction ts with
  | nil => rfl
  | cons t ts ih =>
    by_cases ht : t.kind = .comment
    · rw [spoken_comment ht, total_cons, turn_of_comment ht, Int.zero_add, ih]
    · rw [spoken_cons ht, total_cons, total_cons, ih]
      rfl

theorem Solvent.spoken {n : Int} (h : Solvent Token.turn n ts) : Solvent Token.turn n (spoken ts) := by
  induction ts generalizing n with
  | nil => exact h
  | cons t ts ih =>
    obtain ⟨hn, h⟩ := solvent_cons.mp h
    by_cases ht : t.kind = .comment
    · rw [turn_of_comment ht, Int.add_zero] at h
      rw [spoken_comment ht]
      exact ih h
    · rw [spoken_cons ht]
      exact solvent_cons.mpr ⟨hn, ih h⟩

/-- Comments open and close nothing. -/
theorem Balanced.spoken (h : Balanced ts) : Balanced (spoken ts) where
  solvent := h.solvent.spoken
  closed := (total_turn_spoken ts).trans h.closed

/-! ### Above an open parenthesis -/

theorem getLast?_of_append (h : (front ++ ops).getLast? = some b) (hops : 0 < openings ops) : ops.getLast? = some b := by
  cases hlast : ops.getLast? with
  | none =>
    rw [List.getLast?_eq_none_iff.mp hlast] at hops
    exact absurd hops (Int.lt_irrefl 0)
  | some b' => rwa [List.getLast?_append, hlast, Option.some_or] at h

theorem getLast?_cons_of (h : ops.getLast? = some b) (b' : Pending) : (b' :: ops).getLast? = some b := by
  rw [List.getLast?_cons, h, Option.getD_some]

/-- The lowest operator stays as long as a parenthesis is open. -/
theorem Machine.Performs.getLast? (h : c.Performs offset a c') (hlast : c.operators.getLast? = some b)
    (hopen : 0 < Sql.openings c'.operators) : c'.operators.getLast? = some b := by
  cases h with
  | value => exact hlast
  | skip => exact hlast
  | unary => exact getLast?_cons_of hlast _
  | opening => exact getLast?_cons_of hlast _
  | binary _ happly =>
    obtain ⟨front, hfront, -⟩ := exists_of_applyWhile happly
    rw [openings_cons rfl] at hopen
    rw [hfront] at hlast
    exact getLast?_cons_of (getLast?_of_append hlast hopen) _
  | comma _ happly =>
    obtain ⟨front, hfront, -⟩ := exists_of_applyWhile happly
    rw [hfront] at hlast
    exact getLast?_of_append hlast hopen
  | empty _ hoperators =>
    rw [hoperators, ← List.singleton_append] at hlast
    exact getLast?_of_append hlast hopen
  | close _ happly =>
    obtain ⟨front, hfront, -⟩ := exists_of_applyWhile happly
    rw [hfront, ← List.singleton_append, ← List.append_assoc] at hlast
    exact getLast?_of_append hlast hopen

/-- Nothing reaches through an open parenthesis. -/
theorem Machine.Performs.alone (h : (c.onto base).Performs offset a m') (hc : c.Stocked)
    (hbase : ∀ b ∈ base.operators, b.isOpened = false) (hopen : 0 < Sql.openings c.operators) :
    ∃ c', c.Performs offset a c' ∧ m' = c'.onto base := by
  cases h.over hc hbase with
  | above _ halone =>
    refine ⟨_, halone (.inl fun hnil => ?_), rfl⟩
    rw [hnil] at hopen
    exact Int.lt_irrefl 0 hopen
  | through _ happly =>
    rw [← openings_of_applyWhile happly] at hopen
    exact absurd hopen (Int.lt_irrefl 0)

theorem Machine.Runs.alone (h : Runs scope (c.onto base) ts m') (hc : c.Stocked)
    (hbase : ∀ b ∈ base.operators, b.isOpened = false) (hlast : c.operators.getLast? = some b)
    (hs : Solvent Token.turn (Sql.openings c.operators - 1) ts) :
    ∃ c', Runs scope c ts c' ∧ m' = c'.onto base ∧ c'.Stocked ∧ c'.operators.getLast? = some b := by
  have hopen : ∀ {n : Int} {ts : List Token}, Solvent Token.turn (n - 1) ts → 0 < n := fun h =>
    Int.lt_of_lt_of_le Int.one_pos (Int.sub_nonneg.mp h.nonneg)
  generalize hm : c.onto base = m at h
  induction h generalizing c with
  | nil => exact ⟨c, .nil, hm.symm, hc, hlast⟩
  | push hcall ha hperforms _ ih =>
    subst hm
    obtain ⟨c', hperforms', rfl⟩ := hperforms.alone hc hbase (hopen hs)
    have hrest := (solvent_cons.mp hs).2
    rw [← (counts_of_action? ha).1, sub_add_eq_add_sub, ← hperforms'.openings] at hrest
    obtain ⟨d, hruns, hd⟩ := ih (hperforms'.stocked hc) (hperforms'.getLast? hlast (hopen hrest)) hrest rfl
    exact ⟨d, .push hcall ha hperforms' hruns, hd⟩
  | call hcall hperforms _ ih =>
    subst hm
    obtain ⟨c', hperforms', rfl⟩ := hperforms.alone hc hbase (hopen hs)
    obtain ⟨ht, -, hu, -⟩ := counts_of_call hcall
    have hrest := (solvent_cons.mp (solvent_cons.mp hs).2).2
    rw [ht, hu, Int.add_zero, sub_add_eq_add_sub] at hrest
    rw [show Sql.openings _ + 1 = _ from hperforms'.openings.symm] at hrest
    obtain ⟨d, hruns, hd⟩ := ih (hperforms'.stocked hc) (hperforms'.getLast? hlast (hopen hrest)) hrest rfl
    exact ⟨d, .call hcall hperforms' hruns, hd⟩

/-! ### Closing the list -/

theorem eq_nil_of_openings (h : (b' :: ops).getLast? = some b) (hb : b.isOpened = true) (hops : openings ops = 0) :
    ops = [] ∧ b' = b := by
  cases hlast : ops.getLast? with
  | none =>
    obtain rfl := List.getLast?_eq_none_iff.mp hlast
    exact ⟨rfl, Option.some.inj h⟩
  | some d =>
    obtain rfl : d = b := by
      rw [getLast?_cons_of hlast] at h
      exact Option.some.inj h
    rw [closed_of_openings hops d (List.mem_of_getLast? hlast)] at hb
    cases hb

/-- Closing the lowest parenthesis leaves the list. -/
theorem Machine.Performs.close_last (h : c.Performs offset .close c')
    (hlast : c.operators.getLast? = some (.opened .inList 0 opened))
    (hopen : Sql.openings c'.operators = 0) : ∃ items, c' = ⟨[.list items], [], false⟩ := by
  cases h with
  | empty _ hoperators hvalue =>
    rw [hoperators] at hlast
    obtain ⟨rfl, hbracket⟩ := eq_nil_of_openings hlast rfl hopen
    obtain ⟨rfl, hlen, -⟩ := Pending.opened.inj hbracket
    cases hvalue
    exact ⟨_, by rw [List.length_eq_zero_iff.mp hlen]⟩
  | close _ happly hvalue =>
    obtain ⟨front, hfront, -⟩ := exists_of_applyWhile happly
    rw [hfront, List.getLast?_append_of_ne_nil _ (List.cons_ne_nil _ _)] at hlast
    obtain ⟨rfl, hbracket⟩ := eq_nil_of_openings hlast rfl hopen
    cases hbracket
    obtain ⟨items, -, rfl⟩ := Result.map_eq_ok.mp hvalue
    exact ⟨items, by rw [Nat.sub_zero, List.drop_length]⟩

/-- An expression and an `in` that waits for its list. -/
def afterIn (e : Expr) (offset : Nat) : Machine :=
  ⟨[.expr e], [.binary (.inList false) offset], true⟩

/-- The machine when a list was opened. -/
def listStart (opened : Nat) : Machine :=
  ⟨[], [.opened .inList 0 opened], true⟩

theorem openings_of_finish (h : m.finish stop = .ok x) : openings m.operators = 0 :=
  (openings_of_applyWhile (Machine.finish_eq_ok_iff.mp h).2).symm

theorem action?_close {wants : Bool} (h : t.isOp ")" = true) : t.action? scope wants = some .close := by
  rw [Token.action?, kind_of_isOp h, text_of_isOp h]
  rfl

/-- The items of an `in` are what stands in its parentheses. -/
theorem Machine.Runs.items {e' : Expr} {items : List Expr} {negated : Bool} {table : Option TableId}
    (h : Runs scope ((listStart opened).onto (afterIn e offset)) (ts ++ [t]) m) (ht : t.isOp ")" = true) (hts : Balanced ts)
    (hx : m.finish stop = .ok x) (he : x.toExpr stop = .ok (.inList e' items negated table)) :
    ∃ c c', Runs scope (listStart opened) ts c ∧ c.Performs t.offset .close c' ∧ c'.finish stop = .ok (.list items) := by
  have hbase : ∀ b ∈ (afterIn e offset).operators, b.isOpened = false := List.forall_mem_singleton.mpr rfl
  have hstocked : (listStart opened).Stocked := ⟨0, .opened .nil (Nat.le_refl 0), rfl⟩
  obtain ⟨m₁, hinside, h⟩ := h.split fun u u' _ hu' => by
    cases hu'
    rw [isOp_open_of_close ht, Bool.and_false]
  obtain ⟨c, hc, rfl, hstocked', hlast⟩ := hinside.alone hstocked hbase rfl hts.solvent
  have hopen : Sql.openings c.operators = 1 := by
    rw [hc.openings.1, hts.closed]
    rfl
  cases h with
  | push _ ha hperforms hrest =>
    rw [action?_close ht] at ha
    cases ha
    cases hrest
    obtain ⟨c', hclose, rfl⟩ := hperforms.alone hstocked' hbase (by rw [hopen]; decide)
    have hnone : Sql.openings c'.operators = 0 := by
      rw [hclose.openings, hopen]
      rfl
    obtain ⟨items', rfl⟩ := hclose.close_last hlast hnone
    refine ⟨c, _, hc, hclose, ?_⟩
    cases hx
    cases he
    rfl

end ItemQuery.Sql
