import ItemQuery.Proofs.Sql.Weights

/-! The bounds of a `between`. What stands behind it is read above it; its `and` finds one value there, or an operator
    that keeps the bounds from it. Both bounds are what they are when they are read alone. -/

namespace ItemQuery.Sql

variable {p : Pending → Bool} {b : Pending} {ops ops' front : List Pending} {os os' : List Operand} {n offset stop : Nat}
  {m m' c : Machine} {a : Action} {scope : Scope} {t : Token} {ts : List Token} {x v : Operand} {e : Expr}

/-! ### Machines that a text leaves -/

/-- The lowest operator is not the `and` of a range. -/
def Rooted (ops : List Pending) : Prop :=
  ∀ offset, ops.getLast? ≠ some (.binary .betweenAnd offset)

theorem Rooted.cons (h : Rooted ops) (hb : ops = [] → ∀ offset, b ≠ .binary .betweenAnd offset) : Rooted (b :: ops) := by
  intro offset hlast
  rw [List.getLast?_cons] at hlast
  cases hops : ops.getLast? with
  | none =>
    rw [hops] at hlast
    exact hb (List.getLast?_eq_none_iff.mp hops) offset (Option.some.inj hlast)
  | some b' =>
    rw [hops] at hlast
    exact h offset (hops.trans hlast)

theorem Rooted.of_append (h : Rooted (front ++ ops)) : Rooted ops := by
  intro offset hlast
  refine h offset ?_
  rw [List.getLast?_append, hlast, Option.some_or]

theorem Operand.weight_nonpos (v : Operand) : v.weight ≤ 0 := by
  cases v with
  | range => exact (by decide : (-1 : Int) ≤ 0)
  | _ => exact Int.le_refl 0

/-- The machine waits for no fewer ranges than it holds. -/
structure Machine.Steady (m : Machine) : Prop where
  stocked : m.Stocked
  rooted : Rooted m.operators
  nonneg : 0 ≤ m.weight

theorem Machine.steady_empty : Machine.Steady {} where
  stocked := ⟨0, .nil, rfl⟩
  rooted := nofun
  nonneg := Int.le_refl 0

/-- The only operand that is left weighs as much as the machine. -/
theorem Machine.Stocked.exists_single (hm : m.Stocked) (hwants : m.wantsValue = false)
    (h : applyWhile p m.operands m.operators = .ok (os, [])) : ∃ v, os = [v] ∧ v.weight = m.weight := by
  obtain ⟨n, hholds, hlen⟩ := hm
  rw [hwants] at hlen
  obtain ⟨v, rfl⟩ := hholds.singleton hlen h
  refine ⟨v, rfl, ?_⟩
  have hsum := weight_of_applyWhile h
  simpa [Machine.weight] using hsum

theorem Machine.Performs.steady (h : m.Performs offset a m') (hm : m.Steady) (hvalue : ∀ v, a = .value v → v.weight = 0)
    (hnonneg : 0 ≤ m.weight + a.weight) : m'.Steady where
  stocked := h.stocked hm.stocked
  nonneg := by rwa [h.weight hvalue]
  rooted := by
    have hrooted := hm.rooted
    cases h with
    | value => exact hrooted
    | skip => exact hrooted
    | unary => exact hrooted.cons fun _ => nofun
    | opening => exact hrooted.cons fun _ => nofun
    | @binary op operands operators hwants happly =>
      obtain ⟨front, hfront, -⟩ := exists_of_applyWhile happly
      rw [hfront] at hrooted
      refine hrooted.of_append.cons ?_
      rintro rfl offset hop
      obtain ⟨v, -, hv⟩ := hm.stocked.exists_single hwants happly
      have hnonpos := v.weight_nonpos
      cases hop
      simp only [Action.weight, BinaryOp.weight] at hnonneg
      omega
    | comma _ happly =>
      obtain ⟨front, hfront, -⟩ := exists_of_applyWhile happly
      rw [hfront] at hrooted
      exact hrooted.of_append
    | @empty bracket opened operators v hwants hoperators =>
      rw [hoperators, ← List.singleton_append] at hrooted
      exact hrooted.of_append
    | @close bracket height opened operands operators v hwants happly =>
      obtain ⟨front, hfront, -⟩ := exists_of_applyWhile happly
      rw [hfront, ← List.singleton_append, ← List.append_assoc] at hrooted
      exact hrooted.of_append

theorem Machine.Runs.preserves {P : Machine → Prop}
    (hP : ∀ {m m' : Machine} {a : Action} {offset : Nat}, m.Performs offset a m' → P m → P m')
    (h : Runs scope m ts m') (hm : P m) : P m' := by
  induction h with
  | nil => exact hm
  | push _ _ hperforms _ ih => exact ih (hP hperforms hm)
  | call _ hperforms _ ih => exact ih (hP hperforms hm)

/-! ### Runs above other stacks -/

/-- A run above other stacks is a run alone, as long as no operator asks for what lies below. -/
theorem Machine.Runs.over {base : Machine} (Lost : Machine → Prop) (hbase : ∀ b ∈ base.operators, b.isOpened = false)
    (hgroup : base.bracketHere = .group)
    (hthrough : ∀ {op : BinaryOp} {v : Operand} {b : Pending} {bs : List Pending} {operands : List Operand}
      {left : List Operand × List Pending} {offset : Nat}, base.operators = b :: bs →
      b.bindsBefore op.precedence = true → b.Applies (v :: base.operands) operands →
      applyWhile (Pending.bindsBefore op.precedence) operands bs = .ok left → 0 ≤ v.weight → 0 ≤ v.weight + op.weight →
      Lost ⟨left.1, .binary op offset :: left.2, true⟩)
    (hlost : ∀ {m m' : Machine} {a : Action} {offset : Nat}, m.Performs offset a m' → Lost m → Lost m')
    (h : Runs scope (c.onto base) ts m') (hc : c.Steady) (hs : Solvent Token.weight c.weight ts) :
    (∃ c', Runs scope c ts c' ∧ m' = c'.onto base ∧ c'.Steady) ∨ Lost m' := by
  generalize hm : c.onto base = m at h
  induction h generalizing c with
  | nil => exact .inl ⟨c, .nil, hm.symm, hc⟩
  | @push m m₁ m' t ts a hcall ha hperforms hrest ih =>
    subst hm
    rw [solvent_cons] at hs
    obtain ⟨-, hweight, hvalue⟩ := counts_of_action? ha
    cases hperforms.over hc.stocked hbase with
    | above _ halone =>
      have hperforms' := halone (.inr hgroup)
      have hsteady := hperforms'.steady hc hvalue (hweight ▸ hs.2.nonneg)
      rcases ih hsteady (by rw [hperforms'.weight hvalue, hweight]; exact hs.2) rfl with ⟨c', hruns, hc'⟩ | hlost
      · exact .inl ⟨c', .push hcall ha hperforms' hruns, hc'⟩
      · exact .inr hlost
    | through hwants happly hops hb happlies hleft =>
      obtain ⟨v, hv, hsame⟩ := hc.stocked.exists_single hwants happly
      cases hv
      have hop := hs.2.nonneg
      rw [← hweight, ← hsame] at hop
      exact .inr (hrest.preserves hlost (hthrough hops hb happlies hleft (hsame ▸ hc.nonneg) hop))
  | @call m m₁ m' t u ts hcall hperforms hrest ih =>
    subst hm
    obtain ⟨-, ht, -, hu⟩ := counts_of_call hcall
    rw [solvent_cons, solvent_cons, ht, hu, Int.add_zero, Int.add_zero] at hs
    cases hperforms.over hc.stocked hbase with
    | above _ halone =>
      have hperforms' := halone (.inr hgroup)
      have hsame : _ = c.weight := (hperforms'.weight nofun).trans (Int.add_zero _)
      have hsteady := hperforms'.steady hc nofun (Int.le_trans hc.nonneg (Int.le_of_eq (Int.add_zero _).symm))
      rcases ih hsteady (by rw [hsame]; exact hs.2.2) rfl with ⟨c', hruns, hc'⟩ | hlost
      · exact .inl ⟨c', .call hcall hperforms' hruns, hc'⟩
      · exact .inr hlost

/-! ### What is left -/

theorem applyWhile_all (h : applyWhile p os ops = .ok (os', [])) : applyWhile (fun _ => true) os ops = .ok (os', []) := by
  induction ops generalizing os with
  | nil => exact h
  | cons b ops ih =>
    rw [applyWhile] at h
    split at h
    · split at h
      next => cases h
      next happly =>
        rw [applyWhile, if_pos rfl, happly]
        exact ih h
    · cases h

/-- What lies above other stacks comes to one operand in the end. -/
theorem Machine.Stocked.finish_onto {base : Machine} (hc : c.Stocked) (hne : base.operators ≠ [])
    (h : (c.onto base).finish stop = .ok x) : c.wantsValue = false ∧ ∃ v,
      Sql.applyWhile (fun _ => true) c.operands c.operators = .ok ([v], []) ∧
      Sql.applyWhile (fun _ => true) (v :: base.operands) base.operators = .ok ([x], []) := by
  obtain ⟨hended, happly⟩ := finish_eq_ok_iff.mp h
  have hwants : c.wantsValue = false := by
    refine Bool.eq_false_of_not_eq_true fun hwants => hne ?_
    exact (List.append_eq_nil_iff.mp (hended hwants)).2
  obtain ⟨n, hholds, hlen⟩ := hc
  rw [hwants] at hlen
  refine ⟨hwants, ?_⟩
  rcases (applyWhile_onto (fun _ => rfl) hholds hlen).mp happly with ⟨os, ops, happly', hne', -⟩ | hleft
  · exact absurd (eq_nil_of_applyWhile happly') hne'
  · exact hleft

theorem finish_of_applyWhile (hwants : m.wantsValue = false) (h : applyWhile p m.operands m.operators = .ok ([v], [])) :
    m.finish stop = .ok v := by
  refine Machine.finish_eq_ok_iff.mpr ⟨fun h => ?_, applyWhile_all h⟩
  rw [hwants] at h
  cases h

/-! ### Behind a `between` -/

/-- An expression and a `between` that waits for its bounds. -/
def afterBetween (e : Expr) (offset : Nat) : Machine :=
  ⟨[.expr e], [.binary (.between false) offset], true⟩

/-- The same with the lower bound and the `and` of the range. -/
def afterAnd (v : Operand) (e : Expr) (offset offset' : Nat) : Machine :=
  ⟨[v, .expr e], [.binary .betweenAnd offset', .binary (.between false) offset], true⟩

theorem not_applies_between (hv : 0 ≤ v.weight) : ¬(Pending.binary (.between false) offset).Applies (v :: os) os' := by
  intro h
  cases h with
  | binary _ _ hcombine =>
    have hweight := weight_of_combine hcombine
    simp only [BinaryOp.weight] at hweight
    omega

/-- No operator takes what stands behind `between` for its bounds. -/
theorem Machine.Runs.afterBetween {offset : Nat} (h : Runs scope (c.onto (afterBetween e offset)) ts m') (hc : c.Steady)
    (hs : Solvent Token.weight c.weight ts) :
    ∃ c', Runs scope c ts c' ∧ m' = c'.onto (Sql.afterBetween e offset) ∧ c'.Steady := by
  have hopen : ∀ b ∈ (Sql.afterBetween e offset).operators, b.isOpened = false := List.forall_mem_singleton.mpr rfl
  refine (Runs.over (fun _ => False) hopen rfl ?_ (fun _ => id) h hc hs).resolve_right id
  intro op v b bs operands left _ hops hb happlies _ hv _
  cases hops
  exact not_applies_between hv happlies

theorem finish_afterBetween (hc : c.Steady) : (c.onto (afterBetween e offset)).finish stop ≠ .ok x := by
  intro h
  obtain ⟨hwants, v, happly, hbelow⟩ := hc.stocked.finish_onto (List.cons_ne_nil _ _) h
  obtain ⟨w, hw, hweight⟩ := hc.stocked.exists_single hwants happly
  cases hw
  rw [afterBetween, applyWhile, if_pos rfl] at hbelow
  split at hbelow
  next => cases hbelow
  next hb => exact not_applies_between (hweight ▸ hc.nonneg) (Pending.apply_eq_ok_iff.mp hb)

/-! ### Another condition on the left -/

/-- The leftmost operand of the condition is no property. -/
def Spoilt (m : Machine) : Prop :=
  ∃ (c : Machine) (x : Operand) (op : BinaryOp) (offset : Nat),
    c.Stocked ∧ m = c.onto ⟨[x], [.binary op offset], true⟩ ∧ ∀ r, x ≠ .expr (.property r)

/-- An operator between two operands makes no property, and a `between` keeps what stands to its left. -/
theorem combine_leftmost {op : BinaryOp} {l : Expr} (h : combine op l v offset = .ok e) :
    (∀ r, e ≠ .property r) ∧ ∀ l' low high negated table, e = .between l' low high negated table → l' = l := by
  cases op with
  | between =>
    cases v with
    | range =>
      cases h
      refine ⟨nofun, ?_⟩
      rintro _ _ _ _ _ ⟨⟩
      rfl
    | _ => cases h
  | is =>
    cases v with
    | null =>
      cases h
      exact ⟨nofun, nofun⟩
    | _ => cases h
  | inList =>
    cases v with
    | expr e =>
      cases e <;>
      · cases h
        exact ⟨nofun, nofun⟩
    | list =>
      cases h
      exact ⟨nofun, nofun⟩
    | null => cases h
    | range => cases h
  | betweenAnd => cases h
  | like =>
    obtain ⟨_, -, h⟩ := Result.bind_eq_ok.mp h
    obtain ⟨_, -, h⟩ := Result.bind_eq_ok.mp h
    cases h
    exact ⟨nofun, nofun⟩
  | comparison =>
    cases v with
    | expr =>
      cases h
      exact ⟨nofun, nofun⟩
    | list =>
      cases h
      exact ⟨nofun, nofun⟩
    | null => cases h
    | range => cases h
  | logical =>
    obtain ⟨_, -, rfl⟩ := Result.map_eq_ok.mp h
    exact ⟨nofun, nofun⟩
  | arithmetic =>
    obtain ⟨_, -, rfl⟩ := Result.map_eq_ok.mp h
    exact ⟨nofun, nofun⟩

theorem Machine.Performs.spoilt (h : m.Performs offset a m') (hm : Spoilt m) : Spoilt m' := by
  obtain ⟨c, x, op, offset', hc, rfl, hx⟩ := hm
  have hopen : ∀ b ∈ [Pending.binary op offset'], b.isOpened = false := List.forall_mem_singleton.mpr rfl
  cases h.over hc hopen with
  | @above _ c' hstocked => exact ⟨c', x, op, offset', hstocked, rfl, hx⟩
  | through _ _ hops _ happlies hleft =>
    cases hops
    cases hleft
    cases happlies with
    | range => exact ⟨{}, _, _, offset, steady_empty.stocked, rfl, nofun⟩
    | binary _ _ hcombine =>
      refine ⟨{}, _, _, offset, steady_empty.stocked, rfl, fun r hr => ?_⟩
      exact (combine_leftmost hcombine).1 r (Operand.expr.inj hr)

theorem Spoilt.finish (hm : Spoilt m) (h : m.finish stop = .ok x) (he : x.toExpr stop = .ok e) {r : PropertyRef}
    {low high : Expr} {negated : Bool} {table : Option TableId} : e ≠ .between (.property r) low high negated table := by
  rintro rfl
  obtain ⟨c, y, op, offset, hc, rfl, hy⟩ := hm
  obtain ⟨-, v, -, hbelow⟩ := hc.finish_onto (List.cons_ne_nil _ _) h
  rw [applyWhile, if_pos rfl] at hbelow
  split at hbelow
  next => cases hbelow
  next hb =>
    cases hbelow
    cases Pending.apply_eq_ok_iff.mp hb with
    | range => cases he
    | binary _ hleft hcombine =>
      cases he
      obtain rfl := (combine_leftmost hcombine).2 _ _ _ _ _ rfl
      cases y with
      | expr y =>
        cases hleft
        exact hy r rfl
      | list => cases hleft
      | null => cases hleft
      | range => cases hleft

/-! ### An operator between a `between` and its bounds -/

theorem bindsBefore_binary {op : BinaryOp} {p : Precedence} :
    (Pending.binary op offset).bindsBefore p = true ↔ p.rank ≤ op.precedence.rank := by
  simp [Pending.bindsBefore, Precedence.weaker]

/-- What makes the operator take its last operand makes a `between` take its bounds. -/
def Pending.Weak (b : Pending) : Prop :=
  ∀ p, b.bindsBefore p = true → p.rank ≤ Precedence.comparison.rank

theorem weak_of_not_bindsBefore (hb : b.isOpened = false) (h : b.bindsBefore .subComparison = false) : b.Weak := by
  intro p hp
  cases b with
  | opened => cases hb
  | unary op =>
    cases op with
    | not =>
      have hrank : p.rank ≤ Precedence.not.rank := by simpa [Pending.bindsBefore, Precedence.weaker] using hp
      exact hrank.trans (by decide)
    | negate => cases h
  | binary op =>
    have hop : ¬Precedence.subComparison.rank ≤ op.precedence.rank := fun hle => by
      rw [bindsBefore_binary.mpr hle] at h
      cases h
    exact (bindsBefore_binary.mp hp).trans (Nat.le_of_lt_succ (Nat.lt_of_not_le hop))

/-- Operators above a `between` that keep the bounds from it. -/
structure Bars (offset : Nat) (os : List Operand) (ops : List Pending) : Prop where
  rooted : Rooted ops
  closed : ∀ b ∈ ops, b.isOpened = false
  weak : ∃ b ∈ ops, b.Weak
  holds : Holds (ops ++ [.binary (.between false) offset]) os.length

/-- The bounds do not come to the `between`. -/
def Blocked (m : Machine) : Prop :=
  ∃ (c : Machine) (os : List Operand) (ops : List Pending) (offset : Nat),
    c.Stocked ∧ m = c.onto ⟨os, ops ++ [.binary (.between false) offset], true⟩ ∧ Bars offset os ops

/-- A `between` is not reached through operators that are no ranges. -/
theorem exists_of_applyWhile_bars {left : List Operand × List Pending} (hrooted : Rooted ops)
    (hclosed : ∀ b ∈ ops, b.isOpened = false) (hne : ops ≠ [])
    (hweak : p (.binary (.between false) offset) = true ∨ ∃ b ∈ ops, p b = false)
    (h : applyWhile p os (ops ++ [.binary (.between false) offset]) = .ok left) :
    ∃ front ops', ops = front ++ ops' ∧ ops' ≠ [] ∧ left.2 = ops' ++ [.binary (.between false) offset] ∧
      ∀ b ∈ ops, p b = false → b ∈ ops' := by
  induction ops generalizing os with
  | nil => exact absurd rfl hne
  | cons b ops ih =>
    rw [List.forall_mem_cons] at hclosed
    rw [List.cons_append, applyWhile] at h
    split at h
    next hb =>
      split at h
      next => cases h
      next os₁ happly =>
        have hrest : ops ≠ [] := by
          rintro rfl
          have htop : ∃ e rest, os₁ = .expr e :: rest := by
            cases Pending.apply_eq_ok_iff.mp happly with
            | unary => exact ⟨_, _, rfl⟩
            | range => exact absurd rfl (hrooted _)
            | binary => exact ⟨_, _, rfl⟩
          obtain ⟨e, rest, rfl⟩ := htop
          have hlast : p (.binary (.between false) offset) = true := by
            rcases hweak with hlast | ⟨b', hb', hnot⟩
            · exact hlast
            · rw [List.mem_singleton.mp hb', hb] at hnot
              cases hnot
          rw [List.nil_append, applyWhile, if_pos hlast] at h
          split at h
          next => cases h
          next hbetween =>
            have hweight : 0 ≤ (Operand.expr e).weight := Int.le_refl 0
            exact not_applies_between hweight (Pending.apply_eq_ok_iff.mp hbetween)
        have hweak' : p (.binary (.between false) offset) = true ∨ ∃ b ∈ ops, p b = false := by
          refine hweak.imp_right ?_
          rintro ⟨b', hb', hnot⟩
          refine ⟨b', (List.mem_cons.mp hb').resolve_left ?_, hnot⟩
          rintro rfl
          rw [hb] at hnot
          cases hnot
        rw [← List.singleton_append] at hrooted
        obtain ⟨front, ops', rfl, hne', hleft, hkept⟩ := ih hrooted.of_append hclosed.2 hrest hweak' h
        refine ⟨b :: front, ops', rfl, hne', hleft, fun b' hb' hnot => ?_⟩
        rcases List.mem_cons.mp hb' with rfl | hb'
        · rw [hb] at hnot
          cases hnot
        · exact hkept b' hb' hnot
    next =>
      cases h
      exact ⟨[], b :: ops, rfl, List.cons_ne_nil _ _, rfl, fun _ hb _ => hb⟩

theorem Machine.Performs.blocked (h : m.Performs offset a m') (hm : Blocked m) : Blocked m' := by
  obtain ⟨c, os, ops, offset', hc, rfl, hbars⟩ := hm
  have hopen : ∀ b ∈ ops ++ [.binary (.between false) offset'], b.isOpened = false :=
    List.forall_mem_append.mpr ⟨hbars.closed, List.forall_mem_singleton.mpr rfl⟩
  cases h.over hc hopen with
  | @above _ c' hstocked => exact ⟨c', os, ops, offset', hstocked, rfl, hbars⟩
  | @through op v b bs operands left _ _ hops hb happlies hleft =>
    obtain ⟨b', hb', hweak⟩ := hbars.weak
    have happly : applyWhile (Pending.bindsBefore op.precedence) (v :: os) (ops ++ [.binary (.between false) offset']) =
        .ok left := by
      rw [show ops ++ _ = b :: bs from hops, applyWhile, if_pos hb, Pending.apply_eq_ok_iff.mpr happlies]
      exact hleft
    have hstop : Pending.bindsBefore op.precedence (.binary (.between false) offset') = true ∨
        ∃ b ∈ ops, b.bindsBefore op.precedence = false := by
      cases hkept : b'.bindsBefore op.precedence with
      | false => exact .inr ⟨b', hb', hkept⟩
      | true => exact .inl (bindsBefore_binary.mpr (hweak _ hkept))
    obtain ⟨front, ops', rfl, hne, hleft', hkept⟩ :=
      exists_of_applyWhile_bars hbars.rooted hbars.closed (List.ne_nil_of_mem hb') hstop happly
    obtain ⟨n, hholds, hlen⟩ := hbars.holds.applyWhile (congrArg (· + 1) rfl) happly
    obtain ⟨left, operators⟩ := left
    obtain rfl := hleft'
    refine ⟨{}, left, .binary op offset :: ops', offset', steady_empty.stocked, rfl, ?_, ?_, ?_, ?_⟩
    · exact hbars.rooted.of_append.cons fun h => absurd h hne
    · exact List.forall_mem_cons.mpr ⟨rfl, (List.forall_mem_append.mp hbars.closed).2⟩
    · by_cases hop : op.precedence.rank ≤ Precedence.comparison.rank
      · exact ⟨_, List.mem_cons_self, fun _ hp => (bindsBefore_binary.mp hp).trans hop⟩
      · have hnot : b'.bindsBefore op.precedence = false := Bool.eq_false_of_not_eq_true fun hp => hop (hweak _ hp)
        exact ⟨b', List.mem_cons_of_mem _ (hkept b' hb' hnot), hweak⟩
    · rw [hlen]
      exact .binary hholds

theorem Blocked.finish (hm : Blocked m) : m.finish stop ≠ .ok x := by
  intro h
  obtain ⟨c, os, ops, offset, hc, rfl, hbars⟩ := hm
  obtain ⟨b, hb, -⟩ := hbars.weak
  obtain ⟨-, v, -, happly⟩ := hc.finish_onto (List.append_ne_nil_of_right_ne_nil _ (List.cons_ne_nil _ _)) h
  obtain ⟨front, ops', -, hne, hleft, -⟩ :=
    exists_of_applyWhile_bars hbars.rooted hbars.closed (List.ne_nil_of_mem hb) (.inl rfl) happly
  exact hne (List.append_eq_nil_iff.mp hleft.symm).1

/-! ### Both bounds -/

theorem Holds.concat (h : Holds ops n) (hclosed : ∀ b ∈ ops, b.isOpened = false) (op : BinaryOp) (offset : Nat) :
    Holds (ops ++ [.binary op offset]) (n + 1) := by
  induction h with
  | nil => exact .binary .nil
  | unary _ ih => exact .unary (ih (List.forall_mem_cons.mp hclosed).2)
  | binary _ ih => exact .binary (ih (List.forall_mem_cons.mp hclosed).2)
  | opened =>
    cases (List.forall_mem_cons.mp hclosed).1

theorem map_raise (hclosed : ∀ b ∈ ops, b.isOpened = false) (k : Nat) : ops.map (Pending.raise k) = ops := by
  refine (List.map_congr_left fun b hb => ?_).trans (List.map_id ops)
  cases b with
  | opened => cases hclosed _ hb
  | _ => rfl

theorem closed_of_openings (h : openings ops = 0) : ∀ b ∈ ops, b.isOpened = false := by
  intro b hb
  have hnone := List.countP_eq_zero.mp (Int.natCast_eq_zero.mp h) b hb
  exact Bool.eq_false_of_not_eq_true hnone

/-- The `and` of a range finds the lower bound alone, or an operator that keeps the bounds from the `between`. -/
theorem Machine.Performs.and_cases {c : Machine} {offset' : Nat} (hc : c.Steady) (hclosed : Sql.openings c.operators = 0)
    (h : (c.onto (afterBetween e offset)).Performs offset' (.binary .betweenAnd) m') :
    (∃ v, c.finish stop = .ok v ∧ m' = afterAnd v e offset offset') ∨ Blocked m' := by
  have hopen : ∀ b ∈ (afterBetween e offset).operators, b.isOpened = false := List.forall_mem_singleton.mpr rfl
  cases h.over hc.stocked hopen with
  | through _ _ hops hb =>
    cases hops
    cases hb
  | above _ halone =>
    have hstocked := (halone (.inr rfl)).stocked hc.stocked
    cases halone (.inr rfl) with
    | @binary _ os ops hwants happly =>
      cases hops : ops with
      | nil =>
        rw [hops] at happly
        obtain ⟨v, rfl, -⟩ := hc.stocked.exists_single hwants happly
        exact .inl ⟨v, finish_of_applyWhile hwants happly, rfl⟩
      | cons b ops' =>
        right
        obtain ⟨front, hfront, -, hstop⟩ := exists_of_applyWhile happly
        have hrooted := hc.rooted
        rw [hfront] at hrooted
        have hops' : ∀ b ∈ ops, b.isOpened = false := closed_of_openings ((openings_of_applyWhile happly).trans hclosed)
        have hall : ∀ b ∈ .binary .betweenAnd offset' :: ops, b.isOpened = false := List.forall_mem_cons.mpr ⟨rfl, hops'⟩
        obtain ⟨n, hholds, hlen⟩ := hstocked
        have hlen' : (os ++ [Operand.expr e]).length = n + 1 := by
          rw [List.length_append, List.length_singleton, show os.length = n from hlen]
        refine ⟨{}, os ++ [.expr e], .binary .betweenAnd offset' :: ops, offset, steady_empty.stocked, ?_, ?_, hall, ?_, ?_⟩
        · rw [← hops, onto, onto, map_raise hall]
          rfl
        · exact hrooted.of_append.cons fun h => absurd (hops.symm.trans h) (List.cons_ne_nil _ _)
        · have hb : b ∈ ops := hops ▸ List.mem_cons_self
          exact ⟨b, List.mem_cons_of_mem _ hb, weak_of_not_bindsBefore (hops' b hb) (hstop b (hops ▸ rfl))⟩
        · rw [hlen']
          exact hholds.concat hall _ _

/-- Above both bounds an operator that asks for them leaves a `between` on the left. -/
theorem Machine.Runs.afterAnd {offset' : Nat} (h : Runs scope (Sql.afterAnd v e offset offset') ts m')
    (hs : Solvent Token.weight 0 ts) :
    (∃ c, Runs scope {} ts c ∧ m' = c.onto (Sql.afterAnd v e offset offset') ∧ c.Steady) ∨ Spoilt m' := by
  have hopen : ∀ b ∈ (Sql.afterAnd v e offset offset').operators, b.isOpened = false :=
    List.forall_mem_cons.mpr ⟨rfl, List.forall_mem_singleton.mpr rfl⟩
  refine Runs.over Spoilt hopen rfl ?_ (fun hperforms hm => hperforms.spoilt hm) (c := {}) h steady_empty hs
  intro op w b bs operands left offset₁ hops hb happlies hleft hw hop
  cases hops
  cases happlies with
  | binary hne => exact absurd rfl hne
  | range hlow hhigh =>
    -- The operator is no `and` of a range, so it asks for the bounds of the `between` too.
    have hrank : op.precedence.rank ≤ Precedence.comparison.rank := by
      rw [weight_of_toExpr hhigh, Int.zero_add] at hop
      rw [bindsBefore_binary] at hb
      cases op with
      | betweenAnd => cases hop
      | logical op => cases op <;> decide
      | arithmetic op =>
        cases op <;> exact absurd hb (by decide)
      | _ => exact Nat.le_refl _
    rw [applyWhile, if_pos (bindsBefore_binary.mpr hrank)] at hleft
    cases hleft
    exact ⟨{}, _, op, offset₁, steady_empty.stocked, rfl, by rintro r ⟨⟩⟩

theorem toExpr_eq_ok {offset' : Nat} (h : v.toExpr offset = .ok e) : v.toExpr offset' = .ok e :=
  (Operand.agrees_toExpr offset offset' v).eq_ok_iff.mp h

/-- The bounds of a `between` are what stands on both sides of its `and`. -/
theorem Machine.Runs.bounds {front back : List Token} {mark : Token} {r r' : PropertyRef} {low high : Expr} {negated : Bool}
    {table : Option TableId} (h : Runs scope (Sql.afterBetween (.property r) offset) (front ++ mark :: back) m)
    (hmark : mark.kind = .keyword .betweenAnd) (hfront : Solvent Token.weight 0 front) (hback : Solvent Token.weight 0 back)
    (hturn : total Token.turn front = 0) (hx : m.finish stop = .ok x)
    (he : x.toExpr stop = .ok (.between (.property r') low high negated table)) :
    (∃ c v, Runs scope {} front c ∧ c.finish stop = .ok v ∧ v.toExpr stop = .ok low) ∧
      ∃ c v, Runs scope {} back c ∧ c.finish stop = .ok v ∧ v.toExpr stop = .ok high := by
  have hkeyword : ∀ symbol, mark.isOp symbol = false := by
    intro symbol
    simp [Token.isOp, hmark]
  obtain ⟨m₁, hlower, h⟩ := h.split fun t u _ hu => by
    cases hu
    rw [hkeyword, Bool.and_false]
  obtain ⟨c, hc, rfl, hsteady⟩ := Runs.afterBetween (c := {}) hlower steady_empty hfront
  have hclosed : Sql.openings c.operators = 0 := by rw [hc.openings.1, hturn]; rfl
  cases h with
  | call hcall =>
    rw [hmark] at hcall
    cases hcall
  | @push _ m₂ _ _ _ a _ ha hperforms hrest =>
    obtain rfl : .binary .betweenAnd = a := by
      rw [Token.action?, hmark] at ha
      exact Option.some.inj ha
    have hcases : (∃ v, c.finish stop = .ok v ∧ m₂ = Sql.afterAnd v (.property r) offset mark.offset) ∨ Blocked m₂ :=
      hperforms.and_cases hsteady hclosed
    rcases hcases with ⟨v, hv, rfl⟩ | hblocked
    · rcases hrest.afterAnd hback with ⟨d, hd, rfl, hsteady'⟩ | hspoilt
      · obtain ⟨hwants, w, hw, hbelow⟩ := hsteady'.stocked.finish_onto (List.cons_ne_nil _ _) hx
        have hbounds : ∃ o, v.toExpr o = .ok low ∧ w.toExpr o = .ok high := by
          rw [Sql.afterAnd, applyWhile, if_pos rfl] at hbelow
          split at hbelow
          next => cases hbelow
          next happly =>
            cases Pending.apply_eq_ok_iff.mp happly with
            | binary hne => exact absurd rfl hne
            | range hlow hhigh =>
              cases hbelow
              cases he
              exact ⟨_, hlow, hhigh⟩
        obtain ⟨o, hlow, hhigh⟩ := hbounds
        exact ⟨⟨c, v, hc, hv, toExpr_eq_ok hlow⟩, d, w, hd, finish_of_applyWhile hwants hw, toExpr_eq_ok hhigh⟩
      · exact absurd rfl (hspoilt.finish hx he)
    · exact absurd hx (hrest.preserves (fun hperforms hm => hperforms.blocked hm) hblocked).finish

end ItemQuery.Sql
