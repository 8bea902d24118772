import ItemQuery.Proofs.Sql.Joining
import ItemQuery.Sql.Where

/-! What the machine makes of the phrases of an operand. It leaves operands and operators on top of its stacks
    that come to one value once they are applied, whichever operator asks for that; operators that bind weaker
    than anything in the operand stay untouched below. -/

namespace ItemQuery.Sql

/-! ### Strength -/

/-- The rank of a pending operator; an open parenthesis has the lowest. -/
def Pending.strength : Pending → Nat
  | unary .not _ => Precedence.not.rank
  | unary .negate _ => Precedence.negation.rank
  | binary op _ => op.precedence.rank
  | opened _ _ _ => 0

theorem Pending.bindsBefore_of_le {b : Pending} {p : Precedence} (hb : b.isOpened = false) (h : p.rank ≤ b.strength) :
    b.bindsBefore p = true := by
  cases b with
  | unary op offset => cases op <;> simpa [bindsBefore, Precedence.weaker, strength] using h
  | binary op offset => simpa [bindsBefore, Precedence.weaker, strength] using h
  | opened => cases hb

theorem Pending.not_bindsBefore {b : Pending} {p : Precedence} (h : b.isOpened = true ∨ b.strength < p.rank) :
    b.bindsBefore p = false := by
  cases b with
  | unary op offset => cases op <;> simpa [isOpened, bindsBefore, Precedence.weaker, strength] using h
  | binary op offset => simpa [isOpened, bindsBefore, Precedence.weaker, strength] using h
  | opened => rfl

/-- The operator on top binds weaker than `rank`, or is an open parenthesis, and does not ask for a value list. -/
def Below (rank : Nat) (operators : List Pending) : Prop :=
  ∀ b, operators.head? = some b → (b.isOpened = true ∨ b.strength < rank) ∧
    ∀ negated offset, b ≠ .binary (.inList negated) offset

theorem below_nil (rank : Nat) : Below rank [] :=
  nofun

theorem below_opened (rank : Nat) (bracket : Bracket) (height offset : Nat) (operators : List Pending) :
    Below rank (.opened bracket height offset :: operators) := by
  intro b hb
  cases hb
  exact ⟨Or.inl rfl, nofun⟩

theorem Below.mono {rank rank' : Nat} {operators : List Pending} (h : Below rank operators) (hle : rank ≤ rank') :
    Below rank' operators := by
  intro b hb
  obtain ⟨hweak, hlist⟩ := h b hb
  exact ⟨hweak.imp_right fun hlt => Nat.lt_of_lt_of_le hlt hle, hlist⟩

/-- Nothing is applied if the operator on top may stay. -/
theorem applyWhile_of_below {rank : Nat} {operators : List Pending} (h : Below rank operators) {p : Precedence}
    (hp : p.rank = rank) (operands : List Operand) :
    applyWhile (Pending.bindsBefore p) operands operators = .ok (operands, operators) := by
  cases operators with
  | nil => rfl
  | cons b bs =>
    have hb := Pending.not_bindsBefore (hp ▸ (h b rfl).1)
    simp only [applyWhile, hb, Bool.false_eq_true, if_false]

/-! ### Feeding -/

/-- What comes next does not turn a name into a call. -/
def NotOpening (ts : List Token) : Prop :=
  ∀ t, ts.head? = some t → t.phrase ≠ .symbol "("

theorem isOp_of_phrase {t : Token} {shown : String} : t.isOp shown = true ↔ t.phrase = .symbol shown := by
  obtain ⟨kind, text, offset⟩ := t
  cases kind <;> simp [Token.isOp, Token.phrase, Phrase.of]

theorem feed_cons {scope : Scope} {m : Machine} {t : Token} {rest : List Token}
    (h : (∃ shown, t.phrase = .name shown) → NotOpening rest) :
    m.feed scope (t :: rest) = m.push scope t >>= fun m => m.feed scope rest := by
  cases rest with
  | nil =>
    simp only [Machine.feed]
    cases m.push scope t <;> rfl
  | cons u rest =>
    have hcall : (t.kind == .identifier && u.isOp "(") = false := by
      rw [Bool.and_eq_false_iff]
      by_cases hname : t.kind = .identifier
      · right
        rw [← Bool.not_eq_true, isOp_of_phrase]
        exact h ⟨t.text, by rw [Token.phrase, hname, Phrase.of]⟩ u rfl
      · left
        exact beq_eq_false_iff_ne.mpr hname
    rw [Machine.feed, if_neg (by rw [hcall]; decide)]
    cases m.push scope t <;> rfl

/-! ### Operands -/

/-- The phrases `ps` are read as the operand `a`. Operators of at least the strength `low` are left pending, and
    nothing is read wrongly above an operator that is weaker than `reach`. -/
def Reads (scope : Scope) (ps : List Phrase) (a : Operand) (low reach : Nat) : Prop :=
  ∀ (ts rest : List Token) (operands : List Operand) (operators : List Pending), ts.map Token.phrase = ps →
    Below reach operators → NotOpening rest →
    ∃ A B, Machine.feed scope ⟨operands, operators, true⟩ (ts ++ rest)
        = Machine.feed scope ⟨A ++ operands, B ++ operators, false⟩ rest ∧
      (∀ b ∈ B, b.isOpened = false ∧ low ≤ b.strength) ∧
      ∀ p : Pending → Bool, (∀ b ∈ B, p b = true) →
        applyWhile p (A ++ operands) (B ++ operators) = applyWhile p (a :: operands) operators

section
variable {scope : Scope}

theorem Reads.mono {ps : List Phrase} {a : Operand} {low low' reach reach' : Nat} (h : Reads scope ps a low reach)
    (hlow : low' ≤ low) (hreach : reach' ≤ reach) : Reads scope ps a low' reach' := by
  intro ts rest operands operators hts hbelow hrest
  obtain ⟨A, B, hfeed, hB, happly⟩ := h ts rest operands operators hts (hbelow.mono hreach) hrest
  exact ⟨A, B, hfeed, fun b hb => ⟨(hB b hb).1, Nat.le_trans hlow (hB b hb).2⟩, happly⟩

/-- A token that is a value. -/
theorem reads_atom {p : Phrase} {a : Operand} (low reach : Nat)
    (hpush : ∀ (t : Token) (m : Machine), t.phrase = p → m.wantsValue = true →
      m.push scope t = .ok { m with operands := a :: m.operands, wantsValue := false }) :
    Reads scope [p] a low reach := by
  intro ts rest operands operators hts _ hrest
  obtain ⟨t, rfl, ht⟩ := List.map_eq_singleton_iff.mp hts
  refine ⟨[a], [], ?_, nofun, fun _ _ => rfl⟩
  rw [List.singleton_append, feed_cons fun _ => hrest, hpush t _ ht rfl]
  rfl

/-! ### Parentheses and operators before an operand -/

theorem push_open {t : Token} {m : Machine} (ht : t.phrase = .symbol "(") (hm : m.wantsValue = true) :
    m.push scope t = .ok (m.openBracket m.bracketHere t.offset) := by
  obtain ⟨hkind, htext⟩ := t.kind_of_symbol ht
  simp only [Machine.push, hkind, Machine.pushSymbol, htext, if_true, Machine.requireValue, hm]
  rfl

theorem push_close {t : Token} {m : Machine} (ht : t.phrase = .symbol ")") :
    m.push scope t = m.closeBracket t.offset := by
  obtain ⟨hkind, htext⟩ := t.kind_of_symbol ht
  simp only [Machine.push, hkind, Machine.pushSymbol, htext, String.reduceEq, if_false, if_true]

theorem push_comma {t : Token} {m : Machine} (ht : t.phrase = .symbol ",") : m.push scope t = m.pushComma t := by
  obtain ⟨hkind, htext⟩ := t.kind_of_symbol ht
  simp only [Machine.push, hkind, Machine.pushSymbol, htext, String.reduceEq, if_false, if_true]

theorem push_minus {t : Token} {m : Machine} (ht : t.phrase = .symbol "-") (hm : m.wantsValue = true) :
    m.push scope t = .ok (m.pushUnary .negate t.offset) := by
  obtain ⟨hkind, htext⟩ := t.kind_of_symbol ht
  simp only [Machine.push, hkind, Machine.pushSymbol, htext, String.reduceEq, if_false, hm, and_self, if_true]

theorem push_not {t : Token} {m : Machine} (ht : t.phrase = .word .not) (hm : m.wantsValue = true) :
    m.push scope t = .ok (m.pushUnary .not t.offset) := by
  simp only [Machine.push, t.kind_of_word ht, Machine.pushKeyword, Machine.requireValue, hm, if_true]
  rfl

/-- Everything above an open parenthesis is applied. -/
theorem reduceToBracket_of {A R : List Operand} {B operators : List Pending} {bracket : Bracket} {height offset : Nat}
    (hB : ∀ b ∈ B, b.isOpened = false)
    (happly : ∀ p : Pending → Bool, (∀ b ∈ B, p b = true) →
      applyWhile p A (B ++ .opened bracket height offset :: operators)
        = applyWhile p R (.opened bracket height offset :: operators)) (stop : Nat) :
    Machine.reduceToBracket ⟨A, B ++ .opened bracket height offset :: operators, false⟩ stop
      = .ok ⟨R, .opened bracket height offset :: operators, false⟩ := by
  have hall : ∀ b ∈ B, (!b.isOpened) = true := fun b hb => by rw [hB b hb]; rfl
  rw [Machine.reduceToBracket, Machine.reduceWhile, happly (fun b => !b.isOpened) hall]
  rfl

/-- Closing after an operand: what lies above the height of the parenthesis becomes its value. -/
theorem closeBracket_of {m : Machine} (hm : m.wantsValue = false) {operands : List Operand} {operators : List Pending}
    {bracket : Bracket} {height opening offset : Nat} {value : Operand}
    (hreduce : m.reduceToBracket offset = .ok ⟨operands, .opened bracket height opening :: operators, false⟩)
    (hvalue : Machine.bracketValue bracket (operands.take (operands.length - height)).reverse offset = .ok value) :
    m.closeBracket offset = .ok ⟨value :: operands.drop (operands.length - height), operators, false⟩ := by
  have hfresh : m.isFreshlyOpened = false := by
    unfold Machine.isFreshlyOpened
    split
    · rw [hm, Bool.false_and]
    · rfl
  simp only [Machine.closeBracket, hfresh, hm, Bool.false_eq_true, if_false, hreduce, hvalue, bind, Except.bind, pure,
    Except.pure]

/-- An operand in parentheses is read as it is, above any operator. -/
theorem Reads.enclosed {ps : List Phrase} {a : Operand} {low : Nat} (h : Reads scope ps a low 0) (low' reach : Nat) :
    Reads scope (.symbol "(" :: (ps ++ [.symbol ")"])) a low' reach := by
  intro ts rest operands operators hts hbelow hrest
  obtain ⟨t, ts, rfl, ht, hts⟩ := List.map_eq_cons_iff.mp hts
  obtain ⟨inner, last, rfl, hinner, hlast⟩ := List.map_eq_append_iff.mp hts
  obtain ⟨t', rfl, ht'⟩ := List.map_eq_singleton_iff.mp hlast
  have hgroup : Machine.bracketHere ⟨operands, operators, true⟩ = .group := by
    unfold Machine.bracketHere
    split
    · rename_i hop
      exact absurd rfl ((hbelow _ (congrArg List.head? hop)).2 _ _)
    · rfl
  have hname : (∃ shown, t.phrase = .name shown) → NotOpening (inner ++ [t'] ++ rest) := by
    rintro ⟨shown, hshown⟩
    rw [ht] at hshown
    cases hshown
  have hclose : NotOpening (t' :: rest) := by
    intro u hu
    cases hu
    rw [ht']
    nofun
  obtain ⟨A, B, hfeed, hB, happly⟩ := h inner (t' :: rest) operands
    (.opened .group operands.length t.offset :: operators) hinner (below_opened _ _ _ _ _) hclose
  have hreduce := reduceToBracket_of (fun b hb => (hB b hb).1) happly t'.offset
  have hcount : (a :: operands).length - operands.length = 1 := by
    rw [List.length_cons]
    omega
  have hvalue : Machine.bracketValue .group
      ((a :: operands).take ((a :: operands).length - operands.length)).reverse t'.offset = .ok a := by
    rw [hcount]
    rfl
  refine ⟨[a], [], ?_, nofun, fun _ _ => rfl⟩
  rw [List.cons_append, feed_cons hname, push_open ht rfl, hgroup]
  change Machine.feed scope ⟨operands, .opened .group operands.length t.offset :: operators, true⟩ _ = _
  rw [List.append_assoc, List.singleton_append, hfeed]
  rw [feed_cons (fun ⟨shown, hshown⟩ => by rw [ht'] at hshown; cases hshown), push_close ht',
    closeBracket_of rfl hreduce hvalue,
    hcount]
  rfl

/-- An operator before an operand that binds stronger than it. -/
theorem Reads.unary {ps : List Phrase} {p : Phrase} {op : UnaryOp} {e result : Expr} {low reach strength : Nat}
    (hp : ∀ shown, p ≠ .name shown)
    (hpush : ∀ (t : Token) (m : Machine), t.phrase = p → m.wantsValue = true →
      m.push scope t = .ok (m.pushUnary op t.offset))
    (hstrength : ∀ offset, (Pending.unary op offset).strength = strength)
    (hresult : ∀ offset operands,
      (Pending.unary op offset).apply (.expr e :: operands) = .ok (.expr result :: operands))
    (h : Reads scope ps (.expr e) low reach) (hlow : strength ≤ low) (hreach : strength < reach) (reach' : Nat) :
    Reads scope (p :: ps) (.expr result) strength reach' := by
  intro ts rest operands operators hts _ hrest
  obtain ⟨t, ts, rfl, ht, hts⟩ := List.map_eq_cons_iff.mp hts
  have hbelow : Below reach (.unary op t.offset :: operators) := by
    intro b hb
    cases hb
    exact ⟨Or.inr (by rwa [hstrength]), nofun⟩
  obtain ⟨A, B, hfeed, hB, happly⟩ := h ts rest operands _ hts hbelow hrest
  refine ⟨A, B ++ [.unary op t.offset], ?_, ?_, ?_⟩
  · rw [List.cons_append, feed_cons (fun ⟨shown, hshown⟩ => absurd (ht.symm.trans hshown) (hp shown)),
      hpush t _ ht rfl, List.append_assoc]
    exact hfeed
  · intro b hb
    rcases List.mem_append.mp hb with hb | hb
    · exact ⟨(hB b hb).1, Nat.le_trans hlow (hB b hb).2⟩
    · cases List.mem_singleton.mp hb
      exact ⟨rfl, Nat.le_of_eq (hstrength _).symm⟩
  · intro q hq
    have hlast : q (.unary op t.offset) = true := hq _ (List.mem_append_right _ (List.mem_singleton_self _))
    rw [List.append_assoc, List.singleton_append, happly q fun b hb => hq b (List.mem_append_left _ hb)]
    simp only [applyWhile, hlast, if_true, hresult]

/-! ### Operators between operands -/

/-- The phrase is a binary operator where an operator is expected. -/
structure Operates (scope : Scope) (p : Phrase) (op : BinaryOp) : Prop where
  ne_name : ∀ shown, p ≠ .name shown
  ne_open : p ≠ .symbol "("
  push : ∀ (t : Token) (m : Machine), t.phrase = p → m.wantsValue = false → m.push scope t = m.pushBinary op t

/-- The left operand is complete when an operator that is not stronger comes. -/
theorem pushBinary_of (op : BinaryOp) {A operands : List Operand} {B operators : List Pending} {a : Operand} {low : Nat}
    (hB : ∀ b ∈ B, b.isOpened = false ∧ low ≤ b.strength) (hlow : op.precedence.rank ≤ low)
    (happly : ∀ p : Pending → Bool, (∀ b ∈ B, p b = true) →
      applyWhile p (A ++ operands) (B ++ operators) = applyWhile p (a :: operands) operators)
    (hbelow : Below op.precedence.rank operators) (t : Token) :
    Machine.pushBinary ⟨A ++ operands, B ++ operators, false⟩ op t
      = .ok ⟨a :: operands, .binary op t.offset :: operators, true⟩ := by
  have hall : ∀ b ∈ B, b.bindsBefore op.precedence = true := fun b hb =>
    Pending.bindsBefore_of_le (hB b hb).1 (Nat.le_trans hlow (hB b hb).2)
  rw [Machine.pushBinary, Machine.requireOperator, Machine.reduceWhile, happly _ hall, applyWhile_of_below hbelow rfl]
  rfl

/-- Two operands with an operator between them: the left one may end with operators of the same strength, the
    right one is read above the operator. -/
theorem Reads.binary {ps qs : List Phrase} {p : Phrase} {op : BinaryOp} {a b c : Operand} {low reach low' reach' : Nat}
    (hp : Operates scope p op) (hl : Reads scope ps a low reach) (hr : Reads scope qs b low' reach')
    (hlow : op.precedence.rank ≤ low) (hreach : op.precedence.rank ≤ reach) (hlow' : op.precedence.rank ≤ low')
    (hreach' : op.precedence.rank < reach') (hlist : ∀ negated, op ≠ .inList negated)
    (hresult : ∀ offset operands, (Pending.binary op offset).apply (b :: a :: operands) = .ok (c :: operands)) :
    Reads scope (ps ++ p :: qs) c op.precedence.rank op.precedence.rank := by
  intro ts rest operands operators hts hbelow hrest
  obtain ⟨left, ts, rfl, hleft, hts⟩ := List.map_eq_append_iff.mp hts
  obtain ⟨t, right, rfl, ht, hright⟩ := List.map_eq_cons_iff.mp hts
  have hname : ∀ shown, t.phrase ≠ .name shown := fun shown => by
    rw [ht]
    exact hp.ne_name shown
  have hnext : NotOpening (t :: (right ++ rest)) := by
    intro u hu
    cases hu
    rw [ht]
    exact hp.ne_open
  obtain ⟨A, B, hfeed, hB, happly⟩ := hl left (t :: (right ++ rest)) operands operators hleft (hbelow.mono hreach) hnext
  have hbelow' : Below reach' (.binary op t.offset :: operators) := by
    intro d hd
    cases hd
    refine ⟨Or.inr hreach', fun negated offset hd => ?_⟩
    cases hd
    exact hlist negated rfl
  obtain ⟨A', B', hfeed', hB', happly'⟩ := hr right rest (a :: operands) _ hright hbelow' hrest
  refine ⟨A' ++ [a], B' ++ [.binary op t.offset], ?_, ?_, ?_⟩
  · rw [List.append_assoc, List.cons_append, hfeed, feed_cons (fun ⟨shown, hshown⟩ => absurd hshown (hname shown)),
      hp.push t _ ht rfl, pushBinary_of op hB hlow happly hbelow, List.append_assoc, List.append_assoc]
    exact hfeed'
  · intro d hd
    rcases List.mem_append.mp hd with hd | hd
    · exact ⟨(hB' d hd).1, Nat.le_trans hlow' (hB' d hd).2⟩
    · cases List.mem_singleton.mp hd
      exact ⟨rfl, Nat.le_refl _⟩
  · intro q hq
    have hlast : q (.binary op t.offset) = true := hq _ (List.mem_append_right _ (List.mem_singleton_self _))
    rw [List.append_assoc, List.append_assoc, List.singleton_append, List.singleton_append,
      happly' q fun d hd => hq d (List.mem_append_left _ hd)]
    simp only [applyWhile, hlast, if_true, hresult]

/-! ### Value lists -/

theorem mapM_toExpr (offset : Nat) (es : List Expr) : (es.map Operand.expr).mapM (Operand.toExpr offset) = .ok es := by
  induction es with
  | nil => rfl
  | cons e es ih =>
    rw [List.map_cons, List.mapM_cons, ih]
    rfl

/-- The items of a value list come to lie on top of each other. -/
theorem feed_commaList {said : List (List Phrase)} {low : Nat} {es : List Expr} (hne : es ≠ [])
    (h : List.Forall₂ (fun ps e => Reads scope ps (.expr e) low 0) said es) (ts rest : List Token)
    (operands : List Operand) (height offset : Nat) (operators : List Pending) (hts : ts.map Token.phrase = commaList said)
    (hrest : NotOpening rest) :
    ∃ A B, Machine.feed scope ⟨operands, .opened .inList height offset :: operators, true⟩ (ts ++ rest)
        = Machine.feed scope ⟨A, B ++ .opened .inList height offset :: operators, false⟩ rest ∧
      (∀ b ∈ B, b.isOpened = false) ∧ ∀ p : Pending → Bool, (∀ b ∈ B, p b = true) →
        applyWhile p A (B ++ .opened .inList height offset :: operators)
          = applyWhile p ((es.map Operand.expr).reverse ++ operands) (.opened .inList height offset :: operators) := by
  induction h generalizing ts operands with
  | nil => exact absurd rfl hne
  | @cons ps e said es hfirst hothers ih =>
    cases hothers with
    | nil =>
      obtain ⟨A, B, hfeed, hB, happly⟩ := hfirst ts rest operands _ hts (below_opened _ _ _ _ _) hrest
      exact ⟨A ++ operands, B, hfeed, fun b hb => (hB b hb).1, happly⟩
    | cons hnext hothers =>
      obtain ⟨first, ts, rfl, hfirsts, hts⟩ := List.map_eq_append_iff.mp hts
      obtain ⟨t, ts, rfl, ht, hts⟩ := List.map_eq_cons_iff.mp hts
      have hcomma : NotOpening (t :: (ts ++ rest)) := by
        intro u hu
        cases hu
        rw [ht]
        decide
      obtain ⟨A, B, hfeed, hB, happly⟩ := hfirst first (t :: (ts ++ rest)) operands _ hfirsts
        (below_opened _ _ _ _ _) hcomma
      obtain ⟨A', B', hfeed', hB', happly'⟩ := ih nofun ts (.expr e :: operands) hts
      refine ⟨A', B', ?_, hB', ?_⟩
      · have hreduce := reduceToBracket_of (fun b hb => (hB b hb).1) happly t.offset
        rw [List.append_assoc, List.cons_append, hfeed,
          feed_cons (fun ⟨shown, hshown⟩ => by rw [ht] at hshown; cases hshown), push_comma ht, Machine.pushComma,
          Machine.requireOperator, hreduce]
        exact hfeed'
      · intro p hp
        rw [happly' p hp]
        simp only [List.map_cons, List.reverse_cons, List.append_assoc, List.cons_append, List.nil_append]

/-- The closed value list. -/
theorem closeBracket_inList {A operands : List Operand} {B operators : List Pending} {es : List Expr} {offset : Nat}
    (hB : ∀ b ∈ B, b.isOpened = false)
    (happly : ∀ p : Pending → Bool, (∀ b ∈ B, p b = true) →
      applyWhile p A (B ++ .opened .inList operands.length offset :: operators)
        = applyWhile p ((es.map Operand.expr).reverse ++ operands) (.opened .inList operands.length offset :: operators))
    (stop : Nat) :
    Machine.closeBracket ⟨A, B ++ .opened .inList operands.length offset :: operators, false⟩ stop
      = .ok ⟨.list es :: operands, operators, false⟩ := by
  have hcount : ((es.map Operand.expr).reverse ++ operands).length - operands.length
      = (es.map Operand.expr).reverse.length := by
    rw [List.length_append]
    omega
  have hvalue : Machine.bracketValue .inList (((es.map Operand.expr).reverse ++ operands).take
      (((es.map Operand.expr).reverse ++ operands).length - operands.length)).reverse stop = .ok (.list es) := by
    rw [hcount, List.take_left, List.reverse_reverse, Machine.bracketValue, mapM_toExpr]
    rfl
  rw [closeBracket_of rfl (reduceToBracket_of hB happly stop) hvalue, hcount, List.drop_left]

/-- An operand and a value list. -/
theorem Reads.inList {ps : List Phrase} {p : Phrase} {negated : Bool} {l : Expr} {low reach low' : Nat}
    {said : List (List Phrase)} {es : List Expr} (hp : Operates scope p (.inList negated))
    (hl : Reads scope ps (.expr l) low reach) (hlow : Precedence.comparison.rank ≤ low)
    (hreach : Precedence.comparison.rank ≤ reach) (hne : es ≠ [])
    (hes : List.Forall₂ (fun ps e => Reads scope ps (.expr e) low' 0) said es) :
    Reads scope (ps ++ p :: .symbol "(" :: (commaList said ++ [.symbol ")"])) (.expr (.inList l es negated none))
      Precedence.comparison.rank Precedence.comparison.rank := by
  intro ts rest operands operators hts hbelow hrest
  obtain ⟨left, ts, rfl, hleft, hts⟩ := List.map_eq_append_iff.mp hts
  obtain ⟨t, ts, rfl, ht, hts⟩ := List.map_eq_cons_iff.mp hts
  obtain ⟨open', ts, rfl, hopen, hts⟩ := List.map_eq_cons_iff.mp hts
  obtain ⟨items, last, rfl, hitems, hlast⟩ := List.map_eq_append_iff.mp hts
  obtain ⟨close, rfl, hclose⟩ := List.map_eq_singleton_iff.mp hlast
  have hnext : NotOpening (t :: open' :: (items ++ close :: rest)) := by
    intro u hu
    cases hu
    rw [ht]
    exact hp.ne_open
  have hend : NotOpening (close :: rest) := by
    intro u hu
    cases hu
    rw [hclose]
    decide
  obtain ⟨A, B, hfeed, hB, happly⟩ := hl left _ operands operators hleft (hbelow.mono hreach) hnext
  obtain ⟨A', B', hfeed', hB', happly'⟩ := feed_commaList hne hes items (close :: rest) (.expr l :: operands)
    (Operand.expr l :: operands).length open'.offset (.binary (.inList negated) t.offset :: operators) hitems hend
  have hbinary := pushBinary_of (.inList negated) hB hlow happly hbelow t
  refine ⟨[.list es, .expr l], [.binary (.inList negated) t.offset], ?_, ?_, ?_⟩
  · simp only [List.append_assoc, List.cons_append, List.nil_append]
    rw [hfeed, feed_cons (fun ⟨shown, hshown⟩ => absurd (ht.symm.trans hshown) (hp.ne_name shown)), hp.push t _ ht rfl,
      hbinary]
    change Machine.feed scope ⟨.expr l :: operands, .binary (.inList negated) t.offset :: operators, true⟩ _ = _
    rw [feed_cons (fun ⟨shown, hshown⟩ => by rw [hopen] at hshown; cases hshown), push_open hopen rfl]
    change Machine.feed scope ⟨.expr l :: operands, .opened .inList (Operand.expr l :: operands).length open'.offset ::
      .binary (.inList negated) t.offset :: operators, true⟩ _ = _
    rw [hfeed', feed_cons (fun ⟨shown, hshown⟩ => by rw [hclose] at hshown; cases hshown), push_close hclose,
      closeBracket_inList hB' happly']
    rfl
  · intro b hb
    cases List.mem_singleton.mp hb
    exact ⟨rfl, Nat.le_refl _⟩
  · intro q hq
    have hlast : q (.binary (.inList negated) t.offset) = true := hq _ (List.mem_singleton_self _)
    simp only [List.cons_append, List.nil_append, applyWhile, hlast, if_true]
    rfl

/-! ### Whole texts -/

theorem filter_isComment {ts : List Token} (h : Phrase.comment ∉ ts.map Token.phrase) :
    ts.filter (!·.isComment) = ts := by
  rw [List.filter_eq_self]
  intro t ht
  have hkind : t.kind ≠ .comment := by
    intro hkind
    refine h (List.mem_map.mpr ⟨t, ht, ?_⟩)
    rw [Token.phrase, hkind, Phrase.of]
  simpa [Token.isComment] using hkind

theorem Reads.parseTokens {ts : List Token} {e : Expr} {low reach : Nat}
    (h : Reads scope (ts.map Token.phrase) (.expr e) low reach) (hcomment : Phrase.comment ∉ ts.map Token.phrase)
    (stop : Nat) : parseTokens scope ts stop = .ok e := by
  obtain ⟨A, B, hfeed, -, happly⟩ := h ts [] [] [] rfl (below_nil reach) nofun
  have hlast := happly (fun _ => true) fun _ _ => rfl
  rw [Sql.parseTokens, filter_isComment hcomment]
  simp only [List.append_nil] at hfeed hlast
  simp only [hfeed, Machine.feed, bind, Except.bind, Machine.finish, hlast, applyWhile, Bool.false_and,
    Bool.false_eq_true, if_false]
  rfl

end

/-- The expression of a text whose phrases are read as an operand. -/
theorem parseWhere_of_reads {q : Query} {table : TableId} {sql : String} {ps : List Phrase} {e : Expr} {low reach : Nat}
    {quiet : Bool} (hscan : Scanned sql.toList (ps.flatMap Phrase.split)) (hspoken : Spoken quiet ps)
    (hreads : Reads (.ofTable q table) ps (.expr e) low reach) : parseWhere q table sql = .ok e := by
  have hjoins : Joins false ps := by
    cases quiet with
    | true => exact hspoken.joins.mono false
    | false => exact hspoken.joins
  obtain ⟨ts, hts, rfl⟩ := tokenize_of_scanned hscan hjoins
  rw [parseWhere, hts]
  exact hreads.parseTokens hspoken.comment_notMem sql.utf8ByteSize

end ItemQuery.Sql
