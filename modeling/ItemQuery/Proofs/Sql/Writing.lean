import Mathlib.Data.List.Forall2
import Mathlib.Tactic.Choose
import ItemQuery.Proofs.Expr.Grouping
import ItemQuery.Proofs.Pattern.WildcardText
import ItemQuery.Proofs.Sql.Atoms

/-! The text of an expression is read as the expression. `Written` are the expressions that texts can say; in a
    strict one nothing is recorded that a text does not show, and no chain continues on the right without
    parentheses. The proof follows the expression: operands, with parentheses where they need them, and the
    operators between them. -/

namespace ItemQuery.Sql

/-! ### Expressions -/

section
variable (table : TableId) (names : String → Prop) (strict : Bool)

/-- Criteria and arithmetic over the properties of a table and the parameters of some `names`. The operands of
    connectives and of `not` are predicates, and patterns come from wildcard texts. -/
inductive Written : Expr → Prop
  | property {name : String} (h : name ≠ "*") : Written (.prop table name)
  | integer {n : Int64} (h : 0 ≤ n) : Written (.int n)
  | text (s : String) : Written (.text s)
  | parameter {name : String} (h : names name) : Written (.parameter (.named name) none false)
  | comparison {op : ComparisonOp} {l r : Expr} (hl : Written l) (hr : Written r) : Written (.comparison op l r)
  | like {l : Expr} {p : Pattern} {negated : Bool} {value : String} (hl : Written l)
      (hp : Pattern.ofWildcard .sqlServer value = .ok p) : Written (.like l (.pattern p) negated)
  | between {l low high : Expr} {negated : Bool} {recorded : Option TableId} (hl : Written l) (hlow : Written low)
      (hhigh : Written high) (hrecorded : strict = true → recorded = none) :
      Written (.between l low high negated recorded)
  | inList {l : Expr} {items : List Expr} {negated : Bool} {recorded : Option TableId} (hl : Written l)
      (hne : items ≠ []) (hitems : ∀ e ∈ items, Written e) (hrecorded : strict = true → recorded = none) :
      Written (.inList l items negated recorded)
  | is {l : Expr} {operand : IsOperand} (hl : Written l) (h : operand = .null ∨ operand = .notNull) :
      Written (.is l operand)
  | arithmetic {op : ArithmeticOp} {l r : Expr} (hop : op ≠ .concat) (hl : Written l) (hr : Written r)
      (hright : strict = true → op.isAssociative = true → r.precedence ≠ op.precedence) :
      Written (.arithmetic op l r)
  | negate {e : Expr} (h : Written e) : Written (.negate e)
  | not {e : Expr} (h : Written e) (hpredicate : e.isPredicate = true) : Written (.not e)
  | logical {op : LogicalOp} {l r : Expr} (hl : Written l) (hr : Written r) (hleft : l.isPredicate = true)
      (hpredicate : r.isPredicate = true) (hright : strict = true → r.precedence ≠ op.precedence) :
      Written (.logical op l r)

end

theorem property?_of_isPredicate {e : Expr} (h : e.isPredicate = true) : e.property? = none := by
  cases e <;> first | rfl | cases h

/-- What is not a property is written as it is where a condition is expected. -/
theorem Written.asCondition {table : TableId} {names : String → Prop} {strict : Bool} {e : Expr}
    (h : Written table names strict e) (hproperty : e.property? = none) (w : Writer) (shown : String) :
    w.asCondition e shown = shown := by
  cases h <;> first | rfl | cases hproperty

/-! ### Texts between operands -/

/-- A word or symbol between blanks is read as an operator. -/
structure Stands (scope : Scope) (shown : String) (p : Phrase) (op : BinaryOp) : Prop where
  prints : ∀ {cs ds : List Char} {ps qs : List Phrase}, Prints cs ps → Prints ds qs →
    Prints (cs ++ ' ' :: (shown.toList ++ ' ' :: ds)) (ps ++ (p.split ++ qs))
  operates : Operates scope p op

theorem stands_of_word {scope : Scope} {shown : String} {p : Phrase} {op : BinaryOp}
    (hprints : Prints shown.toList p.split) (h : Operates scope p op) : Stands scope shown p op :=
  ⟨fun hcs hds => hcs.spaced (hprints.spaced hds), h⟩

theorem operates_word (scope : Scope) {k : Keyword} {op : BinaryOp} (h : BinaryOp.ofKeyword? k = some op)
    (hk : k ≠ .not ∧ k ≠ .null) : Operates scope (.word k) op where
  ne_name := nofun
  ne_open := nofun
  push t m ht _ := by
    simp only [Machine.push, t.kind_of_word ht, Machine.pushKeyword]
    split
    · exact absurd rfl hk.2
    · exact absurd rfl hk.1
    · rw [h]

theorem operates_symbol (scope : Scope) {shown : String} {op : BinaryOp} (h : BinaryOp.ofSymbol? shown = some op)
    (hshown : shown ≠ "(" ∧ shown ≠ ")" ∧ shown ≠ "," ∧ shown ≠ ";") : Operates scope (.symbol shown) op where
  ne_name := nofun
  ne_open := by
    rintro ⟨⟩
    exact hshown.1 rfl
  push t m ht hm := by
    obtain ⟨hkind, htext⟩ := t.kind_of_symbol ht
    simp only [Machine.push, hkind, Machine.pushSymbol, htext, hshown.1, hshown.2.1, hshown.2.2.1, hshown.2.2.2, hm,
      Bool.false_eq_true, and_false, if_false, h]

theorem stands_comparison (scope : Scope) (op : ComparisonOp) :
    Stands scope op.symbol (.symbol op.symbol) (.comparison op) where
  prints hcs hds := by
    refine prints_operator (by cases op <;> decide) (fun c hc => ?_) (fun cs => by cases op <;> rfl) hcs hds
    cases op <;> cases hc <;> rfl
  operates := operates_symbol scope (by cases op <;> rfl) (by cases op <;> decide)

theorem stands_arithmetic (scope : Scope) (op : ArithmeticOp) :
    Stands scope op.symbol (.symbol op.symbol) (.arithmetic op) where
  prints hcs hds := by
    refine prints_operator (by cases op <;> decide) (fun c hc => ?_) (fun cs => by cases op <;> rfl) hcs hds
    cases op <;> cases hc <;> rfl
  operates := operates_symbol scope (by cases op <;> rfl) (by cases op <;> decide)

/-- The word of a connective. -/
def connective : LogicalOp → Keyword
  | .and => .and
  | .or => .or

theorem stands_logical (scope : Scope) (op : LogicalOp) :
    Stands scope op.keyword (.word (connective op)) (.logical op) := by
  cases op
  · exact stands_of_word (prints_word (by decide)) (operates_word scope rfl ⟨nofun, nofun⟩)
  · exact stands_of_word (prints_word (by decide)) (operates_word scope rfl ⟨nofun, nofun⟩)

/-- A word that may be negated. -/
theorem prints_negatable {word : String} {k joined : Keyword} (hword : Prints word.toList [.word k])
    (hjoined : (Phrase.word joined).split = [.word .not, .word k]) (hsingle : (Phrase.word k).split = [.word k])
    (negated : Bool) :
    Prints (Expr.negatable negated word).toList (Phrase.word (if negated then joined else k)).split := by
  cases negated with
  | false => rwa [Expr.negatable, if_neg Bool.false_ne_true, if_neg Bool.false_ne_true, hsingle]
  | true =>
    have hnot : Prints "not".toList [.word .not] := prints_word (by decide)
    have hlist : (Expr.negatable true word).toList = "not".toList ++ ' ' :: word.toList := by
      simp [Expr.negatable]
    rw [hlist, if_pos rfl, hjoined]
    exact hnot.spaced hword

theorem stands_like (scope : Scope) (negated : Bool) :
    Stands scope (Expr.negatable negated "like") (.word (if negated then .notLike else .like)) (.like negated) := by
  have hlike : Prints "like".toList [.word .like] := prints_word (by decide)
  refine stands_of_word (prints_negatable hlike rfl rfl negated) ?_
  cases negated <;> exact operates_word scope rfl ⟨nofun, nofun⟩

theorem stands_between (scope : Scope) (negated : Bool) :
    Stands scope (Expr.negatable negated "between") (.word (if negated then .notBetween else .between))
      (.between negated) := by
  have hbetween : Prints "between".toList [.word .between] := prints_word (by decide)
  refine stands_of_word (prints_negatable hbetween rfl rfl negated) ?_
  cases negated <;> exact operates_word scope rfl ⟨nofun, nofun⟩

theorem stands_betweenAnd (scope : Scope) : Stands scope "and" (.word .betweenAnd) .betweenAnd :=
  stands_of_word (prints_word (by decide)) (operates_word scope rfl ⟨nofun, nofun⟩)

/-! ### Operands -/

/-- A text gives phrases that are read as an operand. -/
structure Conveys (scope : Scope) (s : String) (ps : List Phrase) (a : Operand) (quiet : Bool) (low reach : Nat) :
    Prop where
  prints : Prints s.toList (ps.flatMap Phrase.split)
  spoken : Spoken quiet ps
  reads : Reads scope ps a low reach

/-- The rank of the operators that may stand before an expression without parentheses is below this. Only `not`
    may stand before an expression of its own level. -/
def reach : Expr → Nat
  | .not _ => Precedence.comparison.rank
  | e => e.precedence.rank

theorem rank_le_reach (e : Expr) : e.precedence.rank ≤ reach e := by
  unfold reach
  split
  · exact (by decide : Precedence.not.rank ≤ Precedence.comparison.rank)
  · exact Nat.le_refl _

/-- What an expression says by itself. -/
def Says (scope : Scope) (e : Expr) (s : String) (ps : List Phrase) : Prop :=
  Conveys scope s ps (.expr e) (decide (Precedence.comparison.rank ≤ e.precedence.rank)) e.precedence.rank (reach e)

theorem says_of_quiet {scope : Scope} {e : Expr} {s : String} {ps : List Phrase}
    (hquiet : Precedence.comparison.rank ≤ e.precedence.rank)
    (h : Conveys scope s ps (.expr e) true e.precedence.rank (reach e)) : Says scope e s ps := by
  rwa [Says, decide_eq_true hquiet]

theorem says_of_loud {scope : Scope} {e : Expr} {s : String} {ps : List Phrase}
    (hquiet : e.precedence.rank < Precedence.comparison.rank)
    (h : Conveys scope s ps (.expr e) false e.precedence.rank (reach e)) : Says scope e s ps := by
  rwa [Says, decide_eq_false (Nat.not_le.mpr hquiet)]

theorem Spoken.any {quiet : Bool} {ps : List Phrase} (h : Spoken quiet ps) : Spoken false ps := by
  cases quiet with
  | true => exact h.loud
  | false => exact h

section
variable {scope : Scope}

theorem Conveys.enclosed {s : String} {ps : List Phrase} {e : Expr} {quiet : Bool} {low high : Nat}
    (h : Conveys scope s ps (.expr e) quiet low high) (low' high' : Nat) :
    Conveys scope ("(" ++ s ++ ")") (.symbol "(" :: (ps ++ [.symbol ")"])) (.expr e) true low' high' where
  prints := by
    have hprints := h.prints.enclosed
    have hlist : ("(" ++ s ++ ")").toList = '(' :: (s.toList ++ [')']) := by
      simp
    rw [hlist]
    simpa only [List.flatMap_cons, List.flatMap_append, List.flatMap_nil, Phrase.split, List.singleton_append,
      List.append_nil] using hprints
  spoken := .enclosed h.spoken.any
  reads := (h.reads.mono (Nat.le_refl _) (Nat.zero_le _)).enclosed low' high'

/-- An operand of an operator of level `p`: with parentheses it may stand anywhere, without them it binds at least
    as strongly as the operator. -/
theorem Says.operand {e : Expr} {s : String} {ps : List Phrase} (h : Says scope e s ps) {p : Precedence}
    {side associative quiet : Bool} {bound : Nat} (hquiet : quiet = true → Precedence.comparison.rank ≤ p.rank)
    (hrank : p.needsParens e.precedence side associative = false → p.rank ≤ e.precedence.rank)
    (hbound : p.needsParens e.precedence side associative = false → bound ≤ reach e) :
    ∃ qs, Conveys scope (Expr.enclose p e side associative s) qs (.expr e) quiet p.rank bound := by
  cases hparens : p.needsParens e.precedence side associative with
  | true =>
    rw [Expr.enclose, if_pos hparens]
    have henclosed := h.enclosed p.rank bound
    refine ⟨_, henclosed.prints, ?_, henclosed.reads⟩
    cases quiet with
    | true => exact henclosed.spoken
    | false => exact henclosed.spoken.loud
  | false =>
    rw [Expr.enclose, if_neg (by rw [hparens]; exact Bool.false_ne_true)]
    refine ⟨ps, h.prints, ?_, h.reads.mono (hrank hparens) (hbound hparens)⟩
    cases quiet with
    | true =>
      have hle := Nat.le_trans (hquiet rfl) (hrank hparens)
      have hspoken := h.spoken
      rwa [decide_eq_true hle] at hspoken
    | false => exact h.spoken.any

/-- A left operand. -/
theorem Says.left {e : Expr} {s : String} {ps : List Phrase} (h : Says scope e s ps) (p : Precedence)
    (associative quiet : Bool) (hquiet : quiet = true → Precedence.comparison.rank ≤ p.rank) :
    ∃ qs, Conveys scope (Expr.enclose p e false associative s) qs (.expr e) quiet p.rank p.rank :=
  h.operand hquiet Precedence.needsParens_left.mp fun hparens =>
    Nat.le_trans (Precedence.needsParens_left.mp hparens) (rank_le_reach e)

/-- A right operand of an operator that is not associative, or of a chain that does not continue in it. -/
theorem Says.right {e : Expr} {s : String} {ps : List Phrase} (h : Says scope e s ps) (p : Precedence)
    (associative quiet : Bool) (hquiet : quiet = true → Precedence.comparison.rank ≤ p.rank)
    (hchain : associative = true → e.precedence ≠ p) :
    ∃ qs, Conveys scope (Expr.enclose p e true associative s) qs (.expr e) quiet p.rank (p.rank + 1) := by
  have hlt : p.needsParens e.precedence true associative = false → p.rank < e.precedence.rank := by
    intro hparens
    cases associative with
    | false => exact Precedence.needsParens_right.mp hparens
    | true =>
      have hle := Precedence.needsParens_chain.mp hparens
      exact Nat.lt_of_le_of_ne hle fun heq => hchain rfl (Precedence.eq_of_rank heq).symm
  exact h.operand hquiet (fun hparens => Nat.le_of_lt (hlt hparens)) fun hparens =>
    Nat.le_trans (hlt hparens) (rank_le_reach e)

/-! ### Operators between operands -/

theorem toList_spaced (s shown t : String) :
    (s ++ " " ++ shown ++ " " ++ t).toList = s.toList ++ ' ' :: (shown.toList ++ ' ' :: t.toList) := by
  simp

/-- Two operands and the operator between them. -/
theorem Conveys.binary {s t shown : String} {ps qs : List Phrase} {p : Phrase} {op : BinaryOp} {a b c : Operand}
    {quiet : Bool} (hl : Conveys scope s ps a quiet op.precedence.rank op.precedence.rank)
    (hr : Conveys scope t qs b quiet op.precedence.rank (op.precedence.rank + 1)) (hop : Stands scope shown p op)
    (hlist : ∀ negated, op ≠ .inList negated) (hspoken : Spoken quiet (ps ++ p :: qs))
    (hresult : ∀ offset operands, (Pending.binary op offset).apply (b :: a :: operands) = .ok (c :: operands)) :
    Conveys scope (s ++ " " ++ shown ++ " " ++ t) (ps ++ p :: qs) c quiet op.precedence.rank op.precedence.rank where
  prints := by
    rw [toList_spaced, List.flatMap_append, List.flatMap_cons]
    exact hop.prints hl.prints hr.prints
  spoken := hspoken
  reads := Reads.binary hop.operates hl.reads hr.reads (Nat.le_refl _) (Nat.le_refl _) (Nat.le_refl _)
    (Nat.lt_succ_self _) hlist hresult

end

/-! ### Expressions and their texts -/

/-- The text of an expression and what it says; an atom does not start with a minus sign. -/
structure Told (w : Writer) (scope : Scope) (e : Expr) (s : String) (ps : List Phrase) : Prop where
  value : w.value e = .ok s
  conveys : Says scope e s ps
  sign : e.precedence = .parentheses → ∃ c cs, s.toList = c :: cs ∧ c ≠ '-'

section
variable {w : Writer} {scope : Scope} {names : String → Prop} {strict : Bool}

theorem told_atom {e : Expr} {s : String} {p : Phrase} (hvalue : w.value e = .ok s) (hprec : e.precedence = .parentheses)
    (hprints : Prints s.toList [p]) (hp : p.closes = true) (hsymbol : ∀ s, p ≠ .symbol s) (hword : ∀ k, p ≠ .word k)
    (hreads : ∀ low reach, Reads scope [p] (.expr e) low reach) (hsign : ∃ c cs, s.toList = c :: cs ∧ c ≠ '-') :
    Told w scope e s [p] := by
  refine ⟨hvalue, ⟨?_, ?_, hreads _ _⟩, fun _ => hsign⟩
  · have hsplit : p.split = [p] := by
      cases p with
      | word k => exact absurd rfl (hword k)
      | _ => rfl
    rwa [List.flatMap_singleton, hsplit]
  · rw [hprec]
    exact .atom hp hsymbol hword

theorem Agree.told_property (h : Agree w scope names) {name : String} (hname : name ≠ "*") :
    ∃ s ps, Told w scope (.prop scope.table name) s ps := by
  refine ⟨_, _, told_atom rfl rfl (h.prints_column name) rfl nofun nofun ?_ ?_⟩
  · exact fun low reach => reads_name low reach fun t ht => h.value_column hname ht
  · obtain ⟨c, cs, hcs⟩ := List.exists_cons_of_ne_nil h.ne_nil
    have hc := h.letters c (by rw [hcs]; exact List.mem_cons_self)
    rw [h.column_eq, String.toList_append, String.toList_append, hcs]
    refine ⟨c, _, rfl, ?_⟩
    rintro rfl
    exact absurd hc (by decide)

theorem told_integer (w : Writer) (scope : Scope) {n : Int64} (hn : 0 ≤ n) : ∃ s ps, Told w scope (.int n) s ps := by
  refine ⟨Number.int64Text n, _, told_atom ?_ rfl (prints_int64 hn) rfl nofun nofun ?_ ?_⟩
  · simp only [Expr.int, Writer.value, Dialect.literal]
  · exact fun low reach => reads_number low reach (isValue_int hn)
  · rw [Number.int64Text_eq_toString hn]
    obtain ⟨c, cs, hcs⟩ := List.exists_cons_of_ne_nil (Number.toString_toList_ne_nil n.toInt.toNat)
    have hc : c.isDigit = true := Number.isDigit_of_mem_toString (by rw [hcs]; exact List.mem_cons_self)
    refine ⟨c, cs, hcs, ?_⟩
    rintro rfl
    exact absurd hc (by decide)

theorem told_text (w : Writer) (scope : Scope) (value : String) : ∃ s ps, Told w scope (.text value) s ps := by
  refine ⟨Text.quoted value, _, told_atom ?_ rfl (prints_string value) rfl nofun nofun ?_ ?_⟩
  · simp only [Expr.text, Writer.value, Dialect.literal]
  · exact fun low reach => reads_string low reach value
  · rw [Text.quoted, Text.toList_quotedBy]
    exact ⟨_, _, rfl, by decide⟩

theorem Agree.told_parameter (h : Agree w scope names) {name : String} (hname : names name) :
    ∃ s ps, Told w scope (.parameter (.named name) none false) s ps := by
  refine ⟨_, _, told_atom (h.placeholder name hname) rfl (prints_placeholder (h.plain name hname)) rfl nofun nofun ?_ ?_⟩
  · exact fun low reach => reads_name low reach fun t ht => scope.value_placeholder ht
  · rw [String.toList_append]
    exact ⟨'@', _, rfl, by decide⟩

/-- An operator with two operands that are told. -/
theorem told_comparison (op : ComparisonOp) {l r : Expr} (hl : ∃ s ps, Told w scope l s ps)
    (hr : ∃ s ps, Told w scope r s ps) : ∃ s ps, Told w scope (.comparison op l r) s ps := by
  obtain ⟨s, ps, hs⟩ := hl
  obtain ⟨t, qs, ht⟩ := hr
  obtain ⟨ps', hleft⟩ := hs.conveys.left .comparison false true fun _ => Nat.le_refl _
  obtain ⟨qs', hright⟩ := ht.conveys.right .comparison false true (fun _ => Nat.le_refl _) nofun
  refine ⟨_, _, ?_, Conveys.binary hleft hright (stands_comparison scope op) nofun ?_ fun _ _ => rfl, nofun⟩
  · simp only [Writer.value, hs.value, ht.value]
    rfl
  · exact .symbol (by cases op <;> decide) hleft.spoken hright.spoken

theorem told_arithmetic {op : ArithmeticOp} (hop : op ≠ .concat) {l r : Expr}
    (hl : ∃ s ps, Told w scope l s ps) (hr : ∃ s ps, Told w scope r s ps)
    (hchain : op.isAssociative = true → r.precedence ≠ op.precedence) :
    ∃ s ps, Told w scope (.arithmetic op l r) s ps := by
  obtain ⟨s, ps, hs⟩ := hl
  obtain ⟨t, qs, ht⟩ := hr
  have hquiet : Precedence.comparison.rank ≤ op.precedence.rank := by
    cases op <;> decide
  obtain ⟨ps', hleft⟩ := hs.conveys.left op.precedence op.isAssociative true fun _ => hquiet
  obtain ⟨qs', hright⟩ := ht.conveys.right op.precedence op.isAssociative true (fun _ => hquiet) hchain
  have hspoken : Spoken true (ps' ++ .symbol op.symbol :: qs') :=
    .symbol (by cases op <;> decide) hleft.spoken hright.spoken
  have hall := Conveys.binary hleft hright (stands_arithmetic scope op) nofun hspoken fun _ _ => rfl
  refine ⟨_, _, ?_, says_of_quiet hquiet hall, ?_⟩
  · have hsymbol : w.arithmeticSymbol op = op.symbol := by
      cases op <;> first | rfl | exact absurd rfl hop
    simp only [Writer.value, hs.value, ht.value, hsymbol]
    rfl
  · cases op <;> nofun

theorem Agree.told_like (h : Agree w scope names) {l : Expr} (hl : ∃ s ps, Told w scope l s ps) {p : Pattern}
    {value : String}
    (hp : Pattern.ofWildcard .sqlServer value = .ok p) (negated : Bool) :
    ∃ s ps, Told w scope (.like l (.pattern p) negated) s ps := by
  obtain ⟨s, ps, hs⟩ := hl
  obtain ⟨shown, hshown, hread⟩ := Pattern.exists_toWildcard Pattern.clear_sqlServer hp
  obtain ⟨ps', hleft⟩ := hs.conveys.left .comparison false true fun _ => Nat.le_refl _
  have hright : Conveys scope (Text.quoted shown) [.string (Text.quoted shown)] (.expr (.text shown)) true
      Precedence.comparison.rank (Precedence.comparison.rank + 1) :=
    ⟨prints_string shown, .atom rfl nofun nofun, reads_string _ _ shown⟩
  have hspoken := Spoken.word (k := if negated then .notLike else .like) (by cases negated <;> rfl)
    (by cases negated <;> nofun) hleft.spoken hright.spoken
  have hresult : ∀ offset operands,
      (Pending.binary (.like negated) offset).apply (.expr (.text shown) :: .expr l :: operands)
        = .ok (.expr (.like l (.pattern p) negated) :: operands) := by
    intro offset operands
    simp only [Pending.apply, Operand.toExpr, combine, likePattern, Expr.text, hread, Except.map, bind, Except.bind]
    rfl
  refine ⟨_, _, ?_, Conveys.binary hleft hright (stands_like scope negated) nofun hspoken hresult, nofun⟩
  have hpattern : w.value (.pattern p) = .ok (Text.quoted shown) := by
    simp only [Writer.value, h.dialect, Dialect.patternLiteral, Dialect.likeSyntax, hshown]
    rfl
  simp only [Writer.value, hs.value]
  rw [← Writer.value, hpattern]
  rfl

theorem told_between {l low high : Expr} (hl : ∃ s ps, Told w scope l s ps) (hlow : ∃ s ps, Told w scope low s ps)
    (hhigh : ∃ s ps, Told w scope high s ps) (negated : Bool) :
    ∃ s ps, Told w scope (.between l low high negated none) s ps := by
  obtain ⟨s, ps, hs⟩ := hl
  obtain ⟨t, qs, ht⟩ := hlow
  obtain ⟨u, rs, hu⟩ := hhigh
  obtain ⟨ps', hleft⟩ := hs.conveys.left .comparison false true fun _ => Nat.le_refl _
  obtain ⟨qs', hfirst⟩ := ht.conveys.left .subComparison false true fun _ => by decide
  obtain ⟨rs', hlast⟩ := hu.conveys.right .subComparison false true (fun _ => by decide) nofun
  have hand := stands_betweenAnd scope
  have hword := stands_between scope negated
  -- The bounds are an operand of their own, which binds stronger than the `between` before it.
  have hrange : Reads scope (qs' ++ .word .betweenAnd :: rs') (.range low high) Precedence.subComparison.rank
      Precedence.subComparison.rank :=
    Reads.binary hand.operates hfirst.reads hlast.reads (Nat.le_refl _) (Nat.le_refl _) (Nat.le_refl _)
      (Nat.lt_succ_self _) nofun fun _ _ => rfl
  have hvalue : w.value (.between l low high negated none) = .ok (Expr.enclose .comparison l false false s ++ " "
      ++ Expr.negatable negated "between" ++ " " ++ Expr.enclose .subComparison low false false t ++ " and "
      ++ Expr.enclose .subComparison high true false u) := by
    simp only [Writer.value, hs.value, ht.value, hu.value]
    rfl
  refine ⟨_, ps' ++ .word (if negated then .notBetween else .between) :: (qs' ++ .word .betweenAnd :: rs'), hvalue,
    ⟨?_, ?_, ?_⟩, nofun⟩
  · have hprints := hword.prints hleft.prints (hand.prints hfirst.prints hlast.prints)
    simpa using hprints
  · exact .between (by cases negated <;> simp) hleft.spoken hfirst.spoken hlast.spoken
  · exact Reads.binary hword.operates hleft.reads hrange (Nat.le_refl _) (Nat.le_refl _) (Nat.le_succ _)
      (Nat.lt_succ_self _) nofun fun _ _ => rfl

/-- A test for an absent value, with the word before `null`. -/
theorem Told.is {l : Expr} {s shown : String} {ps : List Phrase} (hs : Told w scope l s ps) {k : Keyword}
    {negated : Bool} {operand : IsOperand} (hk : k = .is ∨ k = .isNot) (hword : Stands scope shown (.word k) (.is negated))
    (hshown : (if operand.wantsNull then " is null" else " is not null") = " " ++ shown ++ " " ++ "null")
    (hoperand : (if negated then .notNull else .null) = operand) : ∃ s ps, Told w scope (.is l operand) s ps := by
  obtain ⟨ps', hleft⟩ := hs.conveys.left .comparison false true fun _ => Nat.le_refl _
  have hnull : Prints "null".toList [.word .null] := prints_word (by decide)
  have hvalue : w.value (.is l operand)
      = .ok (Expr.enclose .comparison l false false s ++ " " ++ shown ++ " " ++ "null") := by
    simp only [Writer.value, hs.value, hshown, String.append_assoc]
    rfl
  refine ⟨_, ps' ++ .word k :: [.word .null], hvalue, says_of_quiet (Nat.le_refl _)
    ⟨?_, .null hk hleft.spoken, ?_⟩, nofun⟩
  · have hprints := hword.prints hleft.prints hnull
    rw [toList_spaced, List.flatMap_append, List.flatMap_cons]
    exact hprints
  · refine Reads.binary hword.operates hleft.reads (reads_null _ _) (Nat.le_refl _) (Nat.le_refl _) (Nat.le_refl _)
      (Nat.lt_succ_self _) nofun fun _ _ => ?_
    rw [← hoperand]
    rfl

theorem told_is {l : Expr} (hl : ∃ s ps, Told w scope l s ps) {operand : IsOperand}
    (h : operand = .null ∨ operand = .notNull) : ∃ s ps, Told w scope (.is l operand) s ps := by
  obtain ⟨s, ps, hs⟩ := hl
  have his : Prints "is".toList [.word .is] := prints_word (by decide)
  have hnot : Prints "not".toList [.word .not] := prints_word (by decide)
  rcases h with rfl | rfl
  · have hword : Stands scope "is" (.word .is) (.is false) :=
      stands_of_word his (operates_word scope rfl ⟨nofun, nofun⟩)
    exact hs.is (Or.inl rfl) hword rfl rfl
  · have hword : Stands scope "is not" (.word .isNot) (.is true) :=
      stands_of_word (his.spaced hnot) (operates_word scope rfl ⟨nofun, nofun⟩)
    exact hs.is (Or.inr rfl) hword rfl rfl

theorem values_eq_map {items : List Expr} {shown : Expr → String} (h : ∀ e ∈ items, w.value e = .ok (shown e)) :
    w.values items = .ok (items.map shown) := by
  induction items with
  | nil => rfl
  | cons e items ih =>
    have hrest := ih fun d hd => h d (List.mem_cons_of_mem e hd)
    simp only [Writer.values, h e List.mem_cons_self, hrest]
    rfl

theorem told_inList {l : Expr} {items : List Expr} (hl : ∃ s ps, Told w scope l s ps) (hne : items ≠ [])
    (hitems : ∀ e ∈ items, ∃ s ps, Told w scope e s ps) (negated : Bool) :
    ∃ s ps, Told w scope (.inList l items negated none) s ps := by
  obtain ⟨s, ps, hs⟩ := hl
  choose! shown said htold using hitems
  obtain ⟨ps', hleft⟩ := hs.conveys.left .comparison false true fun _ => Nat.le_refl _
  have hin : Prints "in".toList [.word .inList] := prints_word (by decide)
  have hword : Prints (Expr.negatable negated "in").toList (Phrase.word (if negated then .notIn else .inList)).split :=
    prints_negatable hin rfl rfl negated
  have hlist : Prints (", ".intercalate (items.map shown)).toList ((commaList (items.map said)).flatMap Phrase.split) :=
    prints_commaList (by simpa using hne) <| List.forall₂_map_left_iff.mpr <|
      List.forall₂_map_right_iff.mpr (List.forall₂_same.mpr fun e he => (htold e he).conveys.prints)
  have hoperates : Operates scope (.word (if negated then .notIn else .inList)) (.inList negated) := by
    cases negated <;> exact operates_word scope rfl ⟨nofun, nofun⟩
  have hvalue : w.value (.inList l items negated none) = .ok (Expr.enclose .comparison l false false s ++ " "
      ++ Expr.negatable negated "in" ++ " (" ++ ", ".intercalate (items.map shown) ++ ")") := by
    have hempty : items.isEmpty = false := List.isEmpty_eq_false_iff.mpr hne
    simp only [Writer.value, hempty, Bool.false_eq_true, if_false, hs.value,
      values_eq_map fun e he => (htold e he).value]
    rfl
  refine ⟨_, ps' ++ .word (if negated then .notIn else .inList) :: .symbol "(" ::
    (commaList (items.map said) ++ [.symbol ")"]), hvalue, ⟨?_, ?_, ?_⟩, nofun⟩
  · have hprints := hleft.prints.spaced (hword.spaced hlist.enclosed)
    simpa [Phrase.split] using hprints
  · refine .inList (by cases negated <;> simp) hleft.spoken (by simpa using hne) fun item hitem => ?_
    obtain ⟨e, he, rfl⟩ := List.mem_map.mp hitem
    exact (htold e he).conveys.spoken.any
  · exact Reads.inList hoperates hleft.reads (Nat.le_refl _) (Nat.le_refl _) hne <|
      List.forall₂_map_left_iff.mpr (List.forall₂_same.mpr fun e he =>
        (htold e he).conveys.reads.mono (Nat.zero_le _) (Nat.zero_le _))

theorem told_negate {e : Expr} (he : ∃ s ps, Told w scope e s ps) : ∃ s ps, Told w scope (.negate e) s ps := by
  obtain ⟨s, ps, hs⟩ := he
  obtain ⟨ps', hoperand⟩ := hs.conveys.right .negation false true (fun _ => by decide) nofun
  have hvalue : w.value (.negate e) = .ok ("-" ++ Expr.enclose .negation e true false s) := by
    simp only [Writer.value, hs.value]
    rfl
  have hhead : ∃ c cs, (Expr.enclose .negation e true false s).toList = c :: cs ∧ c ≠ '-' := by
    rw [Expr.enclose]
    split
    · rw [String.append_assoc, String.toList_append]
      exact ⟨'(', _, rfl, by decide⟩
    · rename_i hparens
      rw [Bool.not_eq_true, Precedence.needsParens_right] at hparens
      have hatom : e.precedence = .parentheses := by
        cases hprec : e.precedence <;> rw [hprec] at hparens <;> first | rfl | exact absurd hparens (by decide)
      exact hs.sign hatom
  obtain ⟨c, cs, hcs, hc⟩ := hhead
  refine ⟨_, .symbol "-" :: ps', hvalue, ⟨?_, .minus hoperand.spoken, ?_⟩, nofun⟩
  · have hprints := hoperand.prints.negated (by rw [hcs]; exact List.cons_ne_nil _ _) (by
      rw [hcs, List.head?_cons]
      intro heq
      exact hc (Option.some.inj heq))
    rw [String.toList_append]
    exact hprints
  · exact Reads.unary (by nofun) (fun t m => push_minus) (fun _ => rfl) (fun _ _ => rfl) hoperand.reads (Nat.le_refl _)
      (Nat.lt_succ_self _) _

theorem Written.told_not {e : Expr} (hwritten : Written scope.table names strict e) (hpredicate : e.isPredicate = true)
    (he : ∃ s ps, Told w scope e s ps) : ∃ s ps, Told w scope (.not e) s ps := by
  obtain ⟨s, ps, hs⟩ := he
  have hbound : Precedence.not.needsParens e.precedence true true = false → Precedence.not.rank + 1 ≤ reach e := by
    intro hparens
    have hle := Precedence.needsParens_chain.mp hparens
    unfold reach
    split
    · exact Nat.le_refl _
    · rename_i hne
      refine Nat.lt_of_le_of_ne hle fun heq => ?_
      have hnot : e.precedence = .not := (Precedence.eq_of_rank heq).symm
      cases e with
      | not d => exact hne d rfl
      | logical op l r => cases op <;> cases hnot
      | arithmetic op l r => cases op <;> cases hnot
      | _ => cases hnot
  obtain ⟨ps', hoperand⟩ : ∃ qs, Conveys scope (Expr.enclose .not e true true s) qs (.expr e) false
      Precedence.not.rank (Precedence.not.rank + 1) :=
    hs.conveys.operand nofun Precedence.needsParens_chain.mp hbound
  have hvalue : w.value (.not e) = .ok ("not " ++ Expr.enclose .not e true true s) := by
    simp only [Writer.value, hs.value, Writer.conditionOperand, hwritten.asCondition (property?_of_isPredicate hpredicate)]
    rfl
  have hnot : Prints "not".toList [.word .not] := prints_word (by decide)
  refine ⟨_, .word .not :: ps', hvalue, ⟨?_, .not hoperand.spoken, ?_⟩, nofun⟩
  · have hprints := hnot.spaced hoperand.prints
    rw [String.toList_append]
    exact hprints
  · exact Reads.unary (by nofun) (fun t m => push_not) (fun _ => rfl) (fun _ _ => rfl) hoperand.reads (Nat.le_refl _)
      (Nat.lt_succ_self _) _

theorem told_logical (op : LogicalOp) {l r : Expr} (hwl : Written scope.table names strict l)
    (hwr : Written scope.table names strict r) (hpl : l.isPredicate = true) (hpr : r.isPredicate = true)
    (hchain : r.precedence ≠ op.precedence) (hl : ∃ s ps, Told w scope l s ps) (hr : ∃ s ps, Told w scope r s ps) :
    ∃ s ps, Told w scope (.logical op l r) s ps := by
  obtain ⟨s, ps, hs⟩ := hl
  obtain ⟨t, qs, ht⟩ := hr
  obtain ⟨ps', hleft⟩ := hs.conveys.left op.precedence true false nofun
  obtain ⟨qs', hright⟩ := ht.conveys.right op.precedence true false nofun fun _ => hchain
  have hspoken : Spoken false (ps' ++ .word (connective op) :: qs') :=
    .word (by cases op <;> rfl) (fun _ => rfl) hleft.spoken hright.spoken
  have hloud : op.precedence.rank < Precedence.comparison.rank := by
    cases op <;> decide
  have hall := Conveys.binary hleft hright (stands_logical scope op) nofun hspoken fun _ _ => rfl
  refine ⟨_, _, ?_, says_of_loud hloud hall, by cases op <;> nofun⟩
  simp only [Writer.value, hs.value, ht.value, Writer.conditionOperand, hwl.asCondition (property?_of_isPredicate hpl),
    hwr.asCondition (property?_of_isPredicate hpr)]
  rfl

/-- The text of a strict expression is read as the expression. -/
theorem Written.told (h : Agree w scope names) {e : Expr} (he : Written scope.table names true e) :
    ∃ s ps, Told w scope e s ps := by
  induction he with
  | property hname => exact h.told_property hname
  | integer hn => exact told_integer w scope hn
  | text value => exact told_text w scope value
  | parameter hname => exact h.told_parameter hname
  | comparison _ _ ihl ihr => exact told_comparison _ ihl ihr
  | like _ hp ihl => exact h.told_like ihl hp _
  | between _ _ _ hrecorded ihl ihlow ihhigh =>
    rw [hrecorded rfl]
    exact told_between ihl ihlow ihhigh _
  | inList _ hne _ hrecorded ihl ihitems =>
    rw [hrecorded rfl]
    exact told_inList ihl hne ihitems _
  | is _ hoperand ihl => exact told_is ihl hoperand
  | arithmetic hop _ _ hright ihl ihr => exact told_arithmetic hop ihl ihr (hright rfl)
  | negate _ ih => exact told_negate ih
  | not he hpredicate ih => exact he.told_not hpredicate ih
  | logical hl hr hpl hpr hright ihl ihr => exact told_logical _ hl hr hpl hpr (hright rfl) ihl ihr

end

end ItemQuery.Sql
