import ItemQuery.Proofs.Expr.Grouping
import ItemQuery.Proofs.Sql.Signs
import ItemQuery.Proofs.Sql.TidyParts

/-! Criteria without comments. Whatever stands in texts, names and patterns is quoted, and the parts of a criterion are
    kept apart by blanks, parentheses and commas. Only the sign of a negation stands right in front of its operand; two
    signs in a row are the only thing that starts a comment. -/

namespace ItemQuery.Sql

open ItemQuery.Expr

variable {s t word : String} {sign : Bool} {args : List String}

/-! ### Texts -/

/-- A text without comments, which starts with a minus sign at most if `sign` says so. -/
structure Shown (sign : Bool) (s : String) : Prop where
  tidy : Tidy s.toList
  head : s.toList.head? = some '-' → sign = true

/-- Inert characters, at least one. -/
def isOpening (s : String) : Bool :=
  !s.toList.isEmpty && s.toList.all isInert

theorem forall_inert_of_isOpening (h : isOpening s = true) : s.toList ≠ [] ∧ ∀ c ∈ s.toList, isInert c = true := by
  rw [isOpening, Bool.and_eq_true, Bool.not_eq_true', List.isEmpty_eq_false_iff, List.all_eq_true] at h
  exact h

theorem shown_of_inert (h : ∀ c ∈ s.toList, isInert c = true) : Shown sign s where
  tidy := tidy_of_inert h
  head hhead := absurd hhead (head?_ne_of_inert h)

theorem shown_quoted (s : String) : Shown sign (Text.quoted s) where
  tidy := tidy_quoted s
  head hhead := by
    rw [Text.quoted, Text.toList_quotedBy] at hhead
    simp at hhead

theorem Shown.append (h : Shown sign s) (ht : Tidy t.toList) (hloose : isLoose t.toList = true) : Shown sign (s ++ t) where
  tidy := by
    rw [String.toList_append]
    exact h.tidy.append ht hloose
  head hhead := by
    rw [String.toList_append] at hhead
    cases hs : s.toList with
    | nil =>
      rw [hs, List.nil_append] at hhead
      obtain ⟨rest, hrest⟩ := List.head?_eq_some_iff.mp hhead
      rw [hrest] at hloose
      cases hloose
    | cons c cs =>
      rw [hs] at hhead
      exact h.head (hs ▸ hhead)

/-- Behind inert characters a text may start as it likes. -/
theorem shown_after (hs : isOpening s = true) (ht : Tidy t.toList) : Shown sign (s ++ t) := by
  obtain ⟨hne, hinert⟩ := forall_inert_of_isOpening hs
  obtain ⟨c, cs, hcs⟩ := List.exists_cons_of_ne_nil hne
  refine ⟨?_, fun hhead => ?_⟩
  · rw [String.toList_append]
    exact tidy_append_of_inert hinert ht
  · rw [String.toList_append, hcs] at hhead
    rw [hcs] at hinert
    have hc : ∀ x ∈ [c], isInert x = true := List.forall_mem_singleton.mpr (hinert c List.mem_cons_self)
    have hother := head?_ne_of_inert hc
    exact absurd hhead hother

theorem Shown.next (h : Shown sign s) (hword : isOpening word = true) (hloose : isLoose word.toList = true)
    (ht : Tidy t.toList) : Shown sign (s ++ word ++ t) := by
  obtain ⟨hne, hinert⟩ := forall_inert_of_isOpening hword
  rw [String.append_assoc]
  refine h.append ?_ ?_
  · rw [String.toList_append]
    exact tidy_append_of_inert hinert ht
  · obtain ⟨c, cs, hcs⟩ := List.exists_cons_of_ne_nil hne
    rw [String.toList_append, hcs]
    rwa [hcs] at hloose

theorem tidy_next (hs : Tidy s.toList) (hword : isOpening word = true) (hloose : isLoose word.toList = true)
    (ht : Tidy t.toList) : Tidy (s ++ word ++ t).toList := by
  have hshown : Shown true s := ⟨hs, fun _ => rfl⟩
  exact (hshown.next hword hloose ht).tidy

/-- A word between blanks. -/
theorem Shown.joined (h : Shown sign s) (hword : Tidy word.toList) (ht : Tidy t.toList) :
    Shown sign (s ++ " " ++ word ++ " " ++ t) := by
  have htail : Tidy (" " ++ word ++ " " ++ t).toList := by
    have hblank : Tidy (word.toList ++ ' ' :: t.toList) := hword.append (.inert rfl ht) rfl
    have hlist : (" " ++ word ++ " " ++ t).toList = ' ' :: (word.toList ++ ' ' :: t.toList) := by simp
    rw [hlist]
    exact .inert rfl hblank
  have hassoc : s ++ " " ++ word ++ " " ++ t = s ++ (" " ++ word ++ " " ++ t) := by simp only [String.append_assoc]
  rw [hassoc]
  refine h.append htail ?_
  simp only [String.toList_append]
  rfl

theorem shown_between (hs : isOpening s = true) (ht : Tidy t.toList) : Shown sign (s ++ t ++ ")") :=
  (shown_after hs ht).append (tidy_of_inert (by decide)) rfl

theorem tidy_commaList (h : ∀ s ∈ args, Tidy s.toList) : Tidy (", ".intercalate args).toList := by
  induction args with
  | nil => exact .nil
  | cons s rest ih =>
    rw [List.forall_mem_cons] at h
    cases rest with
    | nil => simpa using h.1
    | cons t rest =>
      have hrest := ih h.2
      rw [String.intercalate_cons_cons]
      exact tidy_next h.1 rfl rfl hrest

/-! ### Functions -/

theorem shown_serverCall {f : Function} {n : Nat} (hf : Dialect.arity? f = some n) (hn : args.length = n)
    (h : ∀ a ∈ args, Tidy a.toList) : Shown sign (Dialect.serverCall f args) := by
  cases f with
  | currentDateTime => exact shown_of_inert (s := "getdate()") (by decide)
  | currentUtcDateTime => exact shown_of_inert (s := "getutcdate()") (by decide)
  | length | toLower | toUpper | trim | year | month | day | hour | minute | second =>
    cases hf
    obtain ⟨a, rfl⟩ := List.length_eq_one_iff.mp hn
    have ha := h a List.mem_cons_self
    exact (shown_after rfl ha).append (tidy_of_inert (by decide)) rfl
  | indexOf =>
    cases hf
    obtain ⟨a, b, rfl⟩ := List.length_eq_two.mp hn
    have hminus : Tidy ") - 1)".toList := .inert rfl (.inert rfl (.minus (by decide) (tidy_of_inert (by decide))))
    exact ((shown_after rfl (h b (by simp))).next rfl rfl (h a (by simp))).append hminus rfl
  | diffDays =>
    cases hf
    obtain ⟨a, b, rfl⟩ := List.length_eq_two.mp hn
    exact ((shown_after rfl (h a (by simp))).next rfl rfl (h b (by simp))).append (tidy_of_inert (by decide)) rfl
  | addDays | addHours | addMinutes =>
    cases hf
    obtain ⟨a, b, rfl⟩ := List.length_eq_two.mp hn
    exact ((shown_after rfl (h b (by simp))).next rfl rfl (h a (by simp))).append (tidy_of_inert (by decide)) rfl
  | substring => exact shown_between rfl (tidy_commaList h)
  | startsWith | endsWith | contains | other name => cases hf

theorem exists_arity? {f : Function} (hnamed : f.isOther = false) (hf : f.isPredicate = false) :
    ∃ n, Dialect.arity? f = some n := by
  cases f with
  | other name => cases hnamed
  | startsWith | endsWith | contains => cases hf
  | _ => exact ⟨_, rfl⟩

theorem shown_call {f : Function} (hnamed : f.isOther = false) (hargs : ∀ a ∈ args, Tidy a.toList)
    (h : Dialect.sqlServer.call f args = .ok s) : Shown sign s := by
  unfold Dialect.call at h
  split at h
  next => cases h
  next hf =>
    obtain ⟨n, hn⟩ := exists_arity? hnamed (Bool.eq_false_iff.mpr hf)
    rw [hn] at h
    dsimp only at h
    split at h
    next hlength =>
      cases h
      exact shown_serverCall hn hlength hargs
    next => cases h

/-! ### Expressions -/

theorem shown_asCondition {w : Writer} (hw : w.dialect = .sqlServer) (e : Expr) (h : Shown sign s) :
    Shown sign (w.asCondition e s) := by
  unfold Writer.asCondition
  split
  · exact shown_of_inert (by decide)
  · exact shown_of_inert (by decide)
  · rw [hw]
    exact h.next rfl rfl (tidy_of_inert (by decide))
  · exact h

theorem shown_enclose (h : Shown sign s) (parent : Precedence) (e : Expr) (rightSide associative : Bool) :
    Shown (!parent.needsParens e.precedence rightSide associative && sign)
      (Expr.enclose parent e rightSide associative s) := by
  unfold Expr.enclose
  split
  · exact shown_between rfl h.tidy
  · next hparens =>
    rw [Bool.not_eq_true] at hparens
    rw [hparens]
    exact h

/-- SQL Server with harmless aliases. -/
structure Quiet (w : Writer) : Prop where
  dialect : w.dialect = .sqlServer
  name : ∀ id, IsInertName (w.aliases.name id)

namespace Quiet

variable {w : Writer} {e : Expr} {es : List Expr} (hw : Quiet w)
include hw

theorem shown_column (p : PropertyRef) : Shown sign (w.column p) := by
  rw [Writer.column, hw.dialect]
  exact (shown_of_inert (hw.name p.table)).next rfl rfl (tidy_identifier p.name)

theorem shown_literal (l : Literal) : Shown (isSigned l) (w.dialect.literal l) := by
  rw [hw.dialect]
  exact ⟨tidy_literal l, fun hhead => by rw [isSigned, hhead]; rfl⟩

theorem shown_patternLiteral {p : Pattern} (h : w.dialect.patternLiteral p = .ok s) : Shown sign s := by
  rw [hw.dialect] at h
  obtain ⟨text, -, h⟩ := Result.bind_eq_ok.mp h
  cases h
  exact shown_quoted text

theorem shown_stringTest {f : Function} {subject sought : Expr} {left right : String}
    (hl : Shown sign left) (hr : Tidy right.toList) (h : w.stringTest f subject sought left right = .ok s) :
    Shown (!Precedence.comparison.needsParens subject.precedence false false && sign) s := by
  have hleft := shown_enclose hl .comparison subject false false
  unfold Writer.stringTest at h
  split at h
  next part _ =>
    obtain ⟨pattern, hpattern, h⟩ := Result.bind_eq_ok.mp h
    cases h
    have hshown : Shown true pattern := hw.shown_patternLiteral hpattern
    exact hleft.next rfl rfl hshown.tidy
  next =>
    cases h
    have hright : Shown true right := ⟨hr, fun _ => rfl⟩
    have hinner : Tidy (Expr.enclose .additive sought true true right).toList :=
      (shown_enclose hright .additive sought true true).tidy
    have hany : Tidy "'%'".toList := tidy_quoted "%"
    have hplus : isOpening " + " = true := rfl
    have hjoin : " " ++ w.dialect.concatOperator ++ " " = " + " := by rw [hw.dialect]; rfl
    rw [hjoin]
    refine hleft.next rfl rfl ?_
    split
    · exact tidy_next hinner hplus rfl hany
    · exact tidy_next hany hplus rfl hinner
    · exact tidy_next (tidy_next hany hplus rfl hinner) hplus rfl hany

theorem tidy_arithmeticSymbol (op : ArithmeticOp) : Tidy (w.arithmeticSymbol op).toList := by
  cases op with
  | add =>
    have hadd : Tidy "+".toList := tidy_of_inert (by decide)
    exact hadd
  | sub =>
    have hsub : (w.arithmeticSymbol .sub).toList = ['-'] := by simp [Writer.arithmeticSymbol, ArithmeticOp.symbol]
    rw [hsub]
    exact .minus nofun .nil
  | mul =>
    have hmul : Tidy "*".toList := tidy_of_inert (by decide)
    exact hmul
  | div =>
    have hdiv : (w.arithmeticSymbol .div).toList = ['/'] := by simp [Writer.arithmeticSymbol, ArithmeticOp.symbol]
    rw [hdiv]
    exact .slash nofun .nil
  | mod =>
    have hmod : Tidy "%".toList := tidy_of_inert (by decide)
    exact hmod
  | concat =>
    rw [Writer.arithmeticSymbol, hw.dialect]
    exact tidy_of_inert (by decide)

end Quiet

theorem tidy_values {w : Writer} {es : List Expr} {shown : List String}
    (h : ∀ e ∈ es, ∀ s, w.value e = .ok s → Shown (signed w.ctx w.query e) s) (hs : w.values es = .ok shown) :
    ∀ s ∈ shown, Tidy s.toList := by
  induction es generalizing shown with
  | nil =>
    cases hs
    exact List.forall_mem_nil _
  | cons e es ih =>
    rw [List.forall_mem_cons] at h
    obtain ⟨first, hfirst, hs⟩ := Result.bind_eq_ok.mp hs
    obtain ⟨rest, hrest, hs⟩ := Result.bind_eq_ok.mp hs
    cases hs
    exact List.forall_mem_cons.mpr ⟨(h.1 first hfirst).tidy, ih h.2 hrest⟩

theorem tidy_negatable {word : String} (h : ∀ c ∈ word.toList, isInert c = true) (negated : Bool) :
    Tidy (Expr.negatable negated word).toList := by
  cases negated with
  | true =>
    rw [Expr.negatable, if_pos rfl, String.toList_append]
    exact tidy_append_of_inert (by decide) (tidy_of_inert h)
  | false => exact tidy_of_inert h

theorem Quiet.shown_call {w : Writer} (hw : Quiet w) {f : Function} {es : List Expr} {shown : List String} {s : String}
    (hnamed : f.isOther = false) (h : ∀ e ∈ es, ∀ s, w.value e = .ok s → Shown (signed w.ctx w.query e) s)
    (hshown : w.values es = .ok shown) (hs : w.call f es shown = .ok s) :
    Shown (signed w.ctx w.query (.call f es)) s := by
  unfold Writer.call at hs
  split at hs
  next hf =>
    split at hs
    next subject sought subjectText soughtText =>
      obtain ⟨first, hfirst, hshown⟩ := Result.bind_eq_ok.mp hshown
      obtain ⟨rest, hrest, hshown⟩ := Result.bind_eq_ok.mp hshown
      cases hshown
      have hright := tidy_values (fun d hd => h d (List.mem_cons_of_mem subject hd)) hrest
      rw [signed, hf, Bool.true_and]
      exact hw.shown_stringTest (h subject List.mem_cons_self _ hfirst) (hright _ List.mem_cons_self) hs
    next =>
      cases hs
      exact shown_of_inert (List.forall_mem_nil _)
  next =>
    rw [hw.dialect] at hs
    exact Sql.shown_call hnamed (tidy_values h hshown) hs

/-- What is bound to a parameter is written as a literal. -/
theorem Quiet.shown_parameter {w : Writer} (hw : Quiet w) {name : ParamName} {default : Option Expr} {raw : Bool}
    {s : String}
    (htame : Tame w.ctx w.query (.parameter name default raw)) (hs : w.value (.parameter name default raw) = .ok s) :
    Shown (signed w.ctx w.query (.parameter name default raw)) s := by
  obtain ⟨hraw, hbound⟩ := htame.bound
  have hbound' : w.isBound name = true := hbound
  rw [Dictionary.contains, Option.isSome_iff_exists] at hbound
  obtain ⟨bound, hget⟩ := hbound
  simp only [Writer.value, hbound', if_true, Except.ok.injEq, Writer.parameter, hget, hraw, Bool.false_eq_true,
    if_false] at hs
  rw [← hs, signed, hget]
  exact hw.shown_literal _

/-- A list test starts as its left side does; with an empty list it is written without it. -/
theorem shown_inList {w : Writer} {l : Expr} {items : List Expr} {negated : Bool} {table : Option TableId} {s : String}
    (hchild : ∀ d ∈ l :: items, ∀ s, w.value d = .ok s → Shown (signed w.ctx w.query d) s)
    (hs : w.value (.inList l items negated table) = .ok s) :
    Shown (signed w.ctx w.query (.inList l items negated table)) s := by
  rw [Writer.value] at hs
  split at hs
  next hempty =>
    cases hs
    cases negated <;> exact shown_of_inert (by decide)
  next hfull =>
    obtain ⟨left, hl, hs⟩ := Result.bind_eq_ok.mp hs
    obtain ⟨shown, hshown, hs⟩ := Result.bind_eq_ok.mp hs
    cases hs
    have hleft := shown_enclose (hchild l List.mem_cons_self left hl) .comparison l false false
    have hsigned : signed w.ctx w.query (.inList l items negated table) =
        (!Precedence.comparison.needsParens l.precedence false false && signed w.ctx w.query l) := by
      rw [signed, Bool.eq_false_iff.mpr hfull, Bool.not_false, Bool.and_true]
    have hitems : Tidy (", ".intercalate shown).toList :=
      tidy_commaList (tidy_values (fun d hd => hchild d (List.mem_cons_of_mem l hd)) hshown)
    have hlist : Shown true ("(" ++ ", ".intercalate shown ++ ")") := shown_between rfl hitems
    have hassoc : ∀ front : String, front ++ " " ++ Expr.negatable negated "in" ++ " (" ++ ", ".intercalate shown ++ ")" =
        front ++ " " ++ Expr.negatable negated "in" ++ " " ++ ("(" ++ ", ".intercalate shown ++ ")") := by
      intro front
      have hopen : " (" = " " ++ "(" := rfl
      simp only [hopen, String.append_assoc]
    rw [hsigned, hassoc]
    exact hleft.joined (tidy_negatable (by decide) negated) hlist.tidy

/-- Behind a minus sign there is a parenthesis or a text that does not start with one. -/
theorem shown_negate {w : Writer} {e : Expr} {s : String} (htame : Tame w.ctx w.query (.negate e))
    (hchild : ∀ s, w.value e = .ok s → Shown (signed w.ctx w.query e) s) (hs : w.value (.negate e) = .ok s) :
    Shown (signed w.ctx w.query (.negate e)) s := by
  obtain ⟨inner, hinner, hs⟩ := Result.bind_eq_ok.mp hs
  cases hs
  have hshown := shown_enclose (hchild inner hinner) .negation e true false
  have hfalse : (!Precedence.negation.needsParens e.precedence true false && signed w.ctx w.query e) = false := by
    rcases htame.apart with hparens | hsigned
    · rw [hparens, Bool.not_true, Bool.false_and]
    · rw [hsigned, Bool.and_false]
  rw [hfalse] at hshown
  refine ⟨?_, fun _ => rfl⟩
  rw [String.toList_append]
  exact .minus (fun hhead => by cases hshown.head hhead) hshown.tidy

/-- The text of an expression holds no comment, and whether it starts with a sign can be told from the expression. -/
theorem Quiet.shown_value {w : Writer} (hw : Quiet w) {e : Expr} (h : e.Everywhere (Tame w.ctx w.query)) :
    ∀ s, w.value e = .ok s → Shown (signed w.ctx w.query e) s := by
  induction e using Expr.induction_children with
  | h e ih =>
    obtain ⟨htame, hchildren⟩ := Expr.everywhere_iff.mp h
    have hchild : ∀ d ∈ e.children, ∀ s, w.value d = .ok s → Shown (signed w.ctx w.query d) s :=
      fun d hd => ih d hd (hchildren d hd)
    have hoperand : ∀ d ∈ e.children, ∀ s, w.value d = .ok s → ∀ p rightSide associative,
        Shown (!p.needsParens d.precedence rightSide associative && signed w.ctx w.query d)
          (Expr.enclose p d rightSide associative s) :=
      fun d hd s hs p rightSide associative => shown_enclose (hchild d hd s hs) p d rightSide associative
    intro s hs
    cases e with
    | literal l =>
      cases hs
      exact hw.shown_literal l
    | object o =>
      cases hs
      exact hw.shown_literal _
    | property p =>
      cases hs
      exact hw.shown_column p
    | allProperties table extended =>
      cases hs
      exact (shown_of_inert (hw.name table)).append (tidy_of_inert (by decide)) rfl
    | pattern p => exact hw.shown_patternLiteral hs
    | parameter name default raw => exact hw.shown_parameter htame hs
    | list items =>
      obtain ⟨shown, hshown, hs⟩ := Result.bind_eq_ok.mp hs
      cases hs
      exact shown_between rfl (tidy_commaList (tidy_values hchild hshown))
    | comparison op l r =>
      obtain ⟨left, hl, hs⟩ := Result.bind_eq_ok.mp hs
      obtain ⟨right, hr, hs⟩ := Result.bind_eq_ok.mp hs
      cases hs
      have hop : Tidy op.symbol.toList := by cases op <;> exact tidy_of_inert (by decide)
      exact (hoperand l (by simp [Expr.children]) left hl _ _ _).joined hop
        (hoperand r (by simp [Expr.children]) right hr _ _ _).tidy
    | like l p negated =>
      obtain ⟨left, hl, hs⟩ := Result.bind_eq_ok.mp hs
      obtain ⟨right, hr, hs⟩ := Result.bind_eq_ok.mp hs
      cases hs
      exact (hoperand l (by simp [Expr.children]) left hl _ _ _).joined (tidy_negatable (by decide) negated)
        (hoperand p (by simp [Expr.children]) right hr _ _ _).tidy
    | between l low high negated table =>
      obtain ⟨left, hl, hs⟩ := Result.bind_eq_ok.mp hs
      obtain ⟨first, hfirst, hs⟩ := Result.bind_eq_ok.mp hs
      obtain ⟨last, hlast, hs⟩ := Result.bind_eq_ok.mp hs
      cases hs
      have hword : Tidy (Expr.negatable negated "between").toList := tidy_negatable (by decide) negated
      have hstart := (hoperand l (by simp [Expr.children]) left hl .comparison false false).joined hword
        (hoperand low (by simp [Expr.children]) first hfirst .subComparison false false).tidy
      exact hstart.next rfl rfl (hoperand high (by simp [Expr.children]) last hlast _ _ _).tidy
    | inList l items negated table => exact shown_inList hchild hs
    | is l operand =>
      obtain ⟨left, hl, hs⟩ := Result.bind_eq_ok.mp hs
      cases hs
      have hleft := hoperand l (by simp [Expr.children]) left hl .comparison false false
      cases operand.wantsNull with
      | true => exact hleft.append (tidy_of_inert (by decide)) rfl
      | false => exact hleft.append (tidy_of_inert (by decide)) rfl
    | arithmetic op l r =>
      obtain ⟨left, hl, hs⟩ := Result.bind_eq_ok.mp hs
      obtain ⟨right, hr, hs⟩ := Result.bind_eq_ok.mp hs
      cases hs
      exact (hoperand l (by simp [Expr.children]) left hl _ _ _).joined (hw.tidy_arithmeticSymbol op)
        (hoperand r (by simp [Expr.children]) right hr _ _ _).tidy
    | negate e => exact shown_negate htame (hchild e (by simp [Expr.children])) hs
    | not e =>
      obtain ⟨inner, hinner, hs⟩ := Result.bind_eq_ok.mp hs
      cases hs
      have hoperand := shown_asCondition hw.dialect e (hchild e (by simp [Expr.children]) inner hinner)
      exact shown_after rfl (shown_enclose hoperand .not e true true).tidy
    | logical op l r =>
      obtain ⟨left, hl, hs⟩ := Result.bind_eq_ok.mp hs
      obtain ⟨right, hr, hs⟩ := Result.bind_eq_ok.mp hs
      cases hs
      have hop : Tidy op.keyword.toList := by cases op <;> exact tidy_of_inert (by decide)
      have hleft := shown_asCondition hw.dialect l (hchild l (by simp [Expr.children]) left hl)
      have hright := shown_asCondition hw.dialect r (hchild r (by simp [Expr.children]) right hr)
      exact (shown_enclose hleft op.precedence l false true).joined hop
        (shown_enclose hright op.precedence r true true).tidy
    | call f args =>
      obtain ⟨-, -, hs⟩ := Result.bind_eq_ok.mp hs
      obtain ⟨shown, hshown, hs⟩ := Result.bind_eq_ok.mp hs
      exact hw.shown_call htame.named hchild hshown hs

/-! ### Criteria -/

/-- A criterion in which no negation stands in front of a minus sign is split into tokens none of which is a comment:
    whatever its texts, names, patterns and numbers, and whatever is bound to its parameters. -/
theorem tokenize_renderExpr {ctx : Context} {q : Query} {e : Expr} {shown : String} (hq : Unnamed q)
    (hnamed : e.Everywhere IsNamed) (hbound : e.Everywhere (IsBound ctx)) (hapart : e.Everywhere (IsApart ctx q))
    (h : renderExpr ctx q .sqlServer e = .ok shown) :
    ∃ ts, tokenize shown = .ok ts ∧ ∀ t ∈ ts, t.isComment = false := by
  obtain ⟨w, hw, h⟩ := Result.bind_eq_ok.mp h
  obtain ⟨aliases, haliases, hw⟩ := Result.bind_eq_ok.mp hw
  cases hw
  obtain ⟨s, hs, rfl⟩ := Result.map_eq_ok.mp h
  have hquiet : Quiet { ctx, query := q, dialect := .sqlServer, aliases } := ⟨rfl, isInertName_of_ofQuery hq haliases⟩
  have htame : e.Everywhere (Tame ctx q) := fun d hd => ⟨hnamed d hd, hbound d hd, hapart d hd⟩
  have hvalue := hquiet.shown_value ((htame.collapseIn collects_tame).oneBased counts_tame) s hs
  exact (shown_asCondition rfl e.collapseIn hvalue).tidy.tokenize

/-- Marks of comments in texts, in the name of a property and behind it, and two minus signs with a blank between. -/
theorem tokenize_renderExpr_marks :
    let ctx : Context := { settings := { parameters := .ofList [("least", "-5")] } }
    let q := Query.ofType "Part"
    let e : Expr := .and (.comparison .eq (.prop q.root "a]--b") (.text "it's /* here --"))
      (.comparison .ge (.arithmetic .sub (.int (-1)) (.negate (.prop q.root "cost")))
        (.parameter (.named "least") none false))
    let shown := "p.[a]]--b] = 'it''s /* here --' and -1 - -p.cost >= -5"
    Unnamed q ∧ e.Everywhere IsNamed ∧ e.Everywhere (IsBound ctx) ∧ e.Everywhere (IsApart ctx q) ∧
      renderExpr ctx q .sqlServer e = .ok shown ∧
      ∃ ts, tokenize shown = .ok ts ∧ ∀ t ∈ ts, t.isComment = false := by
  intro ctx q e shown
  have hq : Unnamed q := by
    unfold Unnamed
    decide
  have htame : e.Everywhere (Tame ctx q) := by
    have hcost : (Expr.negate (.prop q.root "cost")).Everywhere (Tame ctx q) :=
      everywhere_iff.mpr ⟨⟨trivial, trivial, .inr rfl⟩,
        List.forall_mem_singleton.mpr (everywhere_leaf rfl ⟨trivial, trivial, trivial⟩)⟩
    have hleast : (Expr.parameter (.named "least") none false).Everywhere (Tame ctx q) :=
      everywhere_leaf rfl ⟨trivial, ⟨rfl, by decide⟩, trivial⟩
    refine everywhere_pair rfl ⟨trivial, trivial, trivial⟩ ?_ ?_
    · exact everywhere_pair rfl ⟨trivial, trivial, trivial⟩ (everywhere_leaf rfl ⟨trivial, trivial, trivial⟩)
        (everywhere_leaf rfl ⟨trivial, trivial, trivial⟩)
    · exact everywhere_pair rfl ⟨trivial, trivial, trivial⟩ (everywhere_pair rfl ⟨trivial, trivial, trivial⟩
        (everywhere_leaf rfl ⟨trivial, trivial, trivial⟩) hcost) hleast
  have hnamed : e.Everywhere IsNamed := fun d hd => (htame d hd).named
  have hbound : e.Everywhere (IsBound ctx) := fun d hd => (htame d hd).bound
  have hapart : e.Everywhere (IsApart ctx q) := fun d hd => (htame d hd).apart
  have hshown : renderExpr ctx q .sqlServer e = .ok shown := Result.toOption_eq_some.mp (by decide +kernel)
  exact ⟨hq, hnamed, hbound, hapart, hshown, tokenize_renderExpr hq hnamed hbound hapart hshown⟩

/-- The sign of a negation and that of a negative number behind it start a comment. -/
theorem tokenize_renderExpr_twoSigns :
    let q := Query.ofType "Part"
    let e : Expr := .comparison .eq (.prop q.root "cost") (.negate (.int (-5)))
    Unnamed q ∧ e.Everywhere IsNamed ∧ e.Everywhere (IsBound {}) ∧ renderExpr {} q .sqlServer e = .ok "p.cost = --5" ∧
      ∃ ts, tokenize "p.cost = --5" = .ok ts ∧ ∃ t ∈ ts, t.isComment = true := by
  intro q e
  have hq : Unnamed q := by
    unfold Unnamed
    decide
  have htame : e.Everywhere fun d => IsNamed d ∧ IsBound {} d :=
    everywhere_pair rfl ⟨trivial, trivial⟩ (everywhere_leaf rfl ⟨trivial, trivial⟩) (everywhere_iff.mpr ⟨⟨trivial, trivial⟩,
      List.forall_mem_singleton.mpr (everywhere_leaf rfl ⟨trivial, trivial⟩)⟩)
  have hread : (tokenize "p.cost = --5").toOption.any (fun ts => ts.any Token.isComment) = true := by decide +kernel
  obtain ⟨ts, hts, hcomment⟩ := (Option.any_eq_true _ _).mp hread
  exact ⟨hq, fun d hd => (htame d hd).1, fun d hd => (htame d hd).2, Result.toOption_eq_some.mp (by decide +kernel), ts,
    Result.toOption_eq_some.mp hts, List.any_eq_true.mp hcomment⟩

end ItemQuery.Sql
