import ItemQuery.Proofs.Expr.Names
import ItemQuery.Proofs.Result
import ItemQuery.Sql.Statement

/-! Texts that depend on how tables are called. A part of a statement is written for every choice of aliases or refused
    for every one, and no alias stands in it but those of the tables that it names: other tables may be called otherwise
    and it stays the same. -/

namespace ItemQuery

namespace Sql

variable {P Q : TableId → Prop} {α β ι κ : Type}

/-! ### Texts -/

/-- A text for each choice of aliases, in which those of tables that satisfy `P` stand. -/
inductive Spells (P : TableId → Prop) : (Aliases → String) → Prop
  | text (s : String) : Spells P fun _ => s
  | name {t : TableId} (ht : P t) : Spells P fun names => names.name t
  | append {f g : Aliases → String} (hf : Spells P f) (hg : Spells P g) : Spells P fun names => f names ++ g names

theorem Spells.mono {f : Aliases → String} (h : Spells P f) (hPQ : ∀ t, P t → Q t) : Spells Q f := by
  induction h with
  | text s => exact .text s
  | name ht => exact .name (hPQ _ ht)
  | append _ _ ihf ihg => exact .append ihf ihg

/-- Lists of one length for each choice of aliases, with a relation between entries and what they are made from. -/
inductive Each (R : ι → (Aliases → α) → Prop) : List ι → (Aliases → List α) → Prop
  | nil : Each R [] fun _ => []
  | cons {i : ι} {is : List ι} {f : Aliases → α} {fs : Aliases → List α} (hf : R i f) (hfs : Each R is fs) :
    Each R (i :: is) fun names => f names :: fs names

theorem spells_intercalate {is : List ι} {fs : Aliases → List String} (sep : String)
    (h : Each (fun _ => Spells P) is fs) : Spells P fun names => sep.intercalate (fs names) := by
  induction h with
  | nil => exact .text _
  | cons hf hfs ih =>
    cases hfs with
    | nil => simpa using hf
    | cons hg hgs =>
      simp only [String.intercalate_cons_cons]
      exact .append (.append hf (.text sep)) ih

/-! ### Outcomes -/

/-- One outcome for each choice of aliases: the same complaint, or results that are related. -/
inductive Spelled (R : (Aliases → α) → Prop) : (Aliases → Result α) → Prop
  | error (err : QueryError) : Spelled R fun _ => .error err
  | ok {f : Aliases → α} (hf : R f) : Spelled R fun names => .ok (f names)

theorem Spelled.const {R : (Aliases → α) → Prop} (x : Result α) (h : ∀ a, R fun _ => a) : Spelled R fun _ => x := by
  cases x with
  | error err => exact .error err
  | ok a => exact .ok (h a)

theorem Spelled.bind {R : (Aliases → α) → Prop} {S : (Aliases → β) → Prop} {x : Aliases → Result α}
    {k : Aliases → α → Result β} (h : Spelled R x) (hk : ∀ f, R f → Spelled S fun names => k names (f names)) :
    Spelled S fun names => x names >>= k names := by
  cases h with
  | error err => exact .error err
  | ok hf => exact hk _ hf

theorem Spelled.map {R : (Aliases → α) → Prop} {S : (Aliases → β) → Prop} {x : Aliases → Result α}
    {k : Aliases → α → β} (h : Spelled R x) (hk : ∀ f, R f → S fun names => k names (f names)) :
    Spelled S fun names => (x names).map (k names) := by
  cases h with
  | error err => exact .error err
  | ok hf => exact .ok (hk _ hf)

theorem Spelled.mapM {R : ι → (Aliases → α) → Prop} {x : Aliases → ι → Result α} {is : List ι}
    (h : ∀ i ∈ is, Spelled (R i) fun names => x names i) :
    Spelled (Each R is) fun names => is.mapM (x names) := by
  induction is with
  | nil => exact .ok .nil
  | cons i is ih =>
    rw [List.forall_mem_cons] at h
    simp only [List.mapM_cons]
    exact h.1.bind fun f hf => (ih h.2).bind fun fs hfs => .ok (.cons hf hfs)

/-! ### Functions -/

section
variable {R : ι → (Aliases → α) → Prop} {is : List ι} {fs : Aliases → List α}

theorem Each.length_eq (h : Each R is fs) (names : Aliases) : (fs names).length = is.length := by
  induction h with
  | nil => rfl
  | cons _ _ ih => exact congrArg (· + 1) ih

theorem Each.eq_one (h : Each R is fs) (hn : is.length = 1) : ∃ i f, R i f ∧ fs = fun names => [f names] := by
  obtain _ | ⟨hf, _ | _⟩ := h
  · cases hn
  · exact ⟨_, _, hf, rfl⟩
  · cases hn

theorem Each.eq_two (h : Each R is fs) (hn : is.length = 2) :
    ∃ i j f g, R i f ∧ R j g ∧ fs = fun names => [f names, g names] := by
  obtain _ | ⟨hf, h⟩ := h
  · cases hn
  · obtain ⟨j, g, hg, rfl⟩ := h.eq_one (Nat.succ.inj hn)
    exact ⟨_, j, _, g, hf, hg, rfl⟩

theorem Each.eq_three (h : Each R is fs) (hn : is.length = 3) :
    ∃ i j k f g e, R i f ∧ R j g ∧ R k e ∧ fs = fun names => [f names, g names, e names] := by
  obtain _ | ⟨hf, h⟩ := h
  · cases hn
  · obtain ⟨j, k, g, e, hg, he, rfl⟩ := h.eq_two (Nat.succ.inj hn)
    exact ⟨_, j, k, _, g, e, hf, hg, he, rfl⟩

end

section
variable {f : Function} {n : Nat} {is : List ι} {fs : Aliases → List String}

/-- Around a text there may be others. -/
theorem Spells.around {f : Aliases → String} (h : Spells P f) (before after : String) :
    Spells P fun names => before ++ f names ++ after :=
  .append (.append (.text before) h) (.text after)

theorem Spells.around_two {f g : Aliases → String} (hf : Spells P f) (hg : Spells P g) (before between after : String) :
    Spells P fun names => before ++ f names ++ between ++ g names ++ after :=
  .append (.append (.append (.append (.text before) hf) (.text between)) hg) (.text after)

/-- Two texts with a word between them. -/
theorem Spells.joined {f g : Aliases → String} (hf : Spells P f) (hg : Spells P g) (word : String) :
    Spells P fun names => f names ++ " " ++ word ++ " " ++ g names :=
  .append (.append (.append (.append hf (.text " ")) (.text word)) (.text " ")) hg

theorem spells_namedCall (f : Function) (h : Each (fun _ => Spells P) is fs) :
    Spells P fun names => f.name ++ "(" ++ ", ".intercalate (fs names) ++ ")" :=
  (spells_intercalate ", " h).around (f.name ++ "(") ")"

theorem spells_serverCall (hf : Dialect.arity? f = some n) (h : Each (fun _ => Spells P) is fs) (hn : is.length = n) :
    Spells P fun names => Dialect.serverCall f (fs names) := by
  cases f with
  | currentDateTime | currentUtcDateTime => exact .text _
  | length | toLower | toUpper | trim | year | month | day | hour | minute | second =>
    cases hf
    obtain ⟨_, a, ha, rfl⟩ := h.eq_one hn
    exact ha.around _ _
  | diffDays =>
    cases hf
    obtain ⟨_, _, a, b, ha, hb, rfl⟩ := h.eq_two hn
    exact ha.around_two hb _ _ _
  | indexOf | addDays | addHours | addMinutes =>
    cases hf
    obtain ⟨_, _, a, b, ha, hb, rfl⟩ := h.eq_two hn
    exact hb.around_two ha _ _ _
  | substring => exact spells_namedCall .substring h
  | startsWith | endsWith | contains | other name => cases hf

theorem spells_ansiCall (hf : Dialect.arity? f = some n) (h : Each (fun _ => Spells P) is fs) (hn : is.length = n) :
    Spells P fun names => Dialect.ansiCall f (fs names) := by
  cases f with
  | currentDateTime | currentUtcDateTime => exact .text _
  | length | toLower | toUpper | year | month | day | hour | minute | second =>
    cases hf
    obtain ⟨_, a, ha, rfl⟩ := h.eq_one hn
    exact ha.around _ _
  | trim => exact spells_namedCall .trim h
  | indexOf =>
    cases hf
    obtain ⟨_, _, a, b, ha, hb, rfl⟩ := h.eq_two hn
    exact hb.around_two ha _ _ _
  | diffDays =>
    cases hf
    obtain ⟨_, _, a, b, ha, hb, rfl⟩ := h.eq_two hn
    exact (hb.around_two ha "(" " - " ")").around _ _
  | addDays | addHours | addMinutes =>
    cases hf
    obtain ⟨_, _, a, b, ha, hb, rfl⟩ := h.eq_two hn
    exact .append (.append (ha.around_two hb _ _ _) (.text _)) (.text _)
  | substring =>
    cases hf
    obtain ⟨_, _, _, a, b, c, ha, hb, hc, rfl⟩ := h.eq_three hn
    exact .append (.append (ha.around_two hb _ _ _) hc) (.text _)
  | startsWith | endsWith | contains | other name => cases hf

theorem spelled_call (d : Dialect) (f : Function) (h : Each (fun _ => Spells P) is fs) :
    Spelled (Spells P) fun names => d.call f (fs names) := by
  simp only [Dialect.call, h.length_eq]
  split
  · exact .error _
  · split
    next n hn =>
      split
      next hlength =>
        cases d with
        | sqlServer => exact .ok (spells_serverCall hn h hlength)
        | ansi => exact .ok (spells_ansiCall hn h hlength)
      next => exact .error _
    next => exact .ok (spells_namedCall f h)

end

/-! ### Expressions -/

namespace Writer

variable {w : Writer} {f g : Aliases → String}

/-- The writer with other aliases. -/
def named (w : Writer) (names : Aliases) : Writer :=
  { w with aliases := names }

@[simp] theorem ctx_named (w : Writer) (names : Aliases) : (w.named names).ctx = w.ctx :=
  rfl

@[simp] theorem query_named (w : Writer) (names : Aliases) : (w.named names).query = w.query :=
  rfl

@[simp] theorem aliases_named (w : Writer) (names : Aliases) : (w.named names).aliases = names :=
  rfl

@[simp] theorem isBound_named (w : Writer) (names : Aliases) (name : ParamName) :
    (w.named names).isBound name = w.isBound name :=
  rfl

theorem spells_column (w : Writer) {p : PropertyRef} (hp : P p.table) : Spells P fun names => (w.named names).column p :=
  .append (.append (.name hp) (.text ".")) (.text (w.dialect.identifier p.name))

theorem spells_enclose (h : Spells P f) (parent : Precedence) (e : Expr) (rightSide associative : Bool) :
    Spells P fun names => Expr.enclose parent e rightSide associative (f names) := by
  unfold Expr.enclose
  split
  · exact h.around "(" ")"
  · exact h

theorem spells_asCondition (w : Writer) (h : Spells P f) (e : Expr) :
    Spells P fun names => (w.named names).asCondition e (f names) := by
  unfold asCondition
  split
  · exact .text _
  · exact .text _
  · exact .append (.append h (.text " = ")) (.text (w.dialect.boolLiteral true))
  · exact h

theorem spells_conditionOperand (w : Writer) (h : Spells P f) (parent : Precedence) (e : Expr) (rightSide : Bool) :
    Spells P fun names => (w.named names).conditionOperand parent e rightSide (f names) :=
  spells_enclose (w.spells_asCondition h e) parent e rightSide true

theorem spelled_stringTest (w : Writer) (function : Function) (subject sought : Expr) (hf : Spells P f) (hg : Spells P g) :
    Spelled (Spells P) fun names => (w.named names).stringTest function subject sought (f names) (g names) := by
  have hleft := spells_enclose hf .comparison subject false false
  have hinner := spells_enclose hg .additive sought true true
  have hlike : ∀ {p : Aliases → String}, Spells P p → Spells P fun names =>
      Expr.enclose .comparison subject false false (f names) ++ " like " ++ p names := fun hp =>
    .append (.append hleft (.text " like ")) hp
  let join := " " ++ w.dialect.concatOperator ++ " "
  unfold stringTest
  dsimp only
  split
  next part _ =>
    exact (Spelled.const (w.dialect.patternLiteral _) Spells.text).bind fun p hp => .ok (hlike hp)
  next =>
    refine .ok (hlike ?_)
    split
    · exact .append (.append hinner (.text join)) (.text "'%'")
    · exact .append (.text ("'%'" ++ join)) hinner
    · exact .append (hinner.around ("'%'" ++ join) join) (.text "'%'")

theorem spelled_call (w : Writer) (function : Function) {args : List Expr} {fs : Aliases → List String}
    (h : Each (fun _ => Spells P) args fs) :
    Spelled (Spells P) fun names => (w.named names).call function args (fs names) := by
  unfold call
  split
  · obtain _ | ⟨hf, _ | ⟨hg, _ | _⟩⟩ := h
    · exact .ok (.text "")
    · exact .ok (.text "")
    · exact w.spelled_stringTest function _ _ hf hg
    · exact .ok (.text "")
  · exact Sql.spelled_call w.dialect function h

theorem spells_parameter (w : Writer) (name : ParamName) (raw : Bool) (h : Spells P f) :
    Spells P fun names => (w.named names).parameter name raw (some (f names)) := by
  unfold parameter
  simp only [ctx_named]
  cases w.ctx.settings.parameters.get? (parameterName name) with
  | some bound => exact .text (if raw then bound else w.dialect.literal (.infer bound))
  | none => exact h

mutual

/-- By the structure of an expression: the aliases of the tables that it names. -/
theorem spelled_value (w : Writer) (e : Expr) (h : e.Names P) :
    Spelled (Spells P) fun names => (w.named names).value e := by
  cases e with
  | literal l =>
    simp only [value]
    exact .ok (.text (w.dialect.literal l))
  | object o =>
    simp only [value]
    exact .ok (.text (w.dialect.literal (w.ctx.coerce w.query o)))
  | property p =>
    simp only [value]
    exact .ok (w.spells_column (h p.table (by simp [Expr.tableRefs])))
  | allProperties table extended =>
    simp only [value]
    exact .ok (.append (.name (h table (by simp [Expr.tableRefs]))) (.text ".*"))
  | pattern p =>
    simp only [value]
    exact .const (w.dialect.patternLiteral p) .text
  | parameter name default raw =>
    cases hbound : w.isBound name with
    | true =>
      simp only [value, isBound_named, hbound, if_true]
      exact .ok (.text (w.parameter name raw none))
    | false =>
      simp only [value, isBound_named, hbound, Bool.false_eq_true, if_false]
      cases default with
      | none => exact .ok (.text (w.parameter name raw none))
      | some e =>
        have hshown : Spelled (fun o => ∃ f, Spells P f ∧ o = fun names => some (f names))
            fun names => (w.named names).optionValue (some e) := by
          simp only [optionValue]
          exact (spelled_value w e h).map fun f hf => ⟨f, hf, rfl⟩
        refine hshown.map ?_
        rintro _ ⟨f, hf, rfl⟩
        exact w.spells_parameter name raw hf
  | list items =>
    simp only [value]
    refine (spelled_values w items h).bind fun fs hfs => .ok ?_
    exact (spells_intercalate ", " hfs).around "(" ")"
  | comparison op l r =>
    simp only [value]
    obtain ⟨hl, hr⟩ := List.forall_mem_append.mp h
    refine (spelled_value w l hl).bind fun f hf => (spelled_value w r hr).bind fun g hg => .ok ?_
    exact (spells_enclose hf _ l _ _).joined (spells_enclose hg _ r _ _) op.symbol
  | like l p negated =>
    simp only [value]
    obtain ⟨hl, hp⟩ := List.forall_mem_append.mp h
    refine (spelled_value w l hl).bind fun f hf => (spelled_value w p hp).bind fun g hg => .ok ?_
    exact (spells_enclose hf _ l _ _).joined (spells_enclose hg _ p _ _) (Expr.negatable negated "like")
  | between l low high negated table =>
    simp only [value]
    obtain ⟨hbounds, hhigh⟩ := List.forall_mem_append.mp h
    obtain ⟨hl, hlow⟩ := List.forall_mem_append.mp hbounds
    refine (spelled_value w l hl).bind fun f hf => (spelled_value w low hlow).bind fun g hg =>
      (spelled_value w high hhigh).bind fun e he => .ok ?_
    have hstart := (spells_enclose hf .comparison l false false).joined
      (spells_enclose hg .subComparison low false false) (Expr.negatable negated "between")
    exact .append (.append hstart (.text " and ")) (spells_enclose he _ high _ _)
  | inList l items negated table =>
    simp only [value]
    obtain ⟨hl, hitems⟩ := List.forall_mem_append.mp h
    split
    · exact .ok (.text _)
    · refine (spelled_value w l hl).bind fun f hf => (spelled_values w items hitems).bind fun fs hfs => .ok ?_
      have hstart := Spells.append (.append (spells_enclose hf .comparison l false false) (.text " "))
        (.text (Expr.negatable negated "in"))
      exact .append (.append (.append hstart (.text " (")) (spells_intercalate ", " hfs)) (.text ")")
  | is l operand =>
    simp only [value]
    refine (spelled_value w l h).bind fun f hf => .ok ?_
    exact .append (spells_enclose hf _ l _ _) (.text _)
  | arithmetic op l r =>
    simp only [value]
    obtain ⟨hl, hr⟩ := List.forall_mem_append.mp h
    refine (spelled_value w l hl).bind fun f hf => (spelled_value w r hr).bind fun g hg => .ok ?_
    exact (spells_enclose hf _ l _ _).joined (spells_enclose hg _ r _ _) (w.arithmeticSymbol op)
  | negate e =>
    simp only [value]
    exact (spelled_value w e h).bind fun f hf => .ok (.append (.text "-") (spells_enclose hf _ e _ _))
  | not e =>
    simp only [value]
    exact (spelled_value w e h).bind fun f hf => .ok (.append (.text "not ") (w.spells_conditionOperand hf _ e _))
  | logical op l r =>
    simp only [value]
    obtain ⟨hl, hr⟩ := List.forall_mem_append.mp h
    refine (spelled_value w l hl).bind fun f hf => (spelled_value w r hr).bind fun g hg => .ok ?_
    exact (w.spells_conditionOperand hf _ l _).joined (w.spells_conditionOperand hg _ r _) op.keyword
  | call function args =>
    simp only [value]
    refine (Spelled.const (R := fun _ => True) (testArity function args) fun _ => trivial).bind fun _ _ => ?_
    exact (spelled_values w args h).bind fun fs hfs => w.spelled_call function hfs

theorem spelled_values (w : Writer) (es : List Expr) (h : ∀ t ∈ Expr.listTableRefs es, P t) :
    Spelled (Each (fun _ => Spells P) es) fun names => (w.named names).values es := by
  cases es with
  | nil => exact .ok .nil
  | cons e es =>
    simp only [values]
    have he : e.Names P := fun t ht => h t (List.mem_append_left _ ht)
    have hes : ∀ t ∈ Expr.listTableRefs es, P t := fun t ht => h t (List.mem_append_right _ ht)
    exact (spelled_value w e he).bind fun f hf => (spelled_values w es hes).bind fun fs hfs => .ok (.cons hf hfs)

end

end Writer

end Sql
end ItemQuery
