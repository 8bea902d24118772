import ItemQuery.Proofs.Number.Digits
import ItemQuery.Proofs.Sql.Reading
import ItemQuery.Sql.Statement

/-! Names, parameters, numbers and texts as they are written, and what each is read as. -/

namespace ItemQuery.Sql

/-- A name that a placeholder can have. -/
def IsPlain (name : String) : Prop :=
  ∀ c ∈ name.toList, continuesWord c = true

/-- Writer and reader agree: SQL Server, placeholders for the parameters of some `names`, and one table that both
    know by a name of letters. -/
structure Agree (w : Writer) (scope : Scope) (names : String → Prop) : Prop where
  dialect : w.dialect = .sqlServer
  ne_nil : (w.aliases.name scope.table).toList ≠ []
  letters : ∀ c ∈ (w.aliases.name scope.table).toList, c.isAlpha = true
  owned : scope.owns (w.aliases.name scope.table) = true
  plain : ∀ name, names name → IsPlain name
  placeholder : ∀ name, names name → w.value (.parameter (.named name) none false) = .ok ("@" ++ name)

/-! ### Names -/

theorem continuesWord_of_isAlphanumeric {c : Char} (h : Text.isAlphanumeric c = true ∨ c = '_') :
    continuesWord c = true := by
  rcases h with h | rfl
  · simp [continuesWord, h]
  · decide

/-- A name that needs no quotes is a word. -/
theorem isWord_of_needsQuoting {name : String} (h : needsQuoting name = false) : IsWord name.toList := by
  simp only [needsQuoting, Bool.or_eq_false_iff, List.any_eq_false, Bool.and_eq_true, Bool.not_eq_true', bne_iff_ne,
    not_and, Decidable.not_not] at h
  obtain ⟨⟨⟨-, hne⟩, hchars⟩, hhead⟩ := h
  have hword : ∀ c ∈ name.toList, Text.isAlphanumeric c = true ∨ c = '_' := by
    intro c hc
    cases hcase : Text.isAlphanumeric c with
    | true => exact Or.inl rfl
    | false => exact Or.inr (hchars c hc hcase)
  refine ⟨List.isEmpty_eq_false_iff.mp hne, fun c hc => ?_, fun c hc => ?_⟩
  · have hnumeric : Text.isNumeric c = false := by
      rw [hc] at hhead
      simpa using hhead
    rcases hword c (List.mem_of_mem_head? hc) with hc | rfl
    · have halpha : Text.isAlphabetic c = true := by
        rwa [Text.isAlphanumeric, hnumeric, Bool.or_false] at hc
      simp [startsWord, halpha]
    · decide
  · exact continuesWord_of_isAlphanumeric (hword c (List.mem_of_mem_tail hc))

theorem exists_quoteIdentifier (d : Dialect) (name : String) :
    ∃ opening closing, IsNameMarks opening closing ∧ d.quoteIdentifier name = Text.quotedBy opening closing name := by
  cases d with
  | sqlServer => exact ⟨'[', ']', Or.inl ⟨rfl, rfl⟩, rfl⟩
  | ansi => exact ⟨'"', '"', Or.inr ⟨rfl, rfl⟩, rfl⟩

theorem segment_identifier (d : Dialect) (name : String) {rest : List Char} (h : Delimited rest) :
    segment ((d.identifier name).toList ++ rest) = .found ((d.identifier name).toList, rest) := by
  rw [Dialect.identifier]
  split
  · obtain ⟨opening, closing, hmarks, heq⟩ := exists_quoteIdentifier d name
    rw [heq]
    refine segment_quotedBy hmarks name (h.head?_ne ?_)
    rcases hmarks with ⟨-, rfl⟩ | ⟨-, rfl⟩ <;> decide
  · rename_i hquote
    rw [Bool.not_eq_true] at hquote
    exact (isWord_of_needsQuoting hquote).segment fun c hc => delimiter_not_word (h c hc)

theorem Token.segmentValue_word {cs : List Char} (h : IsWord cs) : segmentValue cs = String.ofList cs := by
  obtain ⟨c, cs, rfl⟩ := List.exists_cons_of_ne_nil h.ne_nil
  have hc := h.head c rfl
  have hbracket : c ≠ '[' := by
    rintro rfl
    exact absurd hc (by decide)
  have hquote : c ≠ '"' := by
    rintro rfl
    exact absurd hc (by decide)
  simp only [segmentValue, Text.between?, hbracket, hquote, if_false]

theorem Token.segmentValue_identifier (d : Dialect) (name : String) :
    segmentValue (d.identifier name).toList = name := by
  rw [Dialect.identifier]
  split
  · obtain ⟨opening, closing, hmarks, heq⟩ := exists_quoteIdentifier d name
    rw [heq, segmentValue_quotedBy hmarks]
  · rename_i hquote
    rw [Bool.not_eq_true] at hquote
    rw [segmentValue_word (isWord_of_needsQuoting hquote), String.ofList_toList]

theorem segmentsOf_last {fuel : Nat} {part : List Char} (hne : part ≠ []) (h : segment part = .found (part, [])) :
    Token.segmentsOf (fuel + 1) part = [Token.segmentValue part] := by
  obtain ⟨c, cs, rfl⟩ := List.exists_cons_of_ne_nil hne
  rw [Token.segmentsOf, h]
  · cases fuel <;> rfl
  · nofun

theorem identifier_ne_nil (d : Dialect) (name : String) : (d.identifier name).toList ≠ [] := by
  rw [Dialect.identifier]
  split
  · obtain ⟨opening, closing, -, heq⟩ := exists_quoteIdentifier d name
    rw [heq, Text.toList_quotedBy]
    exact List.cons_ne_nil _ _
  · rename_i hquote
    rw [Bool.not_eq_true] at hquote
    exact (isWord_of_needsQuoting hquote).ne_nil

/-- A name with its owner has two parts. -/
theorem Token.segments_dotted {t : Token} {d : Dialect} {owner name : String} (howner : IsWord owner.toList)
    (ht : t.text = owner ++ "." ++ d.identifier name) : t.segments = [owner, name] := by
  have hlist : t.text.toList = owner.toList ++ '.' :: (d.identifier name).toList := by
    rw [ht]
    simp
  have hfirst : segment t.text.toList = .found (owner.toList, '.' :: (d.identifier name).toList) := by
    rw [hlist]
    refine howner.segment fun c hc => ?_
    cases hc
    decide
  have hlast : segment (d.identifier name).toList = .found ((d.identifier name).toList, []) := by
    have h := segment_identifier d name delimited_nil
    rwa [List.append_nil] at h
  obtain ⟨fuel, hfuel⟩ : ∃ fuel, t.text.toList.length = fuel + 2 := by
    have hlength : 0 < owner.toList.length := List.length_pos_iff.mpr howner.ne_nil
    rw [hlist, List.length_append, List.length_cons]
    exact ⟨owner.toList.length - 1 + (d.identifier name).toList.length, by omega⟩
  obtain ⟨c, cs, hcons⟩ := List.exists_cons_of_ne_nil (List.ne_nil_of_length_eq_add_one hfuel)
  rw [segments, hfuel, hcons, segmentsOf, ← hcons, hfirst]
  · simp only [segmentsOf_last (identifier_ne_nil d name) hlast, segmentValue_word howner, String.ofList_toList,
      segmentValue_identifier]
  · nofun

theorem toLower_ne_of_mem {s word : String} {c : Char} (hc : c ∈ s.toList) (hlower : c.toLower = c)
    (hword : c ∉ word.toList) : s.toLower ≠ word := by
  intro h
  have hmem : c ∈ s.toLower.toList := by
    rw [Text.toList_toLower, List.mem_map]
    exact ⟨c, hc, hlower⟩
  exact hword (h ▸ hmem)

section
variable {w : Writer} {scope : Scope} {names : String → Prop} (h : Agree w scope names)
include h

theorem Agree.isWord : IsWord (w.aliases.name scope.table).toList :=
  isWord_of_isAlpha h.ne_nil h.letters

theorem Agree.column_eq (name : String) :
    w.column ⟨scope.table, name⟩ = w.aliases.name scope.table ++ "." ++ Dialect.sqlServer.identifier name := by
  rw [Writer.column, h.dialect]

/-- The name of a property is the property. -/
theorem Agree.value_column {t : Token} {name : String} (hname : name ≠ "*")
    (ht : t.text = w.column ⟨scope.table, name⟩) : scope.value t = .ok (.prop scope.table name) := by
  rw [h.column_eq] at ht
  obtain ⟨c, cs, hcs⟩ := List.exists_cons_of_ne_nil h.ne_nil
  have hc : c.isAlpha = true := h.letters c (by rw [hcs]; exact List.mem_cons_self)
  have hpoint : '.' ∈ t.text.toList := by
    rw [ht]
    simp
  have htrue : t.text.toLower ≠ "true" := toLower_ne_of_mem hpoint rfl (by decide)
  have hfalse : t.text.toLower ≠ "false" := toLower_ne_of_mem hpoint rfl (by decide)
  have hhead : ∃ ds, t.text.toList = c :: ds := by
    rw [ht, String.toList_append, String.toList_append, hcs]
    exact ⟨_, rfl⟩
  obtain ⟨ds, hds⟩ := hhead
  unfold Scope.value
  split
  · rename_i heq
    rw [hds] at heq
    rw [(List.cons.inj heq).1] at hc
    exact absurd hc (by decide)
  · rename_i heq
    rw [hds] at heq
    rw [(List.cons.inj heq).1] at hc
    exact absurd hc (by decide)
  · rw [if_neg htrue, if_neg hfalse, Token.segments_dotted h.isWord ht]
    simp only [h.owned, if_true, Scope.property, hname, if_false]

theorem Agree.prints_column (name : String) :
    Prints (w.column ⟨scope.table, name⟩).toList [.name (w.column ⟨scope.table, name⟩)] := by
  rw [h.column_eq]
  exact prints_dotted h.ne_nil h.letters fun rest hrest => segment_identifier .sqlServer name hrest

end

/-! ### Tokens -/

theorem Token.kind_of_name {t : Token} {shown : String} (h : t.phrase = .name shown) :
    t.kind = .identifier ∧ t.text = shown := by
  obtain ⟨kind, text, offset⟩ := t
  cases kind <;> simp_all [Token.phrase, Phrase.of]

theorem Token.kind_of_number {t : Token} {shown : String} (h : t.phrase = .number shown) :
    t.kind = .number ∧ t.text = shown := by
  obtain ⟨kind, text, offset⟩ := t
  cases kind <;> simp_all [Token.phrase, Phrase.of]

theorem Token.kind_of_string {t : Token} {shown : String} (h : t.phrase = .string shown) :
    t.kind = .string ∧ t.text = shown := by
  obtain ⟨kind, text, offset⟩ := t
  cases kind <;> simp_all [Token.phrase, Phrase.of]

/-- The text of a number is read as this expression. -/
def IsValue (text : String) (e : Expr) : Prop :=
  ∀ t : Token, t.text = text → numberValue t = .ok e

section
variable {scope : Scope} (low reach : Nat)

theorem reads_name {shown : String} {e : Expr}
    (h : ∀ t : Token, t.text = shown → scope.value t = .ok e) : Reads scope [.name shown] (.expr e) low reach := by
  refine reads_atom low reach fun t m ht hm => ?_
  obtain ⟨hkind, htext⟩ := t.kind_of_name ht
  simp only [Machine.push, hkind, h t htext, bind, Except.bind, Machine.pushValue, Machine.requireValue, hm, if_true]
  rfl

/-- Whole numbers are read as integers if they are in range. -/
theorem isValue_int {n : Int64} (hn : 0 ≤ n) : IsValue (Number.int64Text n) (.int n) := by
  intro t ht
  have hdigits : ∀ c ∈ t.text.toList, c.isDigit = true := by
    intro c hc
    rw [ht, Number.int64Text_eq_toString hn] at hc
    exact Number.isDigit_of_mem_toString hc
  have hwhole : (t.text.toList.any fun c => c == '.' || c == 'e' || c == 'E') = false := by
    rw [List.any_eq_false]
    intro c hc
    have hdigit := hdigits c hc
    simp only [Bool.or_eq_true, beq_iff_eq]
    rintro ((rfl | rfl) | rfl) <;> exact absurd hdigit (by decide)
  simp only [numberValue, hwhole, Bool.false_eq_true, if_false]
  rw [ht, Number.readInt64?_int64Text]

theorem reads_number {text : String} {e : Expr} (h : IsValue text e) : Reads scope [.number text] (.expr e) low reach := by
  refine reads_atom low reach fun t m ht hm => ?_
  obtain ⟨hkind, htext⟩ := t.kind_of_number ht
  simp only [Machine.push, hkind, h t htext, bind, Except.bind, Machine.pushValue, Machine.requireValue, hm, if_true]
  rfl

theorem reads_string (s : String) : Reads scope [.string (Text.quoted s)] (.expr (.text s)) low reach := by
  refine reads_atom low reach fun t m ht hm => ?_
  obtain ⟨hkind, htext⟩ := t.kind_of_string ht
  simp only [Machine.push, hkind, Token.stringValue_quoted htext, bind, Except.bind, Machine.pushValue,
    Machine.requireValue, hm, if_true]
  rfl

theorem reads_null : Reads scope [.word .null] .null low reach := by
  refine reads_atom low reach fun t m ht hm => ?_
  simp only [Machine.push, t.kind_of_word ht, Machine.pushKeyword, bind, Except.bind, Machine.pushValue,
    Machine.requireValue, hm, if_true]
  rfl

end

theorem prints_int64 {n : Int64} (hn : 0 ≤ n) : Prints (Number.int64Text n).toList [.number (Number.int64Text n)] := by
  rw [Number.int64Text_eq_toString hn]
  exact prints_number (Number.toString_toList_ne_nil _) fun c => Number.isDigit_of_mem_toString

/-! ### Parameters -/

theorem prints_placeholder {name : String} (h : IsPlain name) : Prints ("@" ++ name).toList [.name ("@" ++ name)] := by
  have hlist : ("@" ++ name).toList = '@' :: name.toList := by
    simp
  have hword : IsWord ("@" ++ name).toList := by
    rw [hlist]
    refine ⟨List.cons_ne_nil _ _, fun c hc => ?_, h⟩
    cases hc
    decide
  have hkind : nameKind ("@" ++ name).toList = .identifier :=
    nameKind_eq_identifier (by rw [hlist]; exact List.mem_cons_self) (Or.inr rfl)
  have hprints := hword.prints fun c hc => by
    rw [hlist] at hc
    cases hc
    rfl
  rwa [hkind] at hprints

theorem Scope.value_placeholder (scope : Scope) {t : Token} {name : String} (ht : t.text = "@" ++ name) :
    scope.value t = .ok (.parameter (.named name) none false) := by
  have hlist : t.text.toList = '@' :: name.toList := by
    rw [ht]
    simp
  rw [Scope.value, hlist]
  simp only [String.ofList_toList]

/-- A parameter that is neither bound nor declared is written as a placeholder. -/
theorem value_parameter {w : Writer} (hdialect : w.dialect = .sqlServer)
    (hbound : w.ctx.settings.parameters.entries = []) (hdeclared : w.query.parameters = []) (name : String) :
    w.value (.parameter (.named name) none false) = .ok ("@" ++ name) := by
  have hget : ∀ key, w.ctx.settings.parameters.get? key = none := by
    intro key
    rw [Dictionary.get?, hbound]
    rfl
  have hunbound : w.isBound (.named name) = false := by
    rw [Writer.isBound, Dictionary.contains, hget]
    rfl
  simp only [Writer.value, hunbound, Bool.false_eq_true, if_false, Writer.optionValue, Except.map, Writer.parameter,
    hget, hdeclared, List.find?_nil, Option.bind_none, hdialect, Dialect.placeholder, Writer.parameterName]

end ItemQuery.Sql
