import ItemQuery.Proofs.Number.Digits
import ItemQuery.Proofs.Search.Texts

/-! Values in search boxes. A truth value, an integer or a text is written as one piece, which is read as this value by
    the data type of the property; behind an operator or between the points of a range it is read as well, if the data
    type has operators. -/

namespace ItemQuery.Search

open Pattern

/-- Values of a data type that stand in search boxes: truth values, integers, and texts that are not empty and have no
    white space at their ends. -/
def IsValue : DataType → Expr → Prop
  | .boolean, .literal (.bool _) => True
  | .integer, .literal (.integer _) => True
  | .string, .literal (.string value) => value ≠ "" ∧ Trimmed value.toList
  | _, _ => False

/-- The reader of the default settings. -/
abbrev reader (type : DataType) (condition : Option Condition) : Reader :=
  { settings := {}, dataType := type, condition }

/-! ### Pieces -/

/-- A piece that is not dropped. -/
def Solid (piece : List Char) : Prop :=
  piece ≠ [] ∧ Trimmed piece

theorem Solid.trim {piece : List Char} (h : Solid piece) : Text.trim (String.ofList piece) = String.ofList piece := by
  rw [Text.trim, String.toList_ofList, h.2]

/-- The characters of numbers, of times and of operators. -/
def isPlain (c : Char) : Bool :=
  c.isDigit || ['-', '+', ':', 'T', '<', '>', '=', '.'].contains c

theorem isPlain_of_isDigit {c : Char} (h : c.isDigit = true) : isPlain c = true := by
  rw [isPlain, h, Bool.true_or]

theorem cuts_of_isPlain {cs : List Char} (h : ∀ c ∈ cs, isPlain c = true) : Cuts {} cs [cs] := by
  refine (bound_of_forall fun c hc => ?_).cuts
  have hne : ∀ x : Char, isPlain x = false → c ≠ x := by
    rintro x hx rfl
    exact absurd (h c hc) (by simp [hx])
  simp [Plain, hne '|' (by decide), (hne '\\' (by decide)).symm]

theorem solid_of_isPlain {cs : List Char} (hne : cs ≠ []) (h : ∀ c ∈ cs, isPlain c = true) : Solid cs := by
  refine ⟨hne, Text.trimWhile_of_forall fun c hc => ?_⟩
  have hplain := h c hc
  simp only [isPlain, List.contains_cons, List.contains_nil, Bool.or_eq_true, beq_iff_eq, Bool.or_false] at hplain
  rcases hplain with hdigit | rfl | rfl | rfl | rfl | rfl | rfl | rfl | rfl
  · exact Text.isBlank_eq_false_of_isDigit hdigit
  all_goals decide

/-- A character that a number or a date can start with. -/
def StartsNumber (c : Char) : Prop :=
  c.isDigit = true ∨ c = '-' ∨ c = '+'

/-! ### Integers -/

theorem isPlain_of_mem_int64Text {n : Int64} {c : Char} (hc : c ∈ (Number.int64Text n).toList) : isPlain c = true := by
  obtain ⟨k, ⟨-, htext⟩ | ⟨-, htext⟩⟩ := Number.int64Text_cases n <;> rw [htext] at hc
  · exact isPlain_of_isDigit (Number.isDigit_of_mem_toString hc)
  · rcases List.mem_cons.mp hc with rfl | hc
    · decide
    · exact isPlain_of_isDigit (Number.isDigit_of_mem_toString hc)

/-- An integer starts with a digit or its sign, and has no point. -/
theorem exists_int64Text (n : Int64) : ∃ c cs, (Number.int64Text n).toList = c :: cs ∧ StartsNumber c ∧
    ∀ x ∈ (Number.int64Text n).toList, x ≠ '.' := by
  obtain ⟨k, ⟨-, htext⟩ | ⟨-, htext⟩⟩ := Number.int64Text_cases n <;> rw [htext]
  · obtain ⟨c, cs, hcs⟩ := List.exists_cons_of_ne_nil (Number.toString_toList_ne_nil k)
    have hdigit : ∀ x ∈ (toString k).toList, x.isDigit = true := fun x hx => Number.isDigit_of_mem_toString hx
    refine ⟨c, cs, hcs, .inl (hdigit c (hcs ▸ List.mem_cons_self)), fun x hx => ?_⟩
    rintro rfl
    exact absurd (hdigit _ hx) (by decide)
  · refine ⟨'-', _, rfl, .inr (.inl rfl), fun x hx => ?_⟩
    rcases List.mem_cons.mp hx with rfl | hx
    · decide
    · rintro rfl
      exact absurd (Number.isDigit_of_mem_toString hx) (by decide)

theorem solid_int64Text (n : Int64) : Solid (Number.int64Text n).toList := by
  obtain ⟨c, cs, hcs, -⟩ := exists_int64Text n
  exact solid_of_isPlain (by simp [hcs]) fun c hc => isPlain_of_mem_int64Text hc

theorem trim_int64Text (n : Int64) : Text.trim (Number.int64Text n) = Number.int64Text n := by
  have htrim := (solid_int64Text n).trim
  rwa [String.ofList_toList] at htrim

theorem literal_int64Text (n : Int64) (condition : Option Condition) :
    (reader .integer condition).literal (Number.int64Text n) = .ok (.int n) := by
  simp only [Reader.literal, trim_int64Text, Number.readInt64?_int64Text]
  rfl

/-! ### Reading back -/

/-- The spelling is looked up character by character. -/
theorem readBool_eq (value : String) : readBool value =
    (let shown := String.ofList ((Text.trim value).toList.map Char.toLower)
    if ["1", "true", "yes", "on"].contains shown then .ok true
    else if ["0", "false", "no", "off"].contains shown then .ok false
    else .error (.parse 0 ("'" ++ value ++ "' is not a boolean"))) := by
  have hlower : (Text.trim value).toLower = String.ofList ((Text.trim value).toList.map Char.toLower) := by
    rw [← String.toList_inj, String.toList_ofList, Text.toList_toLower]
  rw [readBool, hlower]

theorem readBool_digit (b : Bool) : readBool (if b then "1" else "0") = .ok b := by
  rw [readBool_eq]
  cases b <;> rfl

variable {type : DataType} {value subject : Expr} {op : ComparisonOp} {shown : String}

/-- A value is cut into one piece, which is read as the value. -/
theorem exists_of_valueText (hvalue : IsValue type value) (h : valueText {} value = .ok shown) :
    ∃ piece, Cuts {} shown.toList [piece] ∧ Solid piece ∧
      ∀ condition, (reader type condition).literal (String.ofList piece) = .ok value := by
  unfold IsValue at hvalue
  split at hvalue
  next b =>
    have hpiece : shown.toList = [if b then '1' else '0'] := by
      cases h
      cases b <;> rfl
    have hplain : ∀ c ∈ [if b then '1' else '0'], isPlain c = true := by cases b <;> decide
    refine ⟨[if b then '1' else '0'], ?_, solid_of_isPlain (by simp) hplain, fun condition => ?_⟩
    · rw [hpiece]
      exact cuts_of_isPlain hplain
    · have hshown : String.ofList [if b then '1' else '0'] = if b then "1" else "0" := by cases b <;> rfl
      have htrim : Text.trim (if b then "1" else "0") = if b then "1" else "0" := by cases b <;> rfl
      rw [hshown]
      simp only [Reader.literal, htrim, readBool_digit]
      rfl
  next n =>
    cases h
    refine ⟨_, cuts_of_isPlain fun c hc => isPlain_of_mem_int64Text hc, solid_int64Text n, fun condition => ?_⟩
    rw [String.ofList_toList]
    exact literal_int64Text n condition
  next text =>
    obtain ⟨piece, hcuts, hne, htrim, hread⟩ := exists_of_literalText escapes_default hvalue.1 hvalue.2 h
    refine ⟨piece, hcuts, ⟨hne, htrim⟩, fun condition => ?_⟩
    have hpiece : Text.trim (String.ofList piece) = String.ofList piece := Solid.trim ⟨hne, htrim⟩
    simp only [Reader.literal, hpiece, hread, Result.ok_bind, literal?_ofText hvalue.1]
    rfl
  next => exact hvalue.elim

/-! ### Comparisons -/

theorem comparisonText_of_isValue (hvalue : IsValue type value) (op : ComparisonOp) :
    comparisonText {} op value =
      (valueText {} value).map fun shown => if op = .eq then shown else op.symbol ++ shown := by
  have hoperators : requireOperators {} = .ok () := rfl
  unfold IsValue at hvalue
  split at hvalue
  next => cases op <;> rfl
  next => cases op <;> rfl
  next text =>
    simp only [comparisonText, withOperator, hoperators]
    cases valueText {} (.literal (.string text)) with
    | error => rfl
    | ok shown => cases op <;> rfl
  next => exact hvalue.elim

theorem StartsNumber.ne {c : Char} (hc : StartsNumber c) :
    (c ≠ '=' ∧ c ≠ '>' ∧ c ≠ '<' ∧ c ≠ '!') ∧ Text.isSpacing c = false := by
  rcases hc with hdigit | rfl | rfl
  · have hne : ∀ x : Char, x.isDigit = false → c ≠ x := by
      rintro x hx rfl
      exact absurd hx (by rw [hdigit]; decide)
    have hspacing : Text.isSpacing c = false := by
      simp [Text.isSpacing, hne ' ' (by decide), hne '\t' (by decide), hne '\r' (by decide), hne '\n' (by decide)]
    exact ⟨⟨hne _ (by decide), hne _ (by decide), hne _ (by decide), hne _ (by decide)⟩, hspacing⟩
  · decide
  · decide

/-- The operators as they are written in front of a value. -/
def operators : List (String × ComparisonOp) :=
  [("=", .eq), ("<>", .ne), ("!=", .ne), ("<", .lt), ("<=", .le), (">", .gt), (">=", .ge)]

theorem leadingOperator?_mark {mark : String} (hmark : (mark, op) ∈ operators) {cs : List Char}
    (hcs : ∀ c, cs.head? = some c → c ≠ '=' ∧ c ≠ '>') :
    leadingOperator? (mark.toList ++ cs) = some (op, cs.dropWhile Text.isSpacing) := by
  simp only [operators, List.mem_cons, Prod.mk.injEq, List.not_mem_nil, or_false] at hmark
  cases cs with
  | nil => rcases hmark with h | h | h | h | h | h | h <;> obtain ⟨rfl, rfl⟩ := h <;> rfl
  | cons c cs =>
    obtain ⟨heq, hgt⟩ := hcs c rfl
    rcases hmark with h | h | h | h | h | h | h <;> obtain ⟨rfl, rfl⟩ := h <;> simp [leadingOperator?, heq, hgt]

theorem leadingOperator?_symbol {c : Char} {cs : List Char} (hc : StartsNumber c) (op : ComparisonOp) :
    leadingOperator? (op.symbol.toList ++ c :: cs) = some (op, c :: cs) := by
  obtain ⟨⟨heq, hgt, -, -⟩, hspacing⟩ := hc.ne
  have hsymbol : (op.symbol, op) ∈ operators := by cases op <;> decide
  rw [leadingOperator?_mark hsymbol (by rintro _ ⟨⟩; exact ⟨heq, hgt⟩),
    Text.dropWhile_of_head? (by rintro _ ⟨⟩; exact hspacing)]

theorem leadingOperator?_eq_none {cs : List Char}
    (hcs : ∀ c, cs.head? = some c → c ≠ '=' ∧ c ≠ '>' ∧ c ≠ '<' ∧ c ≠ '!') : leadingOperator? cs = none := by
  cases cs with
  | nil => rfl
  | cons c cs =>
    obtain ⟨heq, hgt, hlt, hnot⟩ := hcs c rfl
    simp [leadingOperator?, heq, hgt, hlt, hnot]

/-- A comparison of the default reader; the one without an operator is an equality. -/
def comparedBy (type : DataType) (subject : Expr) (op : ComparisonOp) (shown : String) : Result Expr :=
  if type = .date && DateTime.isDateOnly shown then do
    let first ← (reader type none).bound shown false
    let last ← (reader type none).bound shown true
    return Reader.dayCriterion subject op first last
  else return .comparison op subject (← (reader type none).literal shown)

theorem compared_eq (text : String) : (reader type none).compared subject text =
    (leadingOperator? text.toList).elim (comparedBy type subject .eq text) fun found =>
      comparedBy type subject found.1 (Text.trim (String.ofList found.2)) := by
  unfold Reader.compared
  cases leadingOperator? text.toList <;> rfl

theorem compared_symbol {text : String} {c : Char} {cs : List Char} (htext : text.toList = c :: cs)
    (hc : StartsNumber c) (htrim : Text.trim text = text) (op : ComparisonOp) :
    (reader type none).compared subject (if op = .eq then text else op.symbol ++ text) =
      comparedBy type subject op text := by
  by_cases hop : op = .eq
  · subst hop
    rw [if_pos rfl, compared_eq, htext, leadingOperator?_eq_none (by rintro _ ⟨⟩; exact hc.ne.1)]
    rfl
  · have hlist : (op.symbol ++ text).toList = op.symbol.toList ++ c :: cs := by rw [String.toList_append, htext]
    rw [if_neg hop, compared_eq, hlist, leadingOperator?_symbol hc, ← htext]
    simp only [Option.elim_some, String.ofList_toList, htrim]

theorem range?_eq_none {value : String} (h : ∀ c ∈ value.toList, c ≠ '.') : range? value = none := by
  have hcut : Text.cut? "...".toList value.toList = none := Text.cut?_eq_none h ['.', '.']
  rw [range?, hcut]
  rfl

theorem ne_point_of_mem_symbol {text : String} (h : ∀ x ∈ text.toList, x ≠ '.') (op : ComparisonOp) :
    ∀ x ∈ (if op = .eq then text else op.symbol ++ text).toList, x ≠ '.' := by
  have hsymbol : ∀ x ∈ op.symbol.toList, x ≠ '.' := by cases op <;> decide
  intro x hx
  split at hx
  next => exact h x hx
  next =>
    rw [String.toList_append, List.mem_append] at hx
    exact hx.elim (hsymbol x) (h x)

theorem alternative_int64Text (n : Int64) (op : ComparisonOp) : (reader .integer none).alternative subject
    (if op = .eq then Number.int64Text n else op.symbol ++ Number.int64Text n) = .ok (.comparison op subject (.int n)) := by
  obtain ⟨c, cs, hcs, hc, hpoint⟩ := exists_int64Text n
  have hcompared : (reader .integer none).compared subject _ = _ := compared_symbol hcs hc (trim_int64Text n) op
  simp only [Reader.alternative, DataType.isNumeric, Reader.ordered,
    range?_eq_none (ne_point_of_mem_symbol hpoint op), hcompared]
  simp [comparedBy, literal_int64Text, bind, Except.bind, pure, Except.pure]

theorem alternative_boolean (value : String) : (reader .boolean none).alternative subject value =
    (readBool value).map fun b => .comparison .eq subject (.bool b) := by
  cases hvalue : readBool value <;>
    simp [Reader.alternative, Reader.defaultOp, hvalue, bind, Except.bind, pure, Except.pure, Except.map]

/-- Truth values are read without an operator. -/
theorem eq_of_alternative_boolean {b : Bool} {op : ComparisonOp} {e : Expr}
    (h : (reader .boolean none).alternative subject
      (if op = .eq then (if b then "1" else "0") else op.symbol ++ if b then "1" else "0") = .ok e) :
    e = .comparison op subject (.bool b) := by
  rw [alternative_boolean] at h
  obtain ⟨b', hb', rfl⟩ := Result.map_eq_ok.mp h
  by_cases hop : op = .eq
  · subst hop
    rw [if_pos rfl, readBool_digit] at hb'
    cases hb'
    rfl
  · have herror : ∀ b : Bool, ∃ err, readBool (op.symbol ++ if b then "1" else "0") = .error err := by
      intro b
      rw [readBool_eq]
      cases op <;> first | exact absurd rfl hop | (cases b <;> exact ⟨_, rfl⟩)
    obtain ⟨err, herr⟩ := herror b
    rw [if_neg hop, herr] at hb'
    cases hb'

theorem alternative_text {s : SearchSettings} {piece : List Char} {text : String} (hne : text ≠ "")
    (hread : ofWildcard (wildcards s) (String.ofList piece) = .ok (ofText text)) :
    Reader.alternative { settings := s, dataType := .string } subject (String.ofList piece) =
      .ok (.comparison .eq subject (.text text)) := by
  simp [Reader.alternative, DataType.isNumeric, Reader.textual, hread, literal?_ofText hne, Reader.defaultOp, bind,
    Except.bind, pure, Except.pure]

/-! ### Ranges -/

theorem readBool_range (a b : Bool) :
    ∃ err, readBool ((if a then "1" else "0") ++ "..." ++ if b then "1" else "0") = .error err := by
  rw [readBool_eq]
  cases a <;> cases b <;> exact ⟨_, rfl⟩

/-- A text is cut at its first points, and what stands at both sides is trimmed. -/
theorem range?_append {low : String} (h : ∀ c ∈ low.toList, c ≠ '.') (high : String) :
    range? (low ++ "..." ++ high) = some (Text.trim low, Text.trim high) := by
  have hcut := Text.cut?_append_append h ['.', '.'] high.toList
  have hlist : (low ++ "..." ++ high).toList = low.toList ++ '.' :: (['.', '.'] ++ high.toList) := by simp
  have hmark : "...".toList = ['.', '.', '.'] := rfl
  rw [range?, hlist, hmark, hcut]
  simp only [Option.map_some, String.ofList_toList]

theorem range?_int64Text (a b : Int64) : range? (Number.int64Text a ++ "..." ++ Number.int64Text b) =
    some (Number.int64Text a, Number.int64Text b) := by
  obtain ⟨-, -, -, -, hpoint⟩ := exists_int64Text a
  rw [range?_append hpoint, trim_int64Text, trim_int64Text]

theorem alternative_range {value : String} {a b : Int64}
    (h : range? value = some (Number.int64Text a, Number.int64Text b)) :
    (reader .integer none).alternative subject value = .ok (.between subject (.int a) (.int b) false none) := by
  have hbound : ∀ n last, (reader .integer none).bound (Number.int64Text n) last = .ok (.int n) := by
    intro n last
    simp [Reader.bound, literal_int64Text]
  simp [Reader.alternative, DataType.isNumeric, Reader.ordered, h, hbound, bind, Except.bind, pure, Except.pure]

/-- A range is cut into one piece, which is read, if it can be read, as the range. -/
theorem exists_of_rangeText {low high : Expr} {lowText highText : String} (hlow : IsValue type low)
    (hhigh : IsValue type high) (htype : type ≠ .string) (hlowText : valueText {} low = .ok lowText)
    (hhighText : valueText {} high = .ok highText) :
    ∃ piece, Cuts {} (lowText ++ "..." ++ highText).toList [piece] ∧ Solid piece ∧
      ∀ e, (reader type none).alternative subject (String.ofList piece) = .ok e →
        e = .between subject low high false none := by
  have hsolid : (∀ c ∈ lowText.toList, isPlain c = true) → (∀ c ∈ highText.toList, isPlain c = true) →
      Cuts {} (lowText ++ "..." ++ highText).toList [(lowText ++ "..." ++ highText).toList] ∧
        Solid (lowText ++ "..." ++ highText).toList := by
    intro hl hh
    have hall : ∀ c ∈ (lowText ++ "..." ++ highText).toList, isPlain c = true := by
      have hpoints : ∀ c ∈ "...".toList, isPlain c = true := by decide
      simp only [String.toList_append, List.mem_append, or_imp, forall_and]
      exact ⟨⟨hl, hpoints⟩, hh⟩
    exact ⟨cuts_of_isPlain hall, solid_of_isPlain (by simp) hall⟩
  unfold IsValue at hlow
  split at hlow
  next a =>
    unfold IsValue at hhigh
    split at hhigh <;> try contradiction
    next b _ =>
      cases hlowText
      cases hhighText
      have hbool : ∀ b : Bool, ∀ c ∈ (if b then "1" else "0").toList, isPlain c = true := by decide
      obtain ⟨hcuts, hpiece⟩ := hsolid (hbool a) (hbool b)
      refine ⟨_, hcuts, hpiece, fun e he => ?_⟩
      obtain ⟨err, herr⟩ := readBool_range a b
      rw [String.ofList_toList, alternative_boolean, herr] at he
      cases he
  next a =>
    unfold IsValue at hhigh
    split at hhigh <;> try contradiction
    next b _ =>
      cases hlowText
      cases hhighText
      obtain ⟨hcuts, hpiece⟩ := hsolid (fun c hc => isPlain_of_mem_int64Text hc) fun c hc => isPlain_of_mem_int64Text hc
      refine ⟨_, hcuts, hpiece, fun e he => ?_⟩
      rw [String.ofList_toList, alternative_range (range?_int64Text a b)] at he
      exact (Except.ok.inj he).symm
  next => exact absurd rfl htype
  next => exact hlow.elim

/-- A comparison is cut into one piece, which is read, if it can be read, as the comparison. -/
theorem exists_of_comparisonText (hvalue : IsValue type value) (hop : type = .string → op = .eq)
    (h : comparisonText {} op value = .ok shown) : ∃ piece, Cuts {} shown.toList [piece] ∧ Solid piece ∧
      ∀ e, (reader type none).alternative subject (String.ofList piece) = .ok e → e = .comparison op subject value := by
  rw [comparisonText_of_isValue hvalue] at h
  obtain ⟨text, htext, rfl⟩ := Result.map_eq_ok.mp h
  have hsymbol : ∀ c ∈ op.symbol.toList, isPlain c = true := by cases op <;> decide
  have hplain : (∀ c ∈ text.toList, isPlain c = true) →
      ∀ c ∈ (if op = .eq then text else op.symbol ++ text).toList, isPlain c = true := by
    intro hall c hc
    split at hc
    next => exact hall c hc
    next =>
      rw [String.toList_append, List.mem_append] at hc
      exact hc.elim (hsymbol c) (hall c)
  unfold IsValue at hvalue
  split at hvalue
  next b =>
    cases htext
    have hall := hplain (by cases b <;> decide)
    refine ⟨_, cuts_of_isPlain hall, solid_of_isPlain ?_ hall, fun e he => ?_⟩
    · cases op <;> cases b <;> decide
    · rw [String.ofList_toList] at he
      exact eq_of_alternative_boolean he
  next n =>
    cases htext
    have hall := hplain fun c hc => isPlain_of_mem_int64Text hc
    refine ⟨_, cuts_of_isPlain hall, solid_of_isPlain ?_ hall, fun e he => ?_⟩
    · obtain ⟨c, cs, hcs, -⟩ := exists_int64Text n
      split <;> simp [hcs]
    · rw [String.ofList_toList, alternative_int64Text] at he
      exact (Except.ok.inj he).symm
  next string =>
    cases hop rfl
    obtain ⟨piece, hcuts, hne, htrim, hread⟩ := exists_of_literalText escapes_default hvalue.1 hvalue.2 htext
    refine ⟨piece, hcuts, ⟨hne, htrim⟩, fun e he => ?_⟩
    rw [alternative_text hvalue.1 hread] at he
    exact (Except.ok.inj he).symm
  next => exact hvalue.elim

end ItemQuery.Search
