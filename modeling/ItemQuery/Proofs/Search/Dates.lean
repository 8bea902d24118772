import ItemQuery.Proofs.Calendar.Texts
import ItemQuery.Proofs.Search.Terms

/-! Dates in search boxes. A date without a time is read as its whole day, and the first second of a day is written as
    its date, so that a test is read back with the whole day wherever one is understood. Every other test is read as it
    was written. -/

namespace ItemQuery.Search

open ItemQuery.Expr

variable {p : PropertyRef} {x e : Expr} {t a b : DateTime} {op : ComparisonOp} {value shown : String}

/-- A time as a value. -/
abbrev time (t : DateTime) : Expr :=
  .literal (.dateTime t)

/-- The time, if the expression is one. -/
def time? : Expr → Option DateTime
  | .literal (.dateTime t) => some t
  | _ => none

/-- The tests of a criterion: a list of values is an equality with each of them. -/
def tests : Expr → List Expr
  | .inList l items false _ => items.map (.comparison .eq l)
  | e => e.flatten .or

/-- The times that a criterion speaks of. -/
def times (e : Expr) : List DateTime :=
  (tests e).flatMap fun x => x.children.filterMap time?

/-- A test that is not widened when it is read back: the first second of a day stands where a whole day is not
    understood, after `>=` or `<` or at the start of a range. -/
def Exact : Expr → Prop
  | .comparison op _ (.literal (.dateTime t)) => t.isMidnight = true → op = .ge ∨ op = .lt
  | .between _ _ (.literal (.dateTime t)) _ _ => t.isMidnight = false
  | _ => True

/-- What is read for the text of a test. -/
def reread : Expr → Expr
  | .comparison op l (.literal (.dateTime t)) =>
    if t.isMidnight then Reader.dayCriterion l op (time t) (time t.endOfDay) else .comparison op l (time t)
  | .between l low (.literal (.dateTime t)) negated table =>
    .between l low (time (if t.isMidnight then t.endOfDay else t)) negated table
  | e => e

/-! ### What is read -/

/-- A test with a time of the calendar, or with a range of such times. -/
inductive DateTest (p : PropertyRef) : Expr → Prop
  | comparison (op : ComparisonOp) {t : DateTime} (h : t.Valid) : DateTest p (.comparison op (.property p) (time t))
  | range {a b : DateTime} (negated : Bool) (ha : a.Valid) (hb : b.Valid) :
    DateTest p (.between (.property p) (time a) (time b) negated none)

theorem exists_of_bound {last : Bool} (h : (reader .date none).bound value last = .ok e) :
    ∃ t : DateTime, e = time t ∧ t.Valid := by
  simp only [Reader.bound, if_true] at h
  split at h
  next => cases h
  next t ht =>
    cases h
    refine ⟨_, rfl, ?_⟩
    have hvalid := DateTime.valid_of_read? ht
    split
    next => exact hvalid.endOfDay
    next => exact hvalid

theorem exists_of_dateLiteral (h : (reader .date none).literal value = .ok e) :
    ∃ t : DateTime, e = time t ∧ t.Valid := by
  simp only [Reader.literal] at h
  cases hread : DateTime.read? (Text.trim value) with
  | none =>
    rw [hread] at h
    cases h
  | some t =>
    rw [hread] at h
    cases h
    exact ⟨t, rfl, DateTime.valid_of_read? hread⟩

theorem dateTest_dayCriterion (op : ComparisonOp) (ha : a.Valid) (hb : b.Valid) :
    DateTest p (Reader.dayCriterion (.property p) op (time a) (time b)) := by
  cases op
  case eq => exact .range _ ha hb
  case ne => exact .range _ ha hb
  case gt => exact .comparison _ hb
  case le => exact .comparison _ hb
  case ge => exact .comparison _ ha
  case lt => exact .comparison _ ha

theorem dateTest_of_comparedBy (h : comparedBy .date (.property p) op value = .ok e) : DateTest p e := by
  unfold comparedBy at h
  split at h
  next =>
    obtain ⟨first, hfirst, h⟩ := Result.bind_eq_ok.mp h
    obtain ⟨last, hlast, h⟩ := Result.bind_eq_ok.mp h
    cases h
    obtain ⟨a, rfl, ha⟩ := exists_of_bound hfirst
    obtain ⟨b, rfl, hb⟩ := exists_of_bound hlast
    exact dateTest_dayCriterion op ha hb
  next =>
    obtain ⟨literal, hliteral, h⟩ := Result.bind_eq_ok.mp h
    cases h
    obtain ⟨t, rfl, ht⟩ := exists_of_dateLiteral hliteral
    exact .comparison op ht

theorem test_of_range? {low high : String} (h : range? value = some (low, high)) : test .date p value = (do
    let first ← (reader .date none).bound low false
    let last ← (reader .date none).bound high true
    return .between (.property p) first last false none) := by
  simp [test, Reader.alternative, DataType.isNumeric, Reader.ordered, h]

theorem test_of_range?_eq_none (h : range? value = none) :
    test .date p value = (reader .date none).compared (.property p) value := by
  simp [test, Reader.alternative, DataType.isNumeric, Reader.ordered, h]

theorem dateTest_of_alternative (h : test .date p value = .ok e) : DateTest p e := by
  cases hrange : range? value with
  | some ends =>
    rw [test_of_range? hrange] at h
    obtain ⟨first, hfirst, h⟩ := Result.bind_eq_ok.mp h
    obtain ⟨last, hlast, h⟩ := Result.bind_eq_ok.mp h
    cases h
    obtain ⟨a, rfl, ha⟩ := exists_of_bound hfirst
    obtain ⟨b, rfl, hb⟩ := exists_of_bound hlast
    exact .range false ha hb
  | none =>
    rw [test_of_range?_eq_none hrange, compared_eq] at h
    cases hleading : leadingOperator? value.toList with
    | none =>
      rw [hleading, Option.elim_none] at h
      exact dateTest_of_comparedBy h
    | some found =>
      rw [hleading, Option.elim_some] at h
      exact dateTest_of_comparedBy h

theorem DateTest.flatten (h : DateTest p x) (op : LogicalOp) : x.flatten op = [x] := by
  cases h <;> rfl

theorem DateTest.comparedSubject (h : DateTest p x) : ∀ left, comparedSubject? x = some left → left = .property p := by
  intro left hleft
  cases h with
  | comparison op ht => exact (Option.some.inj hleft).symm
  | range => cases hleft

/-- What is read back is a test of the same kind, and the same test if and only if it is exact. -/
theorem DateTest.reread (h : DateTest p x) : DateTest p (reread x) := by
  cases h with
  | @comparison op t ht =>
    rw [Search.reread]
    split
    next => exact dateTest_dayCriterion op ht ht.endOfDay
    next => exact .comparison op ht
  | range negated ha hb =>
    refine .range negated ha ?_
    split
    next => exact hb.endOfDay
    next => exact hb

theorem isMidnight_endOfDay (t : DateTime) : t.endOfDay.isMidnight = false := rfl

theorem ne_endOfDay (h : t.isMidnight = true) : t.endOfDay ≠ t := by
  intro heq
  rw [← heq, isMidnight_endOfDay] at h
  cases h

theorem DateTest.reread_eq_iff (h : DateTest p x) : Search.reread x = x ↔ Exact x := by
  cases h with
  | @comparison op t ht =>
    cases hmidnight : t.isMidnight with
    | false => simp [Search.reread, Exact, hmidnight]
    | true => cases op <;> simp [Search.reread, Exact, hmidnight, Reader.dayCriterion, ne_endOfDay]
  | @range a b negated ha hb =>
    cases hmidnight : b.isMidnight <;> simp [Search.reread, Exact, hmidnight, ne_endOfDay]

/-! ### Times as text -/

/-- A text that starts as a date and has the characters of dates and times. -/
structure DateLike (text : String) : Prop where
  chars : ∀ c ∈ text.toList, DateTime.isDateChar c = true
  start : ∃ c cs, text.toList = c :: cs ∧ StartsNumber c

theorem exists_dateText (t : DateTime) : ∃ c cs, t.dateText.toList = c :: cs ∧ StartsNumber c := by
  have hyear : ∃ c cs, (DateTime.yearText t.date.year).toList = c :: cs ∧ StartsNumber c := by
    have hpadded : ∀ n, ∃ c cs, (DateTime.padded 4 n).toList = c :: cs ∧ StartsNumber c := by
      intro n
      obtain ⟨c, cs, hcs⟩ := List.exists_cons_of_ne_nil (DateTime.padded_ne_nil 4 n)
      exact ⟨c, cs, hcs, .inl (DateTime.isDigit_of_mem_padded (hcs ▸ List.mem_cons_self))⟩
    unfold DateTime.yearText
    split
    · exact hpadded _
    · split
      · exact ⟨'-', _, by rw [String.toList_append]; rfl, .inr (.inl rfl)⟩
      · exact ⟨'+', _, by rw [String.toList_append]; rfl, .inr (.inr rfl)⟩
  obtain ⟨c, cs, hcs, hc⟩ := hyear
  simp only [DateTime.dateText, String.toList_append, hcs, List.cons_append]
  exact ⟨c, _, rfl, hc⟩

theorem dateLike_dateText (t : DateTime) : DateLike t.dateText :=
  ⟨DateTime.isDateChar_dateText t, exists_dateText t⟩

theorem dateLike_isoText (t : DateTime) : DateLike t.isoText := by
  obtain ⟨c, cs, hcs, hc⟩ := exists_dateText t
  refine ⟨DateTime.isDateChar_isoText t, ?_⟩
  simp only [DateTime.isoText, String.toList_append, hcs, List.cons_append]
  exact ⟨c, _, rfl, hc⟩

section
variable {text : String}

theorem DateLike.trim (h : DateLike text) : Text.trim text = text := by
  rw [Text.trim, DateTime.trimWhile_of_isDateChar h.chars, String.ofList_toList]

theorem DateLike.ne_point (h : DateLike text) : ∀ c ∈ text.toList, c ≠ '.' := by
  rintro _ hc rfl
  exact absurd (h.chars _ hc) (by decide)

theorem DateLike.isPlain (h : DateLike text) : ∀ c ∈ text.toList, isPlain c = true := by
  intro c hc
  have hchar := h.chars c hc
  simp only [DateTime.isDateChar, Search.isPlain, List.contains_cons, List.contains_nil, Bool.or_eq_true] at hchar ⊢
  tauto

/-- A text of a time behind an operator is compared. -/
theorem DateLike.test_symbol (h : DateLike text) (op : ComparisonOp) :
    test .date p (if op = .eq then text else op.symbol ++ text) = comparedBy .date (.property p) op text := by
  obtain ⟨c, cs, hcs, hc⟩ := h.start
  rw [test_of_range?_eq_none (range?_eq_none (ne_point_of_mem_symbol h.ne_point op))]
  exact compared_symbol hcs hc h.trim op

end

section
variable {text : String} {day : Date}

theorem bound_of_namesDay (h : DateTime.NamesDay text day) (last : Bool) :
    (reader .date none).bound text last = .ok (time ⟨day, if last then 86399 else 0, 0⟩) := by
  simp only [Reader.bound, if_true, h.read?_eq, h.1, Bool.and_true]
  cases last <;> rfl

/-- A comparison with a date is one with its day. -/
theorem comparedBy_of_namesDay (h : DateTime.NamesDay text day) (op : ComparisonOp) :
    comparedBy .date (.property p) op text =
      .ok (Reader.dayCriterion (.property p) op (time ⟨day, 0, 0⟩) (time ⟨day, 86399, 0⟩)) := by
  rw [comparedBy, h.1, bound_of_namesDay h, bound_of_namesDay h]
  rfl

end

theorem namesDay_dateText (h : t.Valid) : DateTime.NamesDay t.dateText t.date :=
  ⟨h.isDateOnly_dateText, by rw [h.read?_dateText]; rfl⟩

theorem bound_dateText (h : t.Valid) (last : Bool) : (reader .date none).bound t.dateText last =
    .ok (time (if last then t.endOfDay else ⟨t.date, 0, 0⟩)) := by
  rw [bound_of_namesDay (namesDay_dateText h)]
  cases last <;> rfl

theorem bound_isoText (h : t.Valid) (hwhole : t.IsWhole) (last : Bool) :
    (reader .date none).bound t.isoText last = .ok (time t) := by
  simp [Reader.bound, h.read?_isoText hwhole, h.isDateOnly_isoText]

/-- A date is read as its day. -/
theorem test_dateText (h : t.Valid) (op : ComparisonOp) :
    test .date p (if op = .eq then t.dateText else op.symbol ++ t.dateText) =
      .ok (Reader.dayCriterion (.property p) op (time ⟨t.date, 0, 0⟩) (time t.endOfDay)) := by
  rw [(dateLike_dateText t).test_symbol, comparedBy_of_namesDay (namesDay_dateText h)]
  rfl

/-- A time is read as itself. -/
theorem test_isoText (h : t.Valid) (hwhole : t.IsWhole) (op : ComparisonOp) :
    test .date p (if op = .eq then t.isoText else op.symbol ++ t.isoText) =
      .ok (.comparison op (.property p) (time t)) := by
  have hliteral : (reader .date none).literal t.isoText = .ok (time t) := by
    simp only [Reader.literal, (dateLike_isoText t).trim, h.read?_isoText hwhole]
    rfl
  rw [(dateLike_isoText t).test_symbol, comparedBy, h.isDateOnly_isoText, hliteral]
  rfl

/-! ### Tests -/

theorem comparisonText_time (op : ComparisonOp) (t : DateTime) : comparisonText {} op (time t) =
    .ok (let text := if comparesDay op t || t.isMidnight then t.dateText else t.isoText
      if op = .eq then text else op.symbol ++ text) := by
  cases hday : comparesDay op t <;> cases hmidnight : t.isMidnight <;>
    cases op <;> simp [comparisonText, hday, hmidnight, valueText, withOperator, requireOperators, pure, Except.pure,
      bind, Except.bind]

/-- A written comparison is read back. -/
theorem test_comparisonText (h : t.Valid) (hwhole : t.IsWhole) (op : ComparisonOp) :
    ∃ text, DateLike text ∧ comparisonText {} op (time t) = .ok (if op = .eq then text else op.symbol ++ text) ∧
      test .date p (if op = .eq then text else op.symbol ++ text) =
        .ok (reread (.comparison op (.property p) (time t))) := by
  rw [comparisonText_time]
  cases hmidnight : t.isMidnight with
  | true =>
    refine ⟨t.dateText, dateLike_dateText t, by simp, ?_⟩
    have hself := h.eq_of_isMidnight hwhole hmidnight
    rw [test_dateText h, reread, if_pos hmidnight, ← hself]
  | false =>
    cases hday : comparesDay op t with
    | true =>
      refine ⟨t.dateText, dateLike_dateText t, by simp, ?_⟩
      rw [test_dateText h, reread, hmidnight]
      cases op with
      | gt | le =>
        have hend : t = t.endOfDay := by simpa [comparesDay] using hday
        rw [Reader.dayCriterion, ← hend]
        rfl
      | ge | lt => simp [comparesDay, hmidnight] at hday
      | eq | ne => cases hday
    | false =>
      refine ⟨t.isoText, dateLike_isoText t, by simp, ?_⟩
      rw [test_isoText h hwhole, reread, hmidnight]
      rfl

theorem range?_dateLike {low high : String} (hlow : DateLike low) (hhigh : DateLike high) :
    range? (low ++ "..." ++ high) = some (low, high) := by
  rw [range?_append hlow.ne_point, hlow.trim, hhigh.trim]

/-- An end of a range is written as a text that is read as the end, if it is not read as the end of its day. -/
theorem bound_valueText (h : t.Valid) (hwhole : t.IsWhole) : ∃ text, DateLike text ∧ valueText {} (time t) = .ok text ∧
    ∀ last, (reader .date none).bound text last = .ok (time (if last && t.isMidnight then t.endOfDay else t)) := by
  cases hmidnight : t.isMidnight with
  | true =>
    refine ⟨t.dateText, dateLike_dateText t, by simp [valueText, hmidnight], fun last => ?_⟩
    rw [bound_dateText h, ← h.eq_of_isMidnight hwhole hmidnight, Bool.and_true]
  | false =>
    refine ⟨t.isoText, dateLike_isoText t, by simp [valueText, hmidnight], fun last => ?_⟩
    rw [bound_isoText h hwhole, Bool.and_false]
    rfl

/-- What is written for a test is one alternative, which is read as `reread` says. -/
theorem test_termText (hx : DateTest p x) (hwhole : ∀ t, time t ∈ x.children → t.IsWhole) (h : termText {} x = .ok shown) :
    shown.toList ≠ [] ∧ (∀ c ∈ shown.toList, isPlain c = true) ∧ test .date p shown = .ok (reread x) := by
  have hsymbol : ∀ (op : ComparisonOp) {text : String}, DateLike text →
      (if op = .eq then text else op.symbol ++ text).toList ≠ [] ∧
        ∀ c ∈ (if op = .eq then text else op.symbol ++ text).toList, isPlain c = true := by
    intro op text htext
    obtain ⟨c, cs, hcs, -⟩ := htext.start
    have hop : ∀ c ∈ op.symbol.toList, isPlain c = true := by cases op <;> decide
    split
    next => exact ⟨by simp [hcs], htext.isPlain⟩
    next =>
      rw [String.toList_append]
      exact ⟨by simp [hcs], List.forall_mem_append.mpr ⟨hop, htext.isPlain⟩⟩
  cases hx with
  | @comparison op t ht =>
    have hwholeT : t.IsWhole := hwhole t (by simp [children])
    obtain ⟨text, htext, hwritten, hread⟩ := test_comparisonText (p := p) ht hwholeT op
    obtain rfl := Except.ok.inj (hwritten.symm.trans h)
    exact ⟨(hsymbol op htext).1, (hsymbol op htext).2, hread⟩
  | @range a b negated ha hb =>
    have hwholeA : a.IsWhole := hwhole a (by simp [children])
    have hwholeB : b.IsWhole := hwhole b (by simp [children])
    cases hday : DateTime.isWholeDay a b with
    | true =>
      simp only [DateTime.isWholeDay, Bool.and_eq_true, beq_iff_eq] at hday
      obtain ⟨⟨hmidnight, hdate⟩, hend⟩ := hday
      have hfirst := ha.eq_of_isMidnight hwholeA hmidnight
      have hlast : b = a.endOfDay := by rw [hend, DateTime.endOfDay, DateTime.endOfDay, hdate]
      have hread : reread (.between (.property p) (time a) (time b) negated none) =
          .between (.property p) (time a) (time b) negated none := by
        rw [reread, hlast, isMidnight_endOfDay]
        rfl
      have hwritten : ∃ op, termText {} (.between (.property p) (time a) (time b) negated none) =
          .ok (if op = .eq then a.dateText else op.symbol ++ a.dateText) ∧
            Reader.dayCriterion (.property p) op (time a) (time b) =
              .between (.property p) (time a) (time b) negated none := by
        have hisDay : wholeDay? (time a) (time b) = some a.dateText := by
          simp [wholeDay?, DateTime.isWholeDay, hmidnight, hdate, ← hend]
        cases negated with
        | true => exact ⟨.ne, by simp only [termText, hisDay]; rfl, rfl⟩
        | false => exact ⟨.eq, by simp only [termText, hisDay]; rfl, rfl⟩
      obtain ⟨op, htext, hcriterion⟩ := hwritten
      obtain rfl := Except.ok.inj (htext.symm.trans h)
      refine ⟨(hsymbol op (dateLike_dateText a)).1, (hsymbol op (dateLike_dateText a)).2, ?_⟩
      rw [test_dateText ha, ← hfirst, ← hlast, hcriterion, hread]
    | false =>
      cases negated with
      | true => simp [termText, wholeDay?, hday] at h
      | false =>
        obtain ⟨low, hlow, hlowText, hlowRead⟩ := bound_valueText ha hwholeA
        obtain ⟨high, hhigh, hhighText, hhighRead⟩ := bound_valueText hb hwholeB
        have htext : termText {} (.between (.property p) (time a) (time b) false none) = .ok (low ++ "..." ++ high) := by
          simp [termText, wholeDay?, hday, hlowText, hhighText, requireOperators, pure, Except.pure, bind, Except.bind]
        obtain rfl := Except.ok.inj (htext.symm.trans h)
        obtain ⟨c, cs, hcs, -⟩ := hlow.start
        have hpoints : ∀ c ∈ "...".toList, isPlain c = true := by decide
        refine ⟨by simp [hcs], ?_, ?_⟩
        · simp only [String.toList_append, List.forall_mem_append]
          exact ⟨⟨hlow.isPlain, hpoints⟩, hhigh.isPlain⟩
        · rw [test_of_range? (range?_dateLike hlow hhigh), hlowRead, hhighRead, reread]
          rfl

/-! ### Criteria -/

/-- Tests that are joined are the tests of what they are joined to, unless it is a list of excluded values. -/
theorem tests_of_combine {es : List Expr} (hes : ∀ x ∈ es, DateTest p x) (h : combine es = some e) :
    tests e = es ∨ ∃ items, e = .inList (.property p) items true none := by
  have hsubject : ∀ x ∈ es, ∀ left, comparedSubject? x = some left → left = .property p :=
    fun x hx => (hes x hx).comparedSubject
  have hjoined : anyOf es = some e → tests e = es := by
    intro hjoin
    have hflatten := flatten_joinAll (fun x hx => (hes x hx).flatten .or) hjoin
    unfold tests
    split
    next l items table =>
      -- A list is no operand of the chain.
      have hself : (inList l items false table).flatten .or = [.inList l items false table] := rfl
      rw [hself] at hflatten
      cases hes (.inList l items false table) (by simp [← hflatten])
    next => exact hflatten
  obtain ⟨-, hequal | hunequal⟩ | hjoin := of_combine h
  · obtain ⟨items, rfl, rfl⟩ := exists_of_valueList? hsubject hequal
    exact .inl rfl
  · obtain ⟨items, -, rfl⟩ := exists_of_valueList? hsubject hunequal
    exact .inr ⟨items, rfl⟩
  · exact .inl (hjoined hjoin)

/-- A criterion is written test by test. -/
theorem exists_of_render (htests : ∀ x ∈ tests e, DateTest p x) (h : render {} e = .ok shown) :
    ∃ showns, (tests e).mapM (termText {}) = .ok showns ∧ shown = "|".intercalate showns := by
  unfold tests at htests ⊢
  split
  next l items table =>
    obtain ⟨showns, hshowns, rfl⟩ := exists_of_listText l table h
    refine ⟨showns, ?_, rfl⟩
    rw [← hshowns, List.mapM_map]
    refine Result.mapM_congr fun item hitem => ?_
    cases htests _ (List.mem_map.mpr ⟨item, hitem, rfl⟩)
    rfl
  next =>
    rw [render_eq] at h
    obtain ⟨showns, hshowns, rfl⟩ := Result.map_eq_ok.mp h
    exact ⟨showns, hshowns, rfl⟩

theorem mem_times (hx : x ∈ tests e) (ht : time t ∈ x.children) : t ∈ times e :=
  List.mem_flatMap.mpr ⟨x, hx, List.mem_filterMap.mpr ⟨time t, ht, rfl⟩⟩

theorem read_eq (value : String) : (reader .date none).read p value =
    if (alternatives {} value).isEmpty then .ok none
    else ((alternatives {} value).mapM (test .date p)).map combine := by
  unfold Reader.read
  simp only [reduceCtorEq, or_self, if_false]
  cases (alternatives {} value).mapM (test .date p) <;> rfl

/-- A text that is one alternative, and what is read for it; the white space at its ends is trimmed. -/
structure ReadsAs (p : PropertyRef) (shown : String) (x : Expr) : Prop where
  cuts : Cuts {} shown.toList [shown.toList]
  solid : Text.trimWhile Text.isBlank shown.toList ≠ []
  test : test .date p (Text.trim shown) = .ok x

theorem readsAs_termText (hx : DateTest p x) (hwhole : ∀ t, time t ∈ x.children → t.IsWhole)
    (h : termText {} x = .ok shown) : ReadsAs p shown (reread x) := by
  obtain ⟨hne, hplain, hread⟩ := test_termText hx hwhole h
  have htrim : Text.trimWhile Text.isBlank shown.toList = shown.toList := (solid_of_isPlain hne hplain).2
  exact ⟨cuts_of_isPlain hplain, htrim.symm ▸ hne, by rwa [Text.trim, htrim, String.ofList_toList]⟩

/-- Texts that are one alternative each are read one by one. -/
theorem read_intercalate {showns : List String} {es : List Expr} (hne : showns ≠ [])
    (h : List.Forall₂ (ReadsAs p) showns es) :
    (reader .date none).read p ("|".intercalate showns) = .ok (combine es) := by
  have hall : ∀ shown ∈ showns, Cuts {} shown.toList [shown.toList] ∧
      Text.trimWhile Text.isBlank shown.toList ≠ [] := by
    clear hne
    induction h with
    | nil => exact nofun
    | cons hfirst _ ih => exact List.forall_mem_cons.mpr ⟨⟨hfirst.cuts, hfirst.solid⟩, ih⟩
  have hcuts : Cuts {} ("|".intercalate showns).toList (showns.map String.toList) :=
    cuts_intercalate separates_bar (List.forall₂_map_right_iff.mpr
      (List.forall₂_same.mpr fun shown hmem => (hall shown hmem).1)) hne
  have hpieces : alternatives {} ("|".intercalate showns) = showns.map Text.trim := by
    rw [alternatives_of_cuts hcuts (List.forall_mem_map.mpr fun shown hmem => (hall shown hmem).2), List.map_map]
    rfl
  have htests : (showns.map Text.trim).mapM (Search.test .date p) = .ok es :=
    Result.mapM_eq_ok_iff.mpr (List.forall₂_map_left_iff.mpr (h.imp fun _ _ hread => hread.test))
  rw [read_eq, hpieces, htests, if_neg (by simpa using hne)]
  rfl

/-- A criterion that was read, and whose times are whole seconds, is read back from its text if and only if none of its
    tests is widened to a whole day. -/
theorem read_render_iff (hread : (reader .date none).read p value = .ok (some e)) (hwhole : ∀ t ∈ times e, t.IsWhole)
    (hrender : render {} e = .ok shown) :
    (reader .date none).read p shown = .ok (some e) ↔ ∀ x ∈ tests e, Exact x := by
  rw [read_eq] at hread
  split at hread
  next => cases hread
  next hpieces =>
    obtain ⟨es, hes, hcombine⟩ := Result.map_eq_ok.mp hread
    have hne : es ≠ [] := by
      rintro rfl
      rw [List.eq_nil_of_length_eq_zero (Result.mapM_eq_ok_iff.mp hes).length_eq] at hpieces
      exact hpieces rfl
    have hdates : ∀ x ∈ es, DateTest p x := by
      intro x hx
      obtain ⟨piece, -, hpiece⟩ := Result.exists_of_mem hes hx
      exact dateTest_of_alternative hpiece
    -- Excluded values are read, but they have no text.
    have hlisted : ∀ {xs}, (∀ x ∈ xs, DateTest p x) → combine xs = some e → tests e = xs := by
      intro xs hxs h
      refine (tests_of_combine hxs h).resolve_right ?_
      rintro ⟨items, rfl⟩
      have hnone : render {} (.inList (.property p) items true none) =
          .error (noForm (.inList (.property p) items true none)) := rfl
      rw [hnone] at hrender
      cases hrender
    obtain rfl := hlisted hdates hcombine
    obtain ⟨showns, hshowns, rfl⟩ := exists_of_render hdates hrender
    have hwritten := Result.mapM_eq_ok_iff.mp hshowns
    have heach : List.Forall₂ (ReadsAs p) showns ((tests e).map reread) := by
      refine List.forall₂_map_right_iff.mpr (List.forall₂_iff_get.mpr ⟨hwritten.length_eq.symm, fun i hi hi' => ?_⟩)
      have hmem := List.get_mem (tests e) ⟨i, hi'⟩
      exact readsAs_termText (hdates _ hmem) (fun t ht => hwhole t (mem_times hmem ht)) (hwritten.get hi' hi)
    have hfull : showns ≠ [] := by
      rintro rfl
      exact hne (List.eq_nil_of_length_eq_zero hwritten.length_eq)
    rw [read_intercalate hfull heach, Except.ok.injEq]
    have hreread : ∀ x ∈ (tests e).map reread, DateTest p x :=
      List.forall_mem_map.mpr fun x hx => (hdates x hx).reread
    calc combine ((tests e).map reread) = some e ↔ (tests e).map reread = tests e :=
          ⟨fun h => (hlisted hreread h).symm, fun h => by rw [h, hcombine]⟩
      _ ↔ ∀ x ∈ tests e, reread x = x := by
          conv_lhs => rhs; rw [← List.map_id (tests e)]
          exact List.map_inj_left
      _ ↔ ∀ x ∈ tests e, Exact x := forall₂_congr fun x hx => (hdates x hx).reread_eq_iff

/-- Days, times and a range are alternatives of one criterion, which is written as it was. -/
theorem read_render_february :
    let p : PropertyRef := { table := ⟨0, 0⟩, name := "created_on" }
    let e : Expr := .logical .or (.logical .or (.comparison .gt (.property p) (time ⟨⟨2024, 1, 5⟩, 86399, 0⟩))
        (.comparison .eq (.property p) (time ⟨⟨2024, 1, 6⟩, 37800, 0⟩)))
      (.between (.property p) (time ⟨⟨2024, 2, 1⟩, 0, 0⟩) (time ⟨⟨2024, 2, 29⟩, 43200, 0⟩) false none)
    let shown := ">2024-01-05|2024-01-06T10:30:00|2024-02-01...2024-02-29T12:00:00"
    ((reader .date none).read p "> 1/5/2024 | 2024-01-06 10:30 | 2/1/2024 ... 2024-02-29T12:00" = .ok (some e) ∧
      (∀ t ∈ times e, t.IsWhole) ∧ render {} e = .ok shown) ∧ (reader .date none).read p shown = .ok (some e) := by
  intro p e shown
  have hread : (reader .date none).read p "> 1/5/2024 | 2024-01-06 10:30 | 2/1/2024 ... 2024-02-29T12:00" =
      .ok (some e) := by rfl
  have hwhole : ∀ t ∈ times e, t.IsWhole := by decide
  have hrender : render {} e = .ok shown := by rfl
  have hexact : ∀ x ∈ tests e, Exact x := by
    simp [e, tests, flatten, Exact, DateTime.isMidnight]
  exact ⟨⟨hread, hwhole, hrender⟩, (read_render_iff hread hwhole hrender).mpr hexact⟩

/-- The first second of a day is written as its date, which is read back as the whole day. -/
theorem read_render_midnight :
    let p : PropertyRef := { table := ⟨0, 0⟩, name := "created_on" }
    let midnight : DateTime := ⟨⟨2024, 1, 5⟩, 0, 0⟩
    let e : Expr := .comparison .eq (.property p) (time midnight)
    (reader .date none).read p "2024-01-05T00:00:00" = .ok (some e) ∧ (∀ t ∈ times e, t.IsWhole) ∧
      render {} e = .ok "2024-01-05" ∧ (reader .date none).read p "2024-01-05" ≠ .ok (some e) := by
  intro p midnight e
  have hread : (reader .date none).read p "2024-01-05T00:00:00" = .ok (some e) := by rfl
  have hwhole : ∀ t ∈ times e, t.IsWhole := by decide
  have hrender : render {} e = .ok "2024-01-05" := by decide +kernel
  have hagain : (reader .date none).read p "2024-01-05" =
      .ok (some (.between (.property p) (time midnight) (time midnight.endOfDay) false none)) := by rfl
  refine ⟨hread, hwhole, hrender, ?_⟩
  simp [hagain, e]

end ItemQuery.Search
