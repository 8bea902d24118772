import ItemQuery.Proofs.Search.Dates

/-! Days in search boxes. A date without a time stands for its whole day, whatever stands in front of it: a criterion of
    such dates holds at a time if and only if the day of the time meets one of its conditions. -/

namespace ItemQuery.Search

open ItemQuery.Expr DateTime

variable {p : PropertyRef} {shown mark : String} {day d : Date} {op : ComparisonOp} {x : DateTime}

/-- A condition on days. -/
inductive DayTest where
  | compared (op : ComparisonOp) (day : Date)
  | within (first last : Date)
deriving DecidableEq

/-- Whether a day meets the condition. -/
def DayTest.holds (day : Date) : DayTest → Bool
  | compared op d => op.accepts (day.compare d)
  | within first last => ComparisonOp.ge.accepts (day.compare first) && ComparisonOp.le.accepts (day.compare last)

/-- A text of a condition on days: a date alone, a date behind an operator, or a range of dates. -/
inductive DayText : String → DayTest → Prop
  | day {text : String} {day : Date} (h : NamesDay text day) : DayText text (.compared .eq day)
  | marked {mark text : String} {op : ComparisonOp} {day : Date} (hmark : (mark, op) ∈ operators)
    (h : NamesDay text day) : DayText (mark ++ text) (.compared op day)
  | range {low high : String} {first last : Date} (hlow : NamesDay low first) (hhigh : NamesDay high last) :
    DayText (low ++ "..." ++ high) (.within first last)

/-- The test that is read for a condition on days. -/
def DayTest.criterion (p : PropertyRef) : DayTest → Expr
  | compared op d => Reader.dayCriterion (.property p) op (time ⟨d, 0, 0⟩) (time ⟨d, 86399, 0⟩)
  | within first last => .between (.property p) (time ⟨first, 0, 0⟩) (time ⟨last, 86399, 0⟩) false none

/-! ### Texts of days -/

section
variable {text low high : String} {first last : Date} {t : DayTest}

theorem head?_of_namesDay (h : NamesDay text day) :
    ∀ c, text.toList.head? = some c → c ≠ '=' ∧ c ≠ '>' ∧ c ≠ '<' ∧ c ≠ '!' := by
  intro c hc
  have hmem := List.mem_of_head? hc
  exact ⟨h.ne (by decide) c hmem, h.ne (by decide) c hmem, h.ne (by decide) c hmem,
    h.ne (by decide) c hmem⟩

theorem of_mem_operators (hmark : (mark, op) ∈ operators) :
    mark.toList ≠ [] ∧ ∀ c ∈ mark.toList, Text.isBlank c = false ∧ c ≠ '|' ∧ c ≠ '\\' ∧ c ≠ '.' := by
  have hall : ∀ found ∈ operators, found.1.toList ≠ [] ∧
      ∀ c ∈ found.1.toList, Text.isBlank c = false ∧ c ≠ '|' ∧ c ≠ '\\' ∧ c ≠ '.' := by decide
  exact hall _ hmark

/-- A text of days is one alternative. -/
theorem DayText.cuts (h : DayText shown t) : Cuts {} shown.toList [shown.toList] := by
  have hplain : ∀ c : Char, c ≠ '|' → c ≠ '\\' → Plain {} c := fun c hbar hescape => by
    simp [Plain, hbar, hescape.symm]
  have hday : ∀ {text day}, NamesDay text day → ∀ c ∈ text.toList, Plain {} c := fun htext c hc =>
    hplain c (htext.ne (by decide) c hc) (htext.ne (by decide) c hc)
  refine (bound_of_forall ?_).cuts
  cases h with
  | day h => exact hday h
  | marked hmark h =>
    rw [String.toList_append, List.forall_mem_append]
    refine ⟨fun c hc => ?_, hday h⟩
    obtain ⟨-, hbar, hescape, -⟩ := (of_mem_operators hmark).2 c hc
    exact hplain c hbar hescape
  | range hlow hhigh =>
    simp only [String.toList_append, List.forall_mem_append]
    exact ⟨⟨hday hlow, by simp [Plain]⟩, hday hhigh⟩

/-- White space at its ends is no part of a text of days. -/
theorem DayText.trim (h : DayText shown t) :
    Text.trimWhile Text.isBlank shown.toList ≠ [] ∧ DayText (Text.trim shown) t := by
  cases h with
  | day h => exact ⟨h.trimWhile_ne_nil, .day h.trim⟩
  | @marked mark text op day hmark h =>
    obtain ⟨hne, hblank⟩ := of_mem_operators hmark
    have htrim : Text.trimWhile Text.isBlank (mark ++ text).toList =
        mark.toList ++ Text.dropEndWhile Text.isBlank text.toList := by
      rw [String.toList_append]
      exact @Text.trimWhile_append_append _ [] _ _ hne fun c hc => (hblank c hc).1
    rw [Text.trim, htrim, String.ofList_append, String.ofList_toList]
    refine ⟨by simp [hne], .marked hmark (h.congr ?_)⟩
    rw [String.toList_ofList, Text.trimWhile_dropEndWhile]
  | @range low high first last hlow hhigh =>
    have htrim : Text.trimWhile Text.isBlank (low ++ "..." ++ high).toList =
        low.toList.dropWhile Text.isBlank ++ ("...".toList ++ Text.dropEndWhile Text.isBlank high.toList) := by
      rw [String.toList_append, String.toList_append, List.append_assoc]
      exact Text.trimWhile_append_append (by decide) (by decide)
    rw [Text.trim, htrim, String.ofList_append, String.ofList_append, String.ofList_toList, ← String.append_assoc]
    refine ⟨by simp, .range (hlow.congr ?_) (hhigh.congr ?_)⟩
    · rw [String.toList_ofList, Text.trimWhile_dropWhile fun _ hc => hc]
    · rw [String.toList_ofList, Text.trimWhile_dropEndWhile]

/-- A text of days is read as its condition, with the first and the last second of its days. -/
theorem DayText.test (h : DayText shown t) : test .date p shown = .ok (t.criterion p) := by
  cases h with
  | day h =>
    rw [test_of_range?_eq_none (range?_eq_none (h.ne (by decide))), compared_eq,
      leadingOperator?_eq_none (head?_of_namesDay h), Option.elim_none, comparedBy_of_namesDay h, DayTest.criterion]
  | @marked mark text op day hmark h =>
    have hpoint : ∀ c ∈ (mark ++ text).toList, c ≠ '.' := by
      rw [String.toList_append, List.forall_mem_append]
      exact ⟨fun c hc => ((of_mem_operators hmark).2 c hc).2.2.2, h.ne (by decide)⟩
    have hhead : ∀ c, text.toList.head? = some c → c ≠ '=' ∧ c ≠ '>' :=
      fun c hc => ⟨(head?_of_namesDay h c hc).1, (head?_of_namesDay h c hc).2.1⟩
    have hrest : NamesDay (String.ofList (text.toList.dropWhile Text.isSpacing)) day := by
      refine h.congr ?_
      rw [String.toList_ofList, Text.trimWhile_dropWhile fun _ => Text.isBlank_of_isSpacing]
    rw [test_of_range?_eq_none (range?_eq_none hpoint), compared_eq, String.toList_append,
      leadingOperator?_mark hmark hhead, Option.elim_some, comparedBy_of_namesDay hrest.trim, DayTest.criterion]
  | @range low high first last hlow hhigh =>
    rw [test_of_range? (range?_append (hlow.ne (by decide)) high), bound_of_namesDay hlow.trim,
      bound_of_namesDay hhigh.trim, DayTest.criterion]
    simp only [Result.ok_bind, Bool.false_eq_true, if_false, if_true]
    rfl

end

/-! ### Days of times -/

/-- The first second of a day precedes no time of the day. -/
theorem accepts_first (hop : op = .ge ∨ op = .lt) (x : DateTime) (d : Date) :
    op.accepts (x.compare ⟨d, 0, 0⟩) = op.accepts (x.date.compare d) := by
  have hstart : (Ord.compare x.second 0).then (Ord.compare x.nano 0) ≠ .lt := by
    simp [Ordering.then_eq_lt, Nat.compare_eq_lt]
  rw [DateTime.compare]
  generalize (Ord.compare x.second 0).then (Ord.compare x.nano 0) = later at hstart ⊢
  rcases hop with rfl | rfl <;> cases x.date.compare d <;> cases later <;> first | rfl | exact absurd rfl hstart

/-- No whole second of a day comes after its last second. -/
theorem accepts_last (hop : op = .gt ∨ op = .le) (hsecond : x.second < 86400) (hnano : x.nano = 0) (d : Date) :
    op.accepts (x.compare ⟨d, 86399, 0⟩) = op.accepts (x.date.compare d) := by
  have hend : (Ord.compare x.second 86399).then (Ord.compare x.nano 0) ≠ .gt := by
    simp only [hnano, Std.ReflOrd.compare_self, Ordering.then_eq, ne_eq, Nat.compare_eq_gt]
    omega
  rw [DateTime.compare]
  generalize (Ord.compare x.second 86399).then (Ord.compare x.nano 0) = later at hend ⊢
  rcases hop with rfl | rfl <;> cases x.date.compare d <;> cases later <;> first | rfl | exact absurd rfl hend

/-- The test that is read for a condition holds at the whole seconds of the days that meet it. -/
theorem DayTest.truth_criterion {I : Interpretation} {v : Valuation} (hx : v.property p = .time x)
    (hsecond : x.second < 86400) (hnano : x.nano = 0) (t : DayTest) :
    (t.criterion p).truth I v = some (t.holds x.date) := by
  have hproperty : (property p).eval I v = .time x := by rw [Expr.eval, hx]
  have hcomparison : ∀ op y, (comparison op (.property p) (time y)).truth I v = some (op.accepts (x.compare y)) := by
    intro op y
    rw [truth_comparison, hproperty]
    rfl
  have hbetween : ∀ first last negated,
      (between (.property p) (time ⟨first, 0, 0⟩) (time ⟨last, 86399, 0⟩) negated none).truth I v =
        .negated negated (some (ComparisonOp.ge.accepts (x.date.compare first) &&
          ComparisonOp.le.accepts (x.date.compare last))) := by
    intro first last negated
    rw [← accepts_first (.inl rfl), ← accepts_last (.inr rfl) hsecond hnano, ← Truth.and_some, truth_between,
      hproperty]
    rfl
  have hday : ∀ o : Ordering, (ComparisonOp.ge.accepts o && ComparisonOp.le.accepts o) = ComparisonOp.eq.accepts o ∧
      (!ComparisonOp.eq.accepts o) = ComparisonOp.ne.accepts o := by decide
  cases t with
  | within first last => exact hbetween first last false
  | compared op d =>
    cases op with
    | eq => exact (hbetween d d false).trans (congrArg some (hday _).1)
    | ne => exact (hbetween d d true).trans (congrArg some ((congrArg _ (hday _).1).trans (hday _).2))
    | gt => exact (hcomparison .gt _).trans (congrArg some (accepts_last (.inl rfl) hsecond hnano d))
    | le => exact (hcomparison .le _).trans (congrArg some (accepts_last (.inr rfl) hsecond hnano d))
    | ge => exact (hcomparison .ge _).trans (congrArg some (accepts_first (.inl rfl) x d))
    | lt => exact (hcomparison .lt _).trans (congrArg some (accepts_first (.inr rfl) x d))

theorem DayTest.of_criterion (p : PropertyRef) (t : DayTest) : isInequality (t.criterion p) = false ∧
    ∀ left, comparedSubject? (t.criterion p) = some left → left = .property p := by
  cases t with
  | within first last => exact ⟨rfl, nofun⟩
  | compared op d =>
    cases op with
    | eq | ne => exact ⟨rfl, nofun⟩
    | gt | le | ge | lt => exact ⟨rfl, fun left hleft => (Option.some.inj hleft).symm⟩

/-- Texts of days are read as one criterion, which holds at a whole second if and only if its day meets one of the
    conditions. A leap second is counted as a fraction of the second before it, and is not meant. -/
theorem read_days {showns : List String} {ts : List DayTest} (h : List.Forall₂ DayText showns ts) (hne : showns ≠ []) :
    ∃ e, (reader .date none).read p ("|".intercalate showns) = .ok (some e) ∧
      ∀ (I : Interpretation) (v : Valuation) (x : DateTime),
        v.property p = .time x → x.second < 86400 → x.IsWhole → ¬x.IsLeap →
        e.truth I v = some (ts.any (DayTest.holds x.date)) := by
  have hreads : List.Forall₂ (ReadsAs p) showns (ts.map (DayTest.criterion p)) :=
    List.forall₂_map_right_iff.mpr (h.imp fun _ _ htext => ⟨htext.cuts, htext.trim.1, htext.trim.2.test⟩)
  have hfull : ts.map (DayTest.criterion p) ≠ [] := by
    rintro hnil
    exact hne (List.eq_nil_of_length_eq_zero (hreads.length_eq.trans (by rw [hnil]; rfl)))
  have hcriteria : ∀ e ∈ ts.map (DayTest.criterion p), isInequality e = false ∧
      ∀ left, comparedSubject? e = some left → left = .property p :=
    List.forall_mem_map.mpr fun t _ => t.of_criterion p
  obtain ⟨e, he⟩ := exists_combine hfull
  refine ⟨e, by rw [read_intercalate hne hreads, he], fun I v x hx hsecond hwhole hleap => ?_⟩
  have hnano : x.nano = 0 := hwhole.nano_eq_zero hleap
  have hmixed : ∃ e ∈ ts.map (DayTest.criterion p), isInequality e = false := by
    obtain ⟨first, hfirst⟩ := List.exists_mem_of_ne_nil _ hfull
    exact ⟨first, hfirst, (hcriteria first hfirst).1⟩
  calc e.truth I v = filterTruth I v (combine (ts.map (DayTest.criterion p))) := by rw [he]; rfl
    _ = Truth.any ((ts.map (DayTest.criterion p)).map (Expr.truth I v)) :=
      filterTruth_combine hfull (fun e he => (hcriteria e he).2) fun _ => hmixed
    _ = Truth.any (ts.map fun t => some (t.holds x.date)) := by
      rw [List.map_map]
      exact congrArg Truth.any (List.map_congr_left fun t _ => t.truth_criterion hx hsecond hnano)
    _ = some (ts.any (DayTest.holds x.date)) := Truth.any_map_some _ ts

/-- The last second of a day is in its day; it is neither after a later day nor within a later month. -/
theorem read_days_january :
    let p : PropertyRef := { table := ⟨0, 0⟩, name := "created_on" }
    let showns := ["2024-01-05", "> 2024-02-01", "3/1/2024 ... 3/31/2024"]
    let ts : List DayTest := [.compared .eq ⟨2024, 1, 5⟩, .compared .gt ⟨2024, 2, 1⟩, .within ⟨2024, 3, 1⟩ ⟨2024, 3, 31⟩]
    (List.Forall₂ DayText showns ts ∧ showns ≠ []) ∧
      ∃ e, (reader .date none).read p "2024-01-05|> 2024-02-01|3/1/2024 ... 3/31/2024" = .ok (some e) ∧
        ∀ (I : Interpretation) (v : Valuation), v.property p = .time ⟨⟨2024, 1, 5⟩, 86399, 0⟩ →
          e.truth I v = some true := by
  intro p showns ts
  have htexts : List.Forall₂ DayText showns ts :=
    .cons (.day ⟨rfl, rfl⟩) (.cons (@DayText.marked ">" " 2024-02-01" _ _ (by decide) ⟨rfl, rfl⟩)
      (.cons (@DayText.range "3/1/2024 " " 3/31/2024" _ _ ⟨rfl, rfl⟩ ⟨rfl, rfl⟩) .nil))
  refine ⟨⟨htexts, by decide⟩, ?_⟩
  obtain ⟨e, hread, htruth⟩ := read_days (p := p) htexts (by decide)
  exact ⟨e, hread, fun I v hv => (htruth I v _ hv (by decide) (by decide) (by decide)).trans rfl⟩

end ItemQuery.Search
