import Mathlib.Algebra.Group.Nat.Defs
import Mathlib.Data.List.TakeWhile
import ItemQuery.Calendar.Text
import ItemQuery.Proofs.Number.Digits
import ItemQuery.Proofs.Text.Cutting

/-! Dates and times as text. What is read is a time of the calendar, and the text of such a time without a fraction of a
    second is read as the time again; the text of its date alone is read as the first second of the day, and only this
    one counts as a date without a time. -/

namespace ItemQuery

namespace Number

variable {cs : List Char} {n : Nat}

theorem digits?_eq (hne : cs ≠ []) (h : ∀ c ∈ cs, c.isDigit = true) :
    digits? cs = some (Nat.ofDigitChars 10 cs 0) := by
  unfold digits?
  split
  · exact absurd rfl hne
  · rw [if_pos (List.all_eq_true.mpr h), Nat.ofDigitChars_eq_foldl]

theorem digits?_zero (hne : cs ≠ []) (h : ∀ c ∈ cs, c.isDigit = true) : digits? ('0' :: cs) = digits? cs := by
  have hzero : ∀ c ∈ '0' :: cs, c.isDigit = true := List.forall_mem_cons.mpr ⟨by decide, h⟩
  rw [digits?_eq hne h, digits?_eq (List.cons_ne_nil _ _) hzero, Nat.ofDigitChars_cons]
  rfl

theorem lt_of_digits? (h : digits? cs = some n) : n < 10 ^ cs.length := by
  have hfold : ∀ (cs : List Char) (start : Nat), cs.all Char.isDigit = true →
      cs.foldl (fun n c => 10 * n + (c.toNat - '0'.toNat)) start < (start + 1) * 10 ^ cs.length := by
    intro cs
    induction cs with
    | nil => intro start _; simp
    | cons c cs ih =>
      intro start hall
      rw [List.all_cons, Bool.and_eq_true] at hall
      have hdigit := Char.isDigit_iff_toNat.mp hall.1
      simp only [Char.reduceToNat] at hdigit ⊢
      have hrest := ih (10 * start + (c.toNat - 48)) hall.2
      have hstep : 10 * start + (c.toNat - 48) + 1 ≤ (start + 1) * 10 := by omega
      calc _ < (10 * start + (c.toNat - 48) + 1) * 10 ^ cs.length := hrest
        _ ≤ (start + 1) * 10 * 10 ^ cs.length := Nat.mul_le_mul_right _ hstep
        _ = (start + 1) * 10 ^ (c :: cs).length := by
          rw [List.length_cons, Nat.pow_succ, Nat.mul_assoc, Nat.mul_comm 10]
  unfold digits? at h
  split at h
  · cases h
  · split at h
    next hall =>
      cases h
      have hlt := hfold cs 0 hall
      rwa [Nat.zero_add, Nat.one_mul] at hlt
    next => cases h

end Number

namespace DateTime

/-! ### Times of the calendar -/

/-- A date that the calendar has, a second of the day, and a fraction; that of a leap second, which ends a minute, is one
    second larger. -/
structure Valid (t : DateTime) : Prop where
  date : Date.ofNumbers? t.date.year t.date.month t.date.day = some t.date
  second : t.second < 86400
  nano : t.nano < 1000000000 ∨ t.nano < 2000000000 ∧ t.second % 60 = 59

/-- A time without a fraction of a second. -/
def IsWhole (t : DateTime) : Prop :=
  t.nano % 1000000000 = 0

instance (t : DateTime) : Decidable t.IsWhole :=
  inferInstanceAs (Decidable (t.nano % 1000000000 = 0))

/-- A time in a leap second. -/
def IsLeap (t : DateTime) : Prop :=
  1000000000 ≤ t.nano

instance (t : DateTime) : Decidable t.IsLeap :=
  inferInstanceAs (Decidable (1000000000 ≤ t.nano))

/-- A whole second has no fraction, unless it is a leap second. -/
theorem IsWhole.nano_eq_zero {t : DateTime} (h : t.IsWhole) (hleap : ¬t.IsLeap) : t.nano = 0 := by
  rw [IsWhole] at h
  rw [IsLeap] at hleap
  omega

theorem Valid.endOfDay {t : DateTime} (h : t.Valid) : t.endOfDay.Valid where
  date := h.date
  second := show 86399 < 86400 by decide
  nano := .inl (show 0 < 1000000000 by decide)

/-- The first second of a day has no fraction, unless it has one of its own. -/
theorem Valid.eq_of_isMidnight {t : DateTime} (h : t.Valid) (hwhole : t.IsWhole) (hmidnight : t.isMidnight = true) :
    t = ⟨t.date, 0, 0⟩ := by
  have hsecond : t.second = 0 := by simpa [isMidnight] using hmidnight
  have hnano : t.nano = 0 := by
    have hw : t.nano % 1000000000 = 0 := hwhole
    rcases h.nano with hlt | ⟨-, hleap⟩
    · omega
    · rw [hsecond] at hleap
      cases hleap
  cases t
  simp_all

/-! ### What is read -/

/-- What is left of a text when characters of one kind have been read. -/
def Leaves (kind : Char → Bool) (cs rest : List Char) : Prop :=
  ∃ taken, cs = taken ++ rest ∧ ∀ c ∈ taken, kind c = true

section
variable {kind kind' : Char → Bool} {cs ds rest : List Char}

theorem Leaves.refl (cs : List Char) : Leaves kind cs cs :=
  ⟨[], rfl, nofun⟩

theorem Leaves.cons {c : Char} (hc : kind c = true) (h : Leaves kind cs rest) : Leaves kind (c :: cs) rest := by
  obtain ⟨taken, rfl, htaken⟩ := h
  exact ⟨c :: taken, rfl, List.forall_mem_cons.mpr ⟨hc, htaken⟩⟩

theorem Leaves.trans (h : Leaves kind cs ds) (h' : Leaves kind ds rest) : Leaves kind cs rest := by
  obtain ⟨taken, rfl, htaken⟩ := h
  obtain ⟨more, rfl, hmore⟩ := h'
  exact ⟨taken ++ more, (List.append_assoc ..).symm, List.forall_mem_append.mpr ⟨htaken, hmore⟩⟩

theorem Leaves.mono (h : Leaves kind cs rest) (hkind : ∀ c, kind c = true → kind' c = true) : Leaves kind' cs rest := by
  obtain ⟨taken, rfl, htaken⟩ := h
  exact ⟨taken, rfl, fun c hc => hkind c (htaken c hc)⟩

theorem leaves_dropWhile (kind : Char → Bool) (cs : List Char) : Leaves kind cs (cs.dropWhile kind) :=
  ⟨cs.takeWhile kind, List.takeWhile_append_dropWhile.symm, fun _ => List.mem_takeWhile_imp⟩

theorem Leaves.mem (h : Leaves kind cs rest) {c : Char} (hc : c ∈ cs) : kind c = true ∨ c ∈ rest := by
  obtain ⟨taken, rfl, htaken⟩ := h
  exact (List.mem_append.mp hc).imp_left (htaken c)

theorem Leaves.subset (h : Leaves kind cs rest) : rest ⊆ cs := by
  obtain ⟨taken, rfl, -⟩ := h
  exact List.subset_append_right ..

end

section
variable {n : Numbers} {cs : List Char} {r : Numbers × List Char} {t : DateTime}

/-- Numbers of a clock. -/
structure Numbers.InRange (n : Numbers) : Prop where
  hour : n.hour ≤ 23
  minute : n.minute ≤ 59
  second : n.second ≤ 60
  nano : n.nano < 1000000000

theorem leaves_of_number? {width : Nat} {r : Nat × List Char} (h : number? width cs = some r) :
    Leaves Char.isDigit cs r.2 := by
  obtain ⟨k, -, rfl⟩ := Option.map_eq_some_iff.mp h
  have hprefix : (cs.take width).takeWhile Char.isDigit <+: cs :=
    (List.takeWhile_prefix _).trans (List.take_prefix _ _)
  exact ⟨_, (List.prefix_iff_eq_append.mp hprefix).symm, fun _ => List.mem_takeWhile_imp⟩

theorem of_numberIn? {width low high : Nat} {r : Nat × List Char} (h : numberIn? width low high cs = some r) :
    low ≤ r.1 ∧ r.1 ≤ high ∧ Leaves (fun c => Text.isBlank c || c.isDigit) cs r.2 := by
  obtain ⟨hread, hrange⟩ := Option.filter_eq_some_iff.mp h
  rw [Bool.and_eq_true, decide_eq_true_eq, decide_eq_true_eq] at hrange
  have hblank : Leaves (fun c => Text.isBlank c || c.isDigit) cs (cs.dropWhile Text.isBlank) :=
    (leaves_dropWhile Text.isBlank cs).mono fun c hc => by simp [hc]
  exact ⟨hrange.1, hrange.2, hblank.trans ((leaves_of_number? hread).mono fun c hc => by simp [hc])⟩

theorem lt_of_fraction? {r : Nat × List Char} (h : fraction? cs = some r) : r.1 < 1000000000 := by
  obtain ⟨⟨k, rest⟩, hread, rfl⟩ := Option.map_eq_some_iff.mp h
  obtain ⟨k', hdigits, heq⟩ := Option.map_eq_some_iff.mp hread
  cases heq
  let digits := (cs.take 9).takeWhile Char.isDigit
  have hprefix : digits <+: cs.take 9 := List.takeWhile_prefix _
  have hlength : digits.length ≤ 9 := hprefix.length_le.trans (List.length_take_le _ _)
  have hcount : cs.length - (cs.drop digits.length).length = digits.length := by
    have hle := hprefix.length_le
    rw [List.length_take] at hle
    rw [List.length_drop]
    omega
  have hlt : k < 10 ^ digits.length := Number.lt_of_digits? hdigits
  show k * 10 ^ (9 - (cs.length - (cs.drop digits.length).length)) < 10 ^ 9
  rw [hcount]
  calc k * 10 ^ (9 - digits.length) < 10 ^ digits.length * 10 ^ (9 - digits.length) :=
        Nat.mul_lt_mul_of_pos_right hlt (Nat.pow_pos (by decide))
    _ = 10 ^ 9 := by rw [← Nat.pow_add, Nat.add_sub_cancel' hlength]

theorem Field.inRange_read? {field : Field} (h : field.read? n cs = some r) (hn : n.InRange) : r.1.InRange := by
  cases field with
  | year | month | day =>
    obtain ⟨_, -, rfl⟩ := Option.map_eq_some_iff.mp h
    exact ⟨hn.hour, hn.minute, hn.second, hn.nano⟩
  | hour =>
    obtain ⟨_, hread, rfl⟩ := Option.map_eq_some_iff.mp h
    exact ⟨(of_numberIn? hread).2.1, hn.minute, hn.second, hn.nano⟩
  | minute =>
    obtain ⟨_, hread, rfl⟩ := Option.map_eq_some_iff.mp h
    exact ⟨hn.hour, (of_numberIn? hread).2.1, hn.second, hn.nano⟩
  | second =>
    obtain ⟨_, hread, rfl⟩ := Option.map_eq_some_iff.mp h
    exact ⟨hn.hour, hn.minute, (of_numberIn? hread).2.1, hn.nano⟩
  | fraction =>
    simp only [Field.read?] at h
    split at h
    · obtain ⟨_, hread, rfl⟩ := Option.map_eq_some_iff.mp h
      exact ⟨hn.hour, hn.minute, hn.second, lt_of_fraction? hread⟩
    · cases h
      exact hn
  | space =>
    cases h
    exact hn
  | mark c =>
    simp only [Field.read?] at h
    split at h
    · split at h <;> cases h
      exact hn
    · cases h

theorem inRange_of_readFields? {fields : List Field} {m : Numbers} (h : readFields? fields n cs = some m)
    (hn : n.InRange) : m.InRange := by
  induction fields generalizing n cs with
  | nil =>
    cases cs with
    | nil =>
      cases h
      exact hn
    | cons => cases h
  | cons field fields ih =>
    obtain ⟨r, hr, hrest⟩ := Option.bind_eq_some_iff.mp h
    exact ih hrest (Field.inRange_read? hr hn)

theorem valid_of_ofNumbers? (hn : n.InRange) (h : ofNumbers? n = some t) : t.Valid := by
  obtain ⟨date, hdate, rfl⟩ := Option.map_eq_some_iff.mp h
  have hself : Date.ofNumbers? date.year date.month date.day = some date := by
    have hnumbers := hdate
    unfold Date.ofNumbers? at hnumbers
    split at hnumbers <;> cases hnumbers
    exact hdate
  obtain ⟨hhour, hminute, hsecond, hnano⟩ := hn
  split
  next => exact ⟨hself, by simp only; omega, .inr ⟨by simp only; omega, by simp only; omega⟩⟩
  next hne => exact ⟨hself, by simp only; omega, .inl hnano⟩

/-- What is read is a time of the calendar. -/
theorem valid_of_read? {value : String} (h : read? value = some t) : t.Valid := by
  obtain ⟨layout, -, hread⟩ := List.exists_of_findSome?_eq_some h
  obtain ⟨n, hn, ht⟩ := Option.bind_eq_some_iff.mp hread
  exact valid_of_ofNumbers? (inRange_of_readFields? hn ⟨by decide, by decide, by decide, by decide⟩) ht

/-! ### Layouts -/

/-- The characters that a field reads. -/
def Field.takes : Field → Char → Bool
  | .year, c => Text.isBlank c || c.isDigit || c == '-' || c == '+'
  | .month, c | .day, c | .hour, c | .minute, c | .second, c => Text.isBlank c || c.isDigit
  | .fraction, c => c == '.' || c.isDigit
  | .space, c => Text.isBlank c
  | .mark m, c => c == m

theorem Field.leaves_read? {field : Field} (h : field.read? n cs = some r) : Leaves field.takes cs r.2 := by
  cases field with
  | year =>
    obtain ⟨_, hread, rfl⟩ := Option.map_eq_some_iff.mp h
    have hblank : Leaves (takes .year) cs _ :=
      (leaves_dropWhile Text.isBlank cs).mono fun c hc => by simp [takes, hc]
    have hdigits : ∀ {width cs'} {r : Nat × List Char}, number? width cs' = some r → Leaves (takes .year) cs' r.2 :=
      fun hnumber => (leaves_of_number? hnumber).mono fun c hc => by simp [takes, hc]
    unfold year? at hread
    split at hread
    next rest heq =>
      obtain ⟨_, hnumber, rfl⟩ := Option.map_eq_some_iff.mp hread
      exact hblank.trans (heq ▸ (hdigits hnumber).cons (by decide))
    next rest heq =>
      obtain ⟨_, hnumber, rfl⟩ := Option.map_eq_some_iff.mp hread
      exact hblank.trans (heq ▸ (hdigits hnumber).cons (by decide))
    next =>
      obtain ⟨_, hnumber, rfl⟩ := Option.map_eq_some_iff.mp hread
      exact hblank.trans (hdigits hnumber)
  | month | day | hour | minute | second =>
    obtain ⟨_, hread, rfl⟩ := Option.map_eq_some_iff.mp h
    exact (of_numberIn? hread).2.2
  | fraction =>
    have hdigit : ∀ c : Char, c.isDigit = true → takes .fraction c = true := fun c hc => by simp [takes, hc]
    simp only [Field.read?] at h
    split at h
    · obtain ⟨_, hread, rfl⟩ := Option.map_eq_some_iff.mp h
      obtain ⟨_, hnumber, rfl⟩ := Option.map_eq_some_iff.mp hread
      exact .cons (by decide)
        (((leaves_of_number? hnumber).trans (leaves_dropWhile Char.isDigit _)).mono hdigit)
    · cases h
      exact .refl cs
  | space =>
    cases h
    exact leaves_dropWhile Text.isBlank cs
  | mark m =>
    simp only [Field.read?] at h
    split at h
    · split at h
      next hmark =>
        cases h
        exact .cons (by simp [takes, hmark]) (.refl _)
      next => cases h
    · cases h

/-- A text that is read has characters of its layout only. -/
theorem exists_takes_of_readFields? {fields : List Field} {m : Numbers} (h : readFields? fields n cs = some m) {c : Char}
    (hc : c ∈ cs) : ∃ field ∈ fields, field.takes c = true := by
  induction fields generalizing n cs with
  | nil =>
    cases cs with
    | nil => cases hc
    | cons => cases h
  | cons field fields ih =>
    obtain ⟨r, hr, hrest⟩ := Option.bind_eq_some_iff.mp h
    rcases (Field.leaves_read? hr).mem hc with htakes | hc
    · exact ⟨field, List.mem_cons_self, htakes⟩
    · obtain ⟨next, hnext, htakes⟩ := ih hrest hc
      exact ⟨next, List.mem_cons_of_mem _ hnext, htakes⟩

/-- A text that is read has every mark of its layout. -/
theorem mem_of_readFields? {fields : List Field} {m : Numbers} (h : readFields? fields n cs = some m) {c : Char}
    (hc : .mark c ∈ fields) : c ∈ cs := by
  induction fields generalizing n cs with
  | nil => cases hc
  | cons field fields ih =>
    obtain ⟨r, hr, hrest⟩ := Option.bind_eq_some_iff.mp h
    rcases List.mem_cons.mp hc with rfl | hc
    · simp only [Field.read?] at hr
      split at hr
      · split at hr
        next heq => exact heq ▸ List.mem_cons_self
        next => cases hr
      · cases hr
    · exact (Field.leaves_read? hr).subset (ih hrest hc)

theorem readAs?_eq_none {layout : List Field} {c : Char} (hc : .mark c ∈ layout) (hcs : c ∉ cs) :
    readAs? layout cs = none := by
  cases hread : readFields? layout {} cs with
  | none => rw [readAs?, hread, Option.bind_none]
  | some m => exact absurd (mem_of_readFields? hread hc) hcs

end

/-! ### Dates without a time -/

/-- A text of a date without a time. -/
def NamesDay (text : String) (date : Date) : Prop :=
  isDateOnly text = true ∧ (read? text).map (·.date) = some date

/-- The characters of dates and of the white space around their numbers. -/
def isDayChar (c : Char) : Bool :=
  Text.isBlank c || c.isDigit || ['-', '+', '/'].contains c

/-- Whether a field is read on a clock. -/
def Field.isClock : Field → Bool
  | .hour | .minute | .second | .fraction => true
  | _ => false

/-- The numbers of a clock. -/
def Numbers.clock (n : Numbers) : Nat × Nat × Nat × Nat :=
  (n.hour, n.minute, n.second, n.nano)

section
variable {n : Numbers} {cs : List Char} {layout : List Field} {t : DateTime} {text text' : String} {date : Date}

theorem Field.clock_read? {field : Field} {r : Numbers × List Char} (hfield : field.isClock = false)
    (h : field.read? n cs = some r) : r.1.clock = n.clock := by
  cases field with
  | year | month | day =>
    obtain ⟨_, -, rfl⟩ := Option.map_eq_some_iff.mp h
    rfl
  | space =>
    cases h
    rfl
  | mark c =>
    simp only [Field.read?] at h
    split at h
    · split at h <;> cases h
      rfl
    · cases h
  | hour | minute | second | fraction => cases hfield

theorem clock_of_readFields? {m : Numbers} (hlayout : ∀ field ∈ layout, field.isClock = false)
    (h : readFields? layout n cs = some m) : m.clock = n.clock := by
  induction layout generalizing n cs with
  | nil =>
    cases cs with
    | nil =>
      cases h
      rfl
    | cons => cases h
  | cons field layout ih =>
    rw [List.forall_mem_cons] at hlayout
    obtain ⟨r, hr, hrest⟩ := Option.bind_eq_some_iff.mp h
    rw [ih hlayout.2 hrest, Field.clock_read? hlayout.1 hr]

theorem isDayChar_of_takes {field : Field} (hlayout : layout ∈ dateLayouts) (hfield : field ∈ layout) {c : Char}
    (h : field.takes c = true) : isDayChar c = true := by
  have hfields : field ∈ [.year, .month, .day, .mark '-', .mark '/'] := by
    simp only [dateLayouts, dashedDate, List.mem_cons, List.not_mem_nil, or_false] at hlayout
    rcases hlayout with rfl | rfl <;> simp only [List.mem_cons, List.not_mem_nil, or_false] at hfield ⊢ <;> tauto
  simp only [List.mem_cons, List.not_mem_nil, or_false] at hfields
  rcases hfields with rfl | rfl | rfl | rfl | rfl <;> simp only [Field.takes, Bool.or_eq_true, beq_iff_eq] at h <;>
    simp only [isDayChar, List.contains_cons, List.contains_nil, Bool.or_eq_true, beq_iff_eq] <;> tauto

/-- In a layout of dates the first second of a day is read. -/
theorem of_readAs?_dateLayouts (hlayout : layout ∈ dateLayouts) (h : readAs? layout cs = some t) :
    t = ⟨t.date, 0, 0⟩ ∧ ∀ c ∈ cs, isDayChar c = true := by
  obtain ⟨m, hm, ht⟩ := Option.bind_eq_some_iff.mp h
  have hfields : ∀ field ∈ layout, field.isClock = false := by
    have hall : ∀ layout ∈ dateLayouts, ∀ field ∈ layout, field.isClock = false := by decide
    exact hall layout hlayout
  obtain ⟨hhour, hminute, hsecond, hnano⟩ : m.hour = 0 ∧ m.minute = 0 ∧ m.second = 0 ∧ m.nano = 0 := by
    simpa [Numbers.clock] using clock_of_readFields? hfields hm
  obtain ⟨d, -, rfl⟩ := Option.map_eq_some_iff.mp ht
  refine ⟨by simp [hhour, hminute, hsecond, hnano], fun c hc => ?_⟩
  obtain ⟨field, hfield, htakes⟩ := exists_takes_of_readFields? hm hc
  exact isDayChar_of_takes hlayout hfield htakes

theorem NamesDay.congr (h : NamesDay text date)
    (htrim : Text.trimWhile Text.isBlank text'.toList = Text.trimWhile Text.isBlank text.toList) :
    NamesDay text' date := by
  unfold NamesDay isDateOnly DateTime.read? at h ⊢
  rwa [htrim]

theorem NamesDay.exists_layout (h : NamesDay text date) : ∃ layout ∈ dateLayouts, ∃ t,
    readAs? layout (Text.trimWhile Text.isBlank text.toList) = some t := by
  obtain ⟨layout, hlayout, hread⟩ := List.any_eq_true.mp h.1
  exact ⟨layout, hlayout, Option.isSome_iff_exists.mp hread⟩

theorem NamesDay.trimWhile_ne_nil (h : NamesDay text date) : Text.trimWhile Text.isBlank text.toList ≠ [] := by
  obtain ⟨layout, hlayout, t, hread⟩ := h.exists_layout
  have hnone : ∀ layout ∈ dateLayouts, readAs? layout [] = none := by decide
  intro hnil
  rw [hnil, hnone layout hlayout] at hread
  cases hread

theorem NamesDay.isDayChar (h : NamesDay text date) : ∀ c ∈ text.toList, isDayChar c = true := by
  obtain ⟨layout, hlayout, t, hread⟩ := h.exists_layout
  intro c hc
  cases hblank : Text.isBlank c with
  | true => rw [DateTime.isDayChar, hblank, Bool.true_or, Bool.true_or]
  | false => exact (of_readAs?_dateLayouts hlayout hread).2 c (Text.mem_trimWhile hc hblank)

theorem NamesDay.ne (h : NamesDay text date) {c : Char} (hc : DateTime.isDayChar c = false) :
    ∀ x ∈ text.toList, x ≠ c := by
  rintro x hx rfl
  exact absurd (h.isDayChar _ hx) (by simp [hc])

theorem NamesDay.trim (h : NamesDay text date) : NamesDay (Text.trim text) date :=
  h.congr (by rw [Text.trim, String.toList_ofList, Text.trimWhile_trimWhile])

/-- A date without a time is read as the first second of its day. -/
theorem NamesDay.read?_eq (h : NamesDay text date) : read? text = some ⟨date, 0, 0⟩ := by
  have htimed : timedLayouts.findSome? (fun layout => readAs? layout (Text.trimWhile Text.isBlank text.toList)) =
      none := by
    rw [List.findSome?_eq_none_iff]
    intro layout hlayout
    have hcolon : ∀ layout ∈ timedLayouts, Field.mark ':' ∈ layout := by decide
    refine readAs?_eq_none (hcolon layout hlayout) fun hmem => ?_
    exact absurd (h.isDayChar _ (Text.mem_of_mem_trimWhile hmem)) (by decide)
  obtain ⟨t, ht, rfl⟩ := Option.map_eq_some_iff.mp h.2
  have hdate := ht
  rw [read?, List.findSome?_append, htimed, Option.none_or] at hdate
  obtain ⟨layout, hlayout, hread⟩ := List.exists_of_findSome?_eq_some hdate
  rw [ht, ← (of_readAs?_dateLayouts hlayout hread).1]

end

/-! ### Numbers of a text -/

section
variable {ds rest : List Char} {width k : Nat}

/-- Digits that fill the width, or that end within it, are read to their end. -/
theorem number?_append (hds : ∀ c ∈ ds, c.isDigit = true) (hwidth : ds.length ≤ width)
    (hstop : ds.length = width ∨ ∀ c, rest.head? = some c → c.isDigit = false) :
    number? width (ds ++ rest) = (Number.digits? ds).map fun n => (n, rest) := by
  have hdigits : ((ds ++ rest).take width).takeWhile Char.isDigit = ds := by
    rw [List.take_append, List.take_of_length_le hwidth, List.takeWhile_append_of_pos hds]
    rcases hstop with rfl | hstop
    · simp
    · cases rest with
      | nil => simp
      | cons c rest =>
        have hc := hstop c rfl
        cases hcount : width - ds.length with
        | zero => simp
        | succ k => simp [hc]
  rw [number?, hdigits, List.drop_left]

theorem isDigit_of_mem_padded {c : Char} (hc : c ∈ (padded width k).toList) : c.isDigit = true := by
  rw [padded, String.toList_append, String.toList_ofList, List.mem_append, List.mem_replicate] at hc
  rcases hc with ⟨-, rfl⟩ | hc
  · decide
  · exact Number.isDigit_of_mem_toString hc

theorem digits?_padded (width k : Nat) : Number.digits? (padded width k).toList = some k := by
  rw [padded, String.toList_append, String.toList_ofList]
  generalize width - (toString k).length = zeros
  have hdigits : ∀ c ∈ List.replicate zeros '0' ++ (toString k).toList, c.isDigit = true := by
    intro c hc
    rcases List.mem_append.mp hc with hc | hc
    · rw [(List.mem_replicate.mp hc).2]
      decide
    · exact Number.isDigit_of_mem_toString hc
  induction zeros with
  | zero => exact Number.digits?_toString k
  | succ zeros ih =>
    rw [List.replicate_succ, List.cons_append] at hdigits ⊢
    rw [List.forall_mem_cons] at hdigits
    rw [Number.digits?_zero (by simp) hdigits.2, ih hdigits.2]

theorem length_toString_le (hwidth : 0 < width) (h : k < 10 ^ width) : (toString k).length ≤ width := by
  rw [Nat.toString_eq_ofList_toDigits, String.length_ofList]
  exact (Nat.length_toDigits_le_iff (by decide) hwidth).mpr h

theorem length_padded (hwidth : 0 < width) (h : k < 10 ^ width) : (padded width k).toList.length = width := by
  have hle := length_toString_le hwidth h
  rw [padded, String.toList_append, String.toList_ofList, List.length_append, List.length_replicate,
    String.length_toList]
  omega

theorem padded_ne_nil (width k : Nat) : (padded width k).toList ≠ [] := by
  simp [padded]

theorem dropWhile_isBlank_padded (width k : Nat) (rest : List Char) :
    ((padded width k).toList ++ rest).dropWhile Text.isBlank = (padded width k).toList ++ rest := by
  obtain ⟨d, ds, hds⟩ := List.exists_cons_of_ne_nil (padded_ne_nil width k)
  refine Text.dropWhile_of_head? fun c hc => ?_
  rw [hds] at hc
  cases hc
  exact Text.isBlank_eq_false_of_isDigit (isDigit_of_mem_padded (hds ▸ List.mem_cons_self))

/-- A padded number is read where numbers of its width are. -/
theorem numberIn?_padded {low high : Nat} (hlow : low ≤ k) (hhigh : k ≤ high) (h : k < 100) :
    numberIn? 2 low high ((padded 2 k).toList ++ rest) = some (k, rest) := by
  have hlength : (padded 2 k).toList.length = 2 := length_padded (by decide) h
  rw [numberIn?, dropWhile_isBlank_padded,
    number?_append (fun c hc => isDigit_of_mem_padded hc) hlength.le (.inl hlength), digits?_padded]
  simp [hlow, hhigh]

/-- Behind a sign, every digit belongs to the year. -/
theorem number?_signed (k : Nat) :
    number? ((padded 4 k).toList ++ '-' :: rest).length ((padded 4 k).toList ++ '-' :: rest) =
      some (k, '-' :: rest) := by
  have hstop : ∀ c, ('-' :: rest).head? = some c → c.isDigit = false := by
    rintro _ ⟨⟩
    decide
  rw [number?_append (fun c hc => isDigit_of_mem_padded hc) (by simp) (.inr hstop), digits?_padded]
  rfl

theorem year?_padded {year : Nat} (h : year ≤ 9999) :
    year? ((padded 4 year).toList ++ '-' :: rest) = some ((year : Int), '-' :: rest) := by
  have hlength : (padded 4 year).toList.length = 4 := length_padded (by decide) (by omega)
  obtain ⟨c, cs, hcs⟩ := List.exists_cons_of_ne_nil (padded_ne_nil 4 year)
  have hdigit : c.isDigit = true := isDigit_of_mem_padded (hcs ▸ List.mem_cons_self)
  have hread : number? 4 ((padded 4 year).toList ++ '-' :: rest) = _ :=
    number?_append (fun c hc => isDigit_of_mem_padded hc) hlength.le (.inl hlength)
  rw [digits?_padded] at hread
  unfold year?
  rw [dropWhile_isBlank_padded]
  split
  next heq =>
    rw [hcs, List.cons_append, List.cons.injEq] at heq
    rw [heq.1] at hdigit
    exact absurd hdigit (by decide)
  next heq =>
    rw [hcs, List.cons_append, List.cons.injEq] at heq
    rw [heq.1] at hdigit
    exact absurd hdigit (by decide)
  next => rw [hread, Option.map_some, Option.map_some]

theorem year?_yearText (year : Int) : year? ((yearText year).toList ++ '-' :: rest) = some (year, '-' :: rest) := by
  have hminus : "-".toList = ['-'] := by decide
  have hplus : "+".toList = ['+'] := by decide
  unfold yearText
  split
  next hyear =>
    rw [year?_padded (by omega), Int.toNat_of_nonneg hyear.1]
  next hyear =>
    split
    next hneg =>
      rw [String.toList_append, hminus, List.append_assoc, List.singleton_append, year?,
        Text.dropWhile_of_head? (by rintro _ ⟨⟩; decide)]
      simp only [number?_signed, Option.map_some]
      rw [Int.toNat_of_nonneg (by omega), Int.neg_neg]
    next hneg =>
      rw [String.toList_append, hplus, List.append_assoc, List.singleton_append, year?,
        Text.dropWhile_of_head? (by rintro _ ⟨⟩; decide)]
      simp only [number?_signed, Option.map_some]
      rw [Int.toNat_of_nonneg (by omega)]

end

/-! ### Reading back -/

section
variable {t : DateTime} {fields : List Field} {rest : List Char}

theorem Valid.month_le (h : t.Valid) : 1 ≤ t.date.month ∧ t.date.month ≤ 12 ∧ 1 ≤ t.date.day ∧ t.date.day ≤ 31 := by
  have hdate := h.date
  unfold Date.ofNumbers? at hdate
  split at hdate
  next hnumbers =>
    obtain ⟨-, hday, hlast⟩ := hnumbers
    unfold Date.daysIn at hlast
    split at hlast <;> (try split at hlast) <;> omega
  next => cases hdate

/-- The date is read, and what follows it is left. -/
theorem Valid.readFields?_dateText (h : t.Valid) (n : Numbers) :
    readFields? (dashedDate ++ fields) n (t.dateText.toList ++ rest) =
      readFields? fields { n with year := t.date.year, month := t.date.month, day := t.date.day } rest := by
  obtain ⟨hmonth, hmonth', hday, hday'⟩ := h.month_le
  have htext : t.dateText.toList ++ rest = (yearText t.date.year).toList ++
      '-' :: ((padded 2 t.date.month).toList ++ '-' :: ((padded 2 t.date.day).toList ++ rest)) := by
    simp [dateText]
  rw [htext]
  simp [dashedDate, readFields?, Field.read?, year?_yearText, numberIn?_padded hmonth hmonth' (by omega),
    numberIn?_padded hday hday' (by omega)]

/-- The time of day is read, and what follows it is left; a leap second has the number 60. -/
theorem Valid.readFields?_timeText (h : t.Valid) (n : Numbers) :
    readFields? (.hour :: .mark ':' :: .minute :: .mark ':' :: .second :: fields) n (t.timeText.toList ++ rest) =
      readFields? fields { n with
        hour := t.second / 3600, minute := t.second / 60 % 60, second := t.second % 60 + t.nano / 1000000000 } rest := by
  have hsecond := h.second
  have hhour : t.second / 3600 ≤ 23 := by omega
  have hminute : t.second / 60 % 60 ≤ 59 := by omega
  have hlast : t.second % 60 + t.nano / 1000000000 ≤ 60 := by rcases h.nano with hnano | ⟨hnano, -⟩ <;> omega
  have htext : t.timeText.toList ++ rest = (padded 2 (t.second / 3600)).toList ++
      ':' :: ((padded 2 (t.second / 60 % 60)).toList ++
        ':' :: ((padded 2 (t.second % 60 + t.nano / 1000000000)).toList ++ rest)) := by
    simp [timeText]
  rw [htext]
  simp [readFields?, Field.read?, numberIn?_padded (Nat.zero_le _) hhour (by omega),
    numberIn?_padded (Nat.zero_le _) hminute (by omega), numberIn?_padded (Nat.zero_le _) hlast (by omega)]

theorem Valid.ofNumbers?_eq (h : t.Valid) (hwhole : t.IsWhole) : ofNumbers?
    { year := t.date.year, month := t.date.month, day := t.date.day, hour := t.second / 3600,
      minute := t.second / 60 % 60, second := t.second % 60 + t.nano / 1000000000, nano := 0 } = some t := by
  have hw : t.nano % 1000000000 = 0 := hwhole
  obtain ⟨date, second, nano⟩ := t
  have hsecond : second < 86400 := h.second
  simp only [ofNumbers?, h.date, Option.map_some, Option.some.injEq]
  rcases h.nano with hnano | ⟨hnano, hleap⟩ <;> simp only at hnano hw
  · rw [if_neg (by omega), DateTime.mk.injEq]
    refine ⟨rfl, by omega, by omega⟩
  · simp only at hleap
    split
    · rw [DateTime.mk.injEq]
      refine ⟨rfl, by omega, by omega⟩
    · rw [DateTime.mk.injEq]
      refine ⟨rfl, by omega, by omega⟩

/-- The characters of dates and times. -/
def isDateChar (c : Char) : Bool :=
  c.isDigit || ['-', '+', ':', 'T'].contains c

theorem isDateChar_of_isDigit {c : Char} (h : c.isDigit = true) : isDateChar c = true := by
  rw [isDateChar, h, Bool.true_or]

theorem isDateChar_padded (width k : Nat) : ∀ c ∈ (padded width k).toList, isDateChar c = true :=
  fun _ hc => isDateChar_of_isDigit (isDigit_of_mem_padded hc)

theorem isDateChar_dateText (t : DateTime) : ∀ c ∈ t.dateText.toList, isDateChar c = true := by
  have hdash : ∀ c ∈ "-".toList, isDateChar c = true := by decide
  have hplus : ∀ c ∈ "+".toList, isDateChar c = true := by decide
  have hyear : ∀ c ∈ (yearText t.date.year).toList, isDateChar c = true := by
    unfold yearText
    split
    · exact isDateChar_padded _ _
    · split <;> simp only [String.toList_append, List.forall_mem_append]
      · exact ⟨hdash, isDateChar_padded _ _⟩
      · exact ⟨hplus, isDateChar_padded _ _⟩
  simp only [dateText, String.toList_append, List.forall_mem_append]
  exact ⟨⟨⟨⟨hyear, hdash⟩, isDateChar_padded _ _⟩, hdash⟩, isDateChar_padded _ _⟩

theorem isDateChar_isoText (t : DateTime) : ∀ c ∈ t.isoText.toList, isDateChar c = true := by
  have hmark : ∀ c ∈ ":".toList, isDateChar c = true := by decide
  have hstart : ∀ c ∈ "T".toList, isDateChar c = true := by decide
  simp only [isoText, timeText, String.toList_append, List.forall_mem_append]
  exact ⟨⟨isDateChar_dateText t, hstart⟩, ⟨⟨⟨isDateChar_padded _ _, hmark⟩, isDateChar_padded _ _⟩, hmark⟩,
    isDateChar_padded _ _⟩

theorem isBlank_of_isDateChar {c : Char} (h : isDateChar c = true) : Text.isBlank c = false := by
  simp only [isDateChar, List.contains_cons, List.contains_nil, Bool.or_eq_true, beq_iff_eq, Bool.or_false] at h
  rcases h with hdigit | rfl | rfl | rfl | rfl
  · exact Text.isBlank_eq_false_of_isDigit hdigit
  all_goals decide

theorem trimWhile_of_isDateChar {cs : List Char} (h : ∀ c ∈ cs, isDateChar c = true) :
    Text.trimWhile Text.isBlank cs = cs :=
  Text.trimWhile_of_forall fun c hc => isBlank_of_isDateChar (h c hc)

theorem Valid.readAs?_dateText (h : t.Valid) : readAs? (dashedDate ++ fields) t.dateText.toList =
    (readFields? fields { year := t.date.year, month := t.date.month, day := t.date.day } []).bind ofNumbers? := by
  have hread : readFields? (dashedDate ++ fields) {} (t.dateText.toList ++ []) = _ := h.readFields?_dateText {}
  rw [List.append_nil] at hread
  rw [readAs?, hread]

theorem Valid.readAs?_dashedDate (h : t.Valid) : readAs? dashedDate t.dateText.toList = some ⟨t.date, 0, 0⟩ := by
  have hread : readAs? (dashedDate ++ []) t.dateText.toList = _ := h.readAs?_dateText
  rw [List.append_nil] at hread
  rw [hread]
  simp [readFields?, ofNumbers?, h.date]

/-- The text of a date is read as the first second of its day. -/
theorem Valid.read?_dateText (h : t.Valid) : read? t.dateText = some ⟨t.date, 0, 0⟩ := by
  have htimed : timedLayouts.findSome? (fun layout => readAs? layout t.dateText.toList) = none := by
    simp only [timedLayouts, List.findSome?_cons, h.readAs?_dateText]
    rfl
  rw [read?, trimWhile_of_isDateChar (isDateChar_dateText t)]
  simp only [List.findSome?_append, htimed, Option.none_or, dateLayouts, List.findSome?_cons, h.readAs?_dashedDate]

theorem Valid.isDateOnly_dateText (h : t.Valid) : isDateOnly t.dateText = true := by
  simp only [isDateOnly, trimWhile_of_isDateChar (isDateChar_dateText t), dateLayouts, List.any_cons,
    h.readAs?_dashedDate, Option.isSome_some, Bool.true_or]

/-- The text of a time is read as the time, if it has no fraction of a second. -/
theorem Valid.read?_isoText (h : t.Valid) (hwhole : t.IsWhole) : read? t.isoText = some t := by
  have htext : t.isoText.toList = t.dateText.toList ++ 'T' :: (t.timeText.toList ++ []) := by simp [isoText]
  have hread : readAs? (dashedDate ++ [.mark 'T', .hour, .mark ':', .minute, .mark ':', .second, .fraction])
      t.isoText.toList = some t := by
    rw [readAs?, htext, h.readFields?_dateText, readFields?]
    simp only [Field.read?, if_true, Option.bind_some, h.readFields?_timeText]
    exact h.ofNumbers?_eq hwhole
  rw [read?, trimWhile_of_isDateChar (isDateChar_isoText t)]
  simp only [timedLayouts, List.cons_append, List.findSome?_cons, hread]

theorem Valid.isDateOnly_isoText (h : t.Valid) : isDateOnly t.isoText = false := by
  have htext : t.isoText.toList = t.dateText.toList ++ 'T' :: t.timeText.toList := by simp [isoText]
  have hdashed : readAs? dashedDate t.isoText.toList = none := by
    have hread : readFields? (dashedDate ++ []) {} (t.dateText.toList ++ 'T' :: t.timeText.toList) = _ :=
      h.readFields?_dateText {}
    rw [List.append_nil] at hread
    rw [readAs?, htext, hread]
    rfl
  have hslash : readAs? [.month, .mark '/', .day, .mark '/', .year] t.isoText.toList = none := by
    refine readAs?_eq_none (c := '/') (by simp) fun hmem => ?_
    exact absurd (isDateChar_isoText t _ hmem) (by decide)
  simp only [isDateOnly, trimWhile_of_isDateChar (isDateChar_isoText t), dateLayouts, List.any_cons, hdashed, hslash,
    List.any_nil, Option.isSome_none, Bool.or_false]

end

end DateTime
end ItemQuery
