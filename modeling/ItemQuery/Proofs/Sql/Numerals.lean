import ItemQuery.Proofs.Sql.Fragments
import ItemQuery.Proofs.Sql.Recognizers

/-! Numbers as they are written, with a point or an exponent too, and the literals that they are read as. -/

namespace ItemQuery.Sql

/-! ### Numerals -/

/-- What may follow the digits of a number: nothing, or an exponent. -/
inductive IsExponent : List Char → Prop
  | nil : IsExponent []
  | power {sign digits : List Char} (hsign : sign = [] ∨ sign = ['-']) (hdigits : ∀ c ∈ digits, c.isDigit = true)
      (hne : digits ≠ []) : IsExponent ('e' :: sign ++ digits)

/-- Digits, then possibly a point with further digits, then possibly an exponent. -/
inductive IsNumeral : List Char → Prop
  | whole {d : Char} {ds power : List Char} (hdigits : ∀ c ∈ d :: ds, c.isDigit = true) (hpower : IsExponent power) :
      IsNumeral (d :: ds ++ power)
  | point {d : Char} {ds fraction power : List Char} (hdigits : ∀ c ∈ d :: ds, c.isDigit = true)
      (hfraction : ∀ c ∈ fraction, c.isDigit = true) (hpower : IsExponent power) :
      IsNumeral (d :: ds ++ '.' :: (fraction ++ power))

section
variable {cs power rest : List Char}

theorem IsExponent.exponent (h : IsExponent power) (hrest : Delimited rest) : exponent (power ++ rest) = (power, rest) := by
  cases h with
  | nil => exact exponent_of_delimited hrest
  | power hsign hdigits hne =>
    exact exponent_append (.inl rfl) (hsign.imp_right .inr) hdigits hne fun c hc => isDigit_of_delimiter (hrest c hc)

theorem IsExponent.head? (h : IsExponent power) (hrest : Delimited rest) :
    ∀ c, (power ++ rest).head? = some c → c.isDigit = false ∧ c ≠ '.' := by
  intro c hc
  cases h with
  | nil => rcases hrest c hc with rfl | rfl | rfl <;> decide
  | power =>
    cases hc
    decide

theorem IsNumeral.number? (h : IsNumeral cs) (hrest : Delimited rest) : number? (cs ++ rest) = some (cs, rest) := by
  cases h with
  | @whole d ds power hdigits hpower =>
    have hmantissa : mantissa? (d :: ds ++ (power ++ rest)) = some (d :: ds, power ++ rest) :=
      mantissa?_whole hdigits (fun c hc => (hpower.head? hrest c hc).1) fun hc => (hpower.head? hrest '.' hc).2 rfl
    rw [List.append_assoc, Sql.number?, hmantissa, Option.map_some, hpower.exponent hrest]
    rfl
  | @point d ds fraction power hdigits hfraction hpower =>
    have hspan : spanWhile Char.isDigit (fraction ++ (power ++ rest)) = (fraction, power ++ rest) :=
      spanWhile_append hfraction fun c hc => (hpower.head? hrest c hc).1
    have hmantissa := mantissa?_point hdigits (fraction ++ (power ++ rest))
    have hshape : d :: ds ++ '.' :: (fraction ++ power) ++ rest = d :: ds ++ '.' :: (fraction ++ (power ++ rest)) := by
      simp
    rw [hspan] at hmantissa
    rw [hshape, Sql.number?, hmantissa]
    simp [Split.after, hpower.exponent hrest]

theorem IsNumeral.exists_cons (h : IsNumeral cs) : ∃ d ds, cs = d :: ds ∧ d.isDigit = true := by
  cases h with
  | whole hdigits => exact ⟨_, _, rfl, hdigits _ List.mem_cons_self⟩
  | point hdigits => exact ⟨_, _, rfl, hdigits _ List.mem_cons_self⟩

theorem IsNumeral.prints {s : String} (h : IsNumeral s.toList) : Prints s.toList [.number s] := by
  obtain ⟨d, ds, hs, hd⟩ := h.exists_cons
  exact prints_of_number? hs hd fun _ => h.number?

theorem isNumeral_toString (n : Nat) : IsNumeral (toString n).toList := by
  obtain ⟨d, ds, hcons⟩ := List.exists_cons_of_ne_nil (Number.toString_toList_ne_nil n)
  have hdigits : ∀ c ∈ d :: ds, c.isDigit = true := fun c hc => Number.isDigit_of_mem_toString (n := n) (by rwa [hcons])
  have hnumeral := IsNumeral.whole hdigits .nil
  rwa [List.append_nil, ← hcons] at hnumeral

/-- A numeral has no sign. -/
theorem IsNumeral.head?_ne (h : IsNumeral cs) : cs.head? ≠ some '-' := by
  obtain ⟨d, ds, rfl, hd⟩ := h.exists_cons
  intro hhead
  cases hhead
  cases hd

end

/-! ### Decimals -/

/-- A numeral that is not read as an integer. -/
def IsFractional (cs : List Char) : Prop :=
  IsNumeral cs ∧ ∃ c ∈ cs, c = '.' ∨ c = 'e'

theorem isExponent_toString (k : Int) : IsExponent ('e' :: (toString k).toList) := by
  cases k with
  | ofNat k => exact .power (.inl rfl) (fun _ => Number.isDigit_of_mem_toString) (Number.toString_toList_ne_nil k)
  | negSucc k =>
    have htext : (toString (Int.negSucc k)).toList = ['-'] ++ (toString (k + 1)).toList := by
      have hsign : toString (Int.negSucc k) = "-" ++ toString (k + 1) := rfl
      simp [hsign]
    rw [htext]
    exact .power (.inr rfl) (fun _ => Number.isDigit_of_mem_toString) (Number.toString_toList_ne_nil (k + 1))

section
variable {digits : List Char} (hne : digits ≠ []) (hdigits : ∀ c ∈ digits, c.isDigit = true) (place : Int)
include hne hdigits

theorem isFractional_point {fraction : List Char} (hfraction : ∀ c ∈ fraction, c.isDigit = true) :
    IsFractional (digits ++ '.' :: fraction) := by
  obtain ⟨d, ds, rfl⟩ := List.exists_cons_of_ne_nil hne
  have hnumeral := IsNumeral.point hdigits hfraction .nil
  rw [List.append_nil] at hnumeral
  exact ⟨hnumeral, '.', by simp, .inl rfl⟩

theorem isFractional_positional : IsFractional (Number.positional .literal digits place) := by
  have hzeros : ∀ n, ∀ c ∈ Number.zeros n, c.isDigit = true := by
    intro n c hc
    rw [List.eq_of_mem_replicate hc]
    rfl
  have hzero : ∀ c ∈ ['0'], c.isDigit = true := by decide
  unfold Number.positional
  dsimp only
  split
  next => exact isFractional_point (by simp) hzero (List.forall_mem_append.mpr ⟨hzeros _, hdigits⟩)
  next hpositive =>
    split
    next =>
      exact isFractional_point (by simp [hne]) (List.forall_mem_append.mpr ⟨hdigits, hzeros _⟩) hzero
    next hinside =>
      refine isFractional_point ?_ (fun c hc => hdigits c (List.mem_of_mem_take hc)) fun c hc =>
        hdigits c (List.mem_of_mem_drop hc)
      rw [Ne, List.take_eq_nil_iff, not_or]
      exact ⟨by omega, hne⟩

theorem isFractional_scientific : IsFractional (Number.scientific digits place) := by
  have hpower := isExponent_toString (place - 1)
  match digits with
  | [] => exact absurd rfl hne
  | [d] =>
    have hnumeral := IsNumeral.whole hdigits hpower
    exact ⟨hnumeral, 'e', by simp [Number.scientific], .inr rfl⟩
  | d :: d' :: rest =>
    obtain ⟨hd, hrest⟩ := List.forall_mem_cons.mp hdigits
    have hnumeral := IsNumeral.point (List.forall_mem_singleton.mpr hd) hrest hpower
    exact ⟨hnumeral, '.', by simp [Number.scientific], .inl rfl⟩

end

/-- A finite number is written as a numeral with a point or an exponent, behind a sign if it is negative. -/
theorem floatText_cases {x : Float} (hfinite : (Number.fields x).2.1 ≠ 2047) :
    ∃ body, IsFractional body ∧ (Number.floatText x).toList = if Number.isNegative x then '-' :: body else body := by
  have hbody : ∀ zero : Prop, [Decidable zero] → IsFractional
      (if zero then '0' :: (if Number.Layout.literal.keepsPoint then ['.', '0'] else [])
        else
          let shown := Nat.toDigits 10 (Number.magnitude x).shortest.1
          let place := (shown.length : Int) + (Number.magnitude x).shortest.2
          if Number.Layout.literal.mostPlaces.any (· < place) || Number.Layout.literal.leastPlaces.any (place ≤ ·) then
            Number.scientific shown place
          else Number.positional .literal shown place) := by
    intro zero _
    have hdigits : ∀ c ∈ Nat.toDigits 10 (Number.magnitude x).shortest.1, c.isDigit = true :=
      fun c hc => Nat.isDigit_of_mem_toDigits (by decide) (by decide) hc
    split
    next =>
      have hzero : ∀ c ∈ ['0'], c.isDigit = true := by decide
      exact isFractional_point (by decide) hzero hzero
    next =>
      dsimp only
      split
      next => exact isFractional_scientific Nat.toDigits_ne_nil hdigits _
      next => exact isFractional_positional Nat.toDigits_ne_nil hdigits _
  refine ⟨_, hbody ((Number.fields x).2.1 = 0 ∧ (Number.fields x).2.2 = 0), ?_⟩
  rw [Number.floatText, Number.decimalText]
  dsimp only
  rw [if_neg hfinite, String.toList_ofList]
  rfl

/-! ### Reading -/

section
variable {text : String} {e : Expr}

theorem legible_numeral (hnumeral : IsNumeral text.toList) (h : IsValue text e) : Legible text e :=
  legible_atom (p := .number text) rfl nofun nofun hnumeral.prints fun _ => reads_number 0 0 h

theorem isNumeral_int64Text {n : Int64} (hn : 0 ≤ n) : IsNumeral (Number.int64Text n).toList := by
  rw [Number.int64Text_eq_toString hn]
  exact isNumeral_toString _

theorem legible_int {n : Int64} (hn : 0 ≤ n) : Legible (Number.int64Text n) (.int n) :=
  legible_numeral (isNumeral_int64Text hn) (isValue_int hn)

/-- A numeral behind a minus sign. -/
theorem legible_negative (hnumeral : IsNumeral text.toList) (h : IsValue text e) : Legible ("-" ++ text) (.negate e) := by
  have hlist : ("-" ++ text).toList = '-' :: text.toList := by
    simp
  obtain ⟨d, ds, hcons, -⟩ := hnumeral.exists_cons
  refine ⟨[.symbol "-", .number text], .minus (.atom rfl nofun nofun), ?_, fun scope => ?_⟩
  · rw [hlist]
    exact hnumeral.prints.negated (by rw [hcons]; exact List.cons_ne_nil d ds) hnumeral.head?_ne
  · exact (Reads.unary (by nofun) (fun t m => push_minus) (fun _ => rfl) (fun _ _ => rfl)
      (reads_number Precedence.negation.rank (Precedence.negation.rank + 1) h) (Nat.le_refl _) (Nat.lt_succ_self _)
      0).mono (Nat.zero_le _) (Nat.le_refl _)

/-- Numbers with a point or an exponent are read as floating point numbers. -/
theorem isValue_float {x : Float} (h : IsFractional text.toList) (hx : Number.readFloat? text = some x) :
    IsValue text (.literal (.float x)) := by
  intro t ht
  obtain ⟨-, c, hc, hmark⟩ := h
  have hfractional : (t.text.toList.any fun c => c == '.' || c == 'e' || c == 'E') = true := by
    rw [List.any_eq_true]
    exact ⟨c, ht ▸ hc, by rcases hmark with rfl | rfl <;> rfl⟩
  simp only [numberValue, hfractional, if_true]
  rw [ht, hx]

end

/-- The text of a finite number is read as this number again. -/
structure ReadsBack (x : Float) : Prop where
  finite : (Number.fields x).2.1 ≠ 2047
  read : Number.readFloat? (Number.floatText x) = some x

/-- A number that is read back is written with a numeral, behind a sign if its opposite is read. -/
theorem ReadsBack.exists_numeral {x : Float} (h : ReadsBack x) : ∃ text, IsNumeral text.toList ∧
    (Number.floatText x = text ∧ IsValue text (.literal (.float x)) ∨
      ∃ y, Number.floatText x = "-" ++ text ∧ IsValue text (.literal (.float y)) ∧ -y = x) := by
  obtain ⟨body, hbody, htext⟩ := floatText_cases h.finite
  have hread := h.read
  have hlist : (String.ofList body).toList = body := String.toList_ofList
  refine ⟨String.ofList body, hlist.symm ▸ hbody.1, ?_⟩
  rw [← hlist] at hbody
  cases hsign : Number.isNegative x with
  | false =>
    rw [hsign, if_neg Bool.false_ne_true] at htext
    have heq : Number.floatText x = String.ofList body := by
      rw [← htext, String.ofList_toList]
    exact .inl ⟨heq, isValue_float hbody (heq ▸ hread)⟩
  | true =>
    rw [hsign, if_pos rfl] at htext
    have heq : Number.floatText x = "-" ++ String.ofList body := by
      rw [← String.ofList_toList (s := Number.floatText x), htext]
      simp [String.ofList_cons]
    rw [Number.readFloat?, htext] at hread
    obtain ⟨y, hy, hneg⟩ := Option.map_eq_some_iff.mp hread
    refine .inr ⟨y, heq, isValue_float hbody ?_, hneg⟩
    -- Without its sign the text is read the same way, since it starts with a digit.
    obtain ⟨d, ds, hcons, hd⟩ := hbody.1.exists_cons
    rw [hlist] at hcons
    rw [Number.readFloat?, hlist, hcons]
    rw [hcons] at hy
    split
    next heq => cases heq; cases hd
    next heq => cases heq; cases hd
    next => exact hy

end ItemQuery.Sql
