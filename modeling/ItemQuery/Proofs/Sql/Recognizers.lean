import Mathlib.Algebra.Group.Nat.Defs
import Mathlib.Data.List.TakeWhile
import ItemQuery.Proofs.Sql.Tidy

/-! What a recognizer takes, it takes again. It takes as much of a text as it can, so what follows decides where it ends.
    It ends in the same place when something else follows that starts like the old text, or with a character that belongs
    to no token. -/

namespace ItemQuery.Sql

variable {c : Char} {cs rest rest' : List Char} {s : Split}

/-! ### Characters that end tokens -/

/-- Blanks and closing parentheses belong to no token in front of them. -/
def isStop (c : Char) : Bool :=
  Text.isBlank c || c == ')'

/-- The characters of white space. -/
def blanks : List Char :=
  ['\t', '\n', '\x0B', '\x0C', '\r', ' ', '\u0085', '\u00A0', '\u1680', '\u2000', '\u2001', '\u2002', '\u2003', '\u2004',
    '\u2005', '\u2006', '\u2007', '\u2008', '\u2009', '\u200A', '\u2028', '\u2029', '\u202F', '\u205F', '\u3000']

theorem mem_blanks (h : Text.isBlank c = true) : c ∈ blanks := by
  have hcode : c.toNat ∈ blanks.map Char.toNat := by
    simp only [Text.isBlank, Bool.or_eq_true, Bool.and_eq_true, decide_eq_true_eq, beq_iff_eq] at h
    simp only [blanks, List.map_cons, List.map_nil, List.mem_cons, List.not_mem_nil, or_false, Char.reduceToNat]
    omega
  obtain ⟨d, hd, hcd⟩ := List.mem_map.mp hcode
  exact Char.toNat_inj.mp hcd ▸ hd

/-- What may continue a token. -/
def isInner (c : Char) : Bool :=
  startsWord c || continuesWord c || c.isDigit ||
    ['.', '-', '*', '\'', '[', '"', ']', '<', '>', '=', '!', '|', '+', '/'].contains c

theorem isInner_eq_false (h : isStop c = true) : isInner c = false := by
  have hall : ∀ d ∈ ')' :: blanks, isInner d = false := by decide +kernel
  rw [isStop, Bool.or_eq_true, beq_iff_eq] at h
  rcases h with h | rfl
  · exact hall c (List.mem_cons_of_mem _ (mem_blanks h))
  · exact hall _ List.mem_cons_self

/-! ### What may follow -/

/-- The second text starts like the first one, or with a character that ends tokens, or is empty. -/
def Follows (rest rest' : List Char) : Prop :=
  ∀ c, rest'.head? = some c → rest.head? = some c ∨ isStop c = true

theorem Follows.append (h : Follows rest rest') (front : List Char) : Follows (front ++ rest) (front ++ rest') := by
  cases front with
  | nil => exact h
  | cons c front => exact fun d hd => .inl hd

/-- A class of characters without those that end tokens is not continued where it was not before. -/
theorem Follows.head (h : Follows rest rest') {p : Char → Bool} (hp : ∀ c, p c = true → isInner c = true)
    (hrest : ∀ c, rest.head? = some c → p c = false) : ∀ c, rest'.head? = some c → p c = false := by
  intro c hc
  rcases h c hc with hc | hstop
  · exact hrest c hc
  · rw [Bool.eq_false_iff]
    intro hpc
    have hinner := hp c hpc
    rw [isInner_eq_false hstop] at hinner
    cases hinner

theorem Follows.head_ne (h : Follows rest rest') (hc : isInner c = true) (hrest : rest.head? ≠ some c) :
    rest'.head? ≠ some c := by
  intro hhead
  rcases h c hhead with hhead | hstop
  · exact hrest hhead
  · rw [isInner_eq_false hstop] at hc
    cases hc

/-- A token that ended before the first text ends before the second one too. Beyond the first character, what follows
    counts where the text goes on like a name, an exponent or a comment and turns out to be none. -/
structure Resumes (rest rest' : List Char) : Prop where
  follows : Follows rest rest'
  point : ∀ more', rest' = '.' :: more' →
    ∃ more, rest = '.' :: more ∧ (segment more = .absent → segment more' = .absent)
  exponent : exponent rest = ([], rest) → exponent rest' = ([], rest')
  dash : ∀ more', rest' = '-' :: more' →
    ∃ more, rest = '-' :: more ∧ (lineComment? more = none → lineComment? more' = none)

/-! ### Recognizers -/

theorem spanWhile_head? (p : Char → Bool) (cs : List Char) : ∀ c, (spanWhile p cs).2.head? = some c → p c = false := by
  intro c hc
  have h := List.head?_dropWhile_not p cs
  rw [spanWhile] at hc
  rw [hc] at h
  simpa using h

theorem spanWhile_follows {p : Char → Bool} (hp : ∀ c, p c = true → isInner c = true)
    (h : Follows (spanWhile p cs).2 rest') : spanWhile p ((spanWhile p cs).1 ++ rest') = ((spanWhile p cs).1, rest') :=
  spanWhile_append (fun _ => mem_spanWhile) (h.head hp (spanWhile_head? p cs))

theorem isInner_of_startsWord (h : startsWord c = true) : isInner c = true := by
  simp [isInner, h]

theorem isInner_of_continuesWord (h : continuesWord c = true) : isInner c = true := by
  simp [isInner, h]

theorem isInner_of_isDigit (h : c.isDigit = true) : isInner c = true := by
  simp [isInner, h]

/-- A quoted text is its doubled content, up to a quote that stands alone, or goes on to the end. -/
theorem quotedTail?_cases (quote : Char) (cs : List Char) :
    (∃ body, cs = Text.doubled quote body ∧ quotedTail? quote cs = none) ∨
    ∃ body rest, cs = Text.doubled quote body ++ quote :: rest ∧ rest.head? ≠ some quote := by
  induction cs using quotedTail?.induct quote with
  | case1 => exact .inl ⟨[], rfl, rfl⟩
  | case2 => exact .inr ⟨[], [], rfl, nofun⟩
  | case3 c hc => exact .inl ⟨[c], by simp [Text.doubled, hc], by simp [quotedTail?, hc]⟩
  | case4 cs ih =>
    rcases ih with ⟨body, rfl, hnone⟩ | ⟨body, rest, rfl, hrest⟩
    · exact .inl ⟨quote :: body, by simp [Text.doubled], by simp [quotedTail?, hnone]⟩
    · exact .inr ⟨quote :: body, rest, by simp [Text.doubled], hrest⟩
  | case5 d cs hd => exact .inr ⟨[], d :: cs, rfl, fun h => hd (Option.some.inj h)⟩
  | case6 c d cs hc ih =>
    rcases ih with ⟨body, hbody, hnone⟩ | ⟨body, rest, hbody, hrest⟩
    · refine .inl ⟨c :: body, by rw [Text.doubled, if_neg hc, hbody], ?_⟩
      rw [quotedTail?_cons hc (List.cons_ne_nil _ _), hnone]
      rfl
    · exact .inr ⟨c :: body, rest, by rw [Text.doubled, if_neg hc, hbody]; rfl, hrest⟩

/-- A recognizer that took the start of a text takes it again. -/
structure Retakes (scan : List Char → Scan) (cs : List Char) (s : Split) : Prop where
  append : s.1 ++ s.2 = cs
  ne_nil : s.1 ≠ []
  again : ∀ rest', Resumes s.2 rest' → scan (s.1 ++ rest') = .found (s.1, rest')

/-- A quoted text is taken again if no quote follows. -/
theorem quotedTail?_again {quote : Char} (h : quotedTail? quote cs = some s) :
    s.1 ++ s.2 = cs ∧ s.1 ≠ [] ∧ s.2.head? ≠ some quote ∧
      ∀ rest', rest'.head? ≠ some quote → quotedTail? quote (s.1 ++ rest') = some (s.1, rest') := by
  rcases quotedTail?_cases quote cs with ⟨body, -, hnone⟩ | ⟨body, rest, rfl, hrest⟩
  · rw [hnone] at h
    cases h
  · rw [quotedTail?_doubled hrest] at h
    cases h
    refine ⟨by simp, by simp, hrest, fun rest' hrest' => ?_⟩
    rw [List.append_assoc, List.singleton_append, quotedTail?_doubled hrest']

/-- A text that has to be closed once it is opened. -/
theorem committed_again {quote : Char} (hquote : isInner quote = true) (front : List Char) {scan : List Char → Scan}
    (hscan : ∀ cs, scan (front ++ cs) = .committed front (quotedTail? quote cs))
    (h : scan (front ++ cs) = .found s) :
    s.1 ++ s.2 = front ++ cs ∧ s.1 ≠ [] ∧ ∀ rest', Follows s.2 rest' → scan (s.1 ++ rest') = .found (s.1, rest') := by
  rw [hscan] at h
  cases htail : quotedTail? quote cs with
  | none =>
    rw [htail] at h
    cases h
  | some tail =>
    rw [htail] at h
    cases h
    obtain ⟨happend, hne, hhead, hagain⟩ := quotedTail?_again htail
    refine ⟨by simp [Split.after, happend], by simp [Split.after, hne], fun rest' hfollows => ?_⟩
    have hrest' := hfollows.head_ne hquote hhead
    rw [Split.after, List.append_assoc, hscan, hagain rest' hrest']
    rfl

theorem word?_again (h : word? cs = some s) :
    s.1 ++ s.2 = cs ∧ s.1 ≠ [] ∧ ∀ rest', Follows s.2 rest' → word? (s.1 ++ rest') = some (s.1, rest') := by
  have hfirst := spanWhile_eq_append startsWord cs
  have hmore := spanWhile_eq_append continuesWord (spanWhile startsWord cs).2
  have hstart := spanWhile_head? startsWord cs
  have hfirstMem : ∀ c ∈ (spanWhile startsWord cs).1, startsWord c = true := fun _ => mem_spanWhile
  simp only [word?] at h
  split at h
  · cases h
  · next hne =>
    cases h
    generalize spanWhile startsWord cs = first at *
    obtain ⟨first, rest⟩ := first
    refine ⟨?_, ?_, fun rest' hfollows => ?_⟩
    · simp only [Split.after, List.append_assoc, hmore, hfirst]
    · intro hnil
      exact hne (List.isEmpty_iff.mpr (List.append_eq_nil_iff.mp hnil).1)
    -- The first characters end where they did: before the further ones, or before what follows.
    have hhead : ∀ c, ((spanWhile continuesWord rest).1 ++ rest').head? = some c → startsWord c = false := by
      rw [← hmore] at hstart
      exact (hfollows.append _).head (fun _ => isInner_of_startsWord) hstart
    simp only [Split.after, List.append_assoc, word?]
    rw [spanWhile_append hfirstMem hhead, spanWhile_follows (fun _ => isInner_of_continuesWord) hfollows]
    simp only [hne, Bool.false_eq_true, if_false]

theorem segment_of_head? (hbracket : cs.head? ≠ some '[') (hquote : cs.head? ≠ some '"') :
    segment cs = .ofOption (word? cs) := by
  unfold segment
  split
  · exact absurd rfl hbracket
  · exact absurd rfl hquote
  · rfl

theorem segment_again (h : segment cs = .found s) :
    s.1 ++ s.2 = cs ∧ s.1 ≠ [] ∧ ∀ rest', Follows s.2 rest' → segment (s.1 ++ rest') = .found (s.1, rest') := by
  by_cases hbracket : cs.head? = some '['
  · obtain ⟨cs, rfl⟩ := List.head?_eq_some_iff.mp hbracket
    exact committed_again rfl ['['] (fun _ => rfl) h
  · by_cases hquote : cs.head? = some '"'
    · obtain ⟨cs, rfl⟩ := List.head?_eq_some_iff.mp hquote
      exact committed_again rfl ['"'] (fun _ => rfl) h
    · rw [segment_of_head? hbracket hquote] at h
      cases hword : word? cs with
      | none =>
        rw [hword] at h
        cases h
      | some t =>
        rw [hword] at h
        cases h
        obtain ⟨happend, hne, hagain⟩ := word?_again hword
        refine ⟨happend, hne, fun rest' hfollows => ?_⟩
        have hhead : (s.1 ++ rest').head? = cs.head? := by
          rw [← happend, List.head?_append_of_ne_nil _ hne, List.head?_append_of_ne_nil _ hne]
        rw [segment_of_head? (hhead ▸ hbracket) (hhead ▸ hquote), hagain rest' hfollows]
        rfl

theorem moreSegments_of_point (h : ∀ more, cs = '.' :: more → segment more = .absent) (fuel : Nat) :
    moreSegments fuel cs = .found ([], cs) := by
  cases fuel with
  | zero => rfl
  | succ fuel =>
    unfold moreSegments
    split
    · rw [h _ rfl]
    · rfl

/-- The fuel does not matter as long as there is one unit for each character. -/
theorem moreSegments_again {fuel : Nat} (hfuel : cs.length ≤ fuel) (h : moreSegments fuel cs = .found s) :
    s.1 ++ s.2 = cs ∧ ∀ rest', Resumes s.2 rest' → ∀ fuel', (s.1 ++ rest').length ≤ fuel' →
      moreSegments fuel' (s.1 ++ rest') = .found (s.1, rest') := by
  induction fuel generalizing cs s with
  | zero =>
    cases List.length_eq_zero_iff.mp (Nat.le_zero.mp hfuel)
    cases h
    refine ⟨rfl, fun rest' hresumes fuel' _ => moreSegments_of_point (fun more hmore => ?_) fuel'⟩
    obtain ⟨_, hnil, -⟩ := hresumes.point more hmore
    cases hnil
  | succ fuel ih =>
    unfold moreSegments at h
    split at h
    next rest =>
      split at h
      next habsent =>
        cases h
        refine ⟨rfl, fun rest' hresumes fuel' _ => moreSegments_of_point (fun more hmore => ?_) fuel'⟩
        obtain ⟨_, heq, himp⟩ := hresumes.point more hmore
        cases heq
        exact himp habsent
      next => cases h
      next first hfirst =>
        obtain ⟨happend, hne, hagain⟩ := segment_again hfirst
        have hlength : first.2.length ≤ fuel := by
          have := congrArg List.length happend
          simp only [List.length_append, List.length_cons] at this hfuel
          omega
        split at h
        next more hmore =>
          cases h
          obtain ⟨happend', hagain'⟩ := ih hlength hmore
          refine ⟨by simp only [Split.after, List.cons_append, List.append_assoc, happend', happend], ?_⟩
          intro rest' hresumes fuel' hfuel'
          simp only [Split.after, List.cons_append, List.append_assoc, List.length_cons, List.length_append] at hfuel' ⊢
          obtain ⟨fuel', rfl⟩ : ∃ n, fuel' = n + 1 := ⟨fuel' - 1, by omega⟩
          have hfollows : Follows first.2 (more.1 ++ rest') := by
            rw [← happend']
            exact hresumes.follows.append _
          simp only [moreSegments, hagain _ hfollows, hagain' rest' hresumes fuel' (by rw [List.length_append]; omega),
            Split.after, List.cons_append]
        next => simp_all
    next hpoint =>
      cases h
      refine ⟨rfl, fun rest' hresumes fuel' _ => moreSegments_of_point (fun more hmore => ?_) fuel'⟩
      obtain ⟨_, heq, -⟩ := hresumes.point more hmore
      exact absurd heq (hpoint _)

theorem identifier_again (h : identifier cs = .found s) : Retakes identifier cs s := by
  unfold identifier at h
  split at h
  next first hfirst =>
    obtain ⟨happend, hne, hagain⟩ := segment_again hfirst
    split at h
    next more hmore =>
      cases h
      obtain ⟨happend', hagain'⟩ := moreSegments_again (Nat.le_refl _) hmore
      refine ⟨by simp only [Split.after, List.append_assoc, happend', happend], by simp [Split.after, hne], ?_⟩
      intro rest' hresumes
      have hfollows : Follows first.2 (more.1 ++ rest') := by
        rw [← happend']
        exact hresumes.follows.append _
      simp only [Split.after, List.append_assoc, identifier, hagain _ hfollows,
        hagain' rest' hresumes _ (Nat.le_refl _)]
    next => simp_all
  next => simp_all

theorem spanWhile_isDigit_point {ds : List Char} (hds : ∀ d ∈ ds, d.isDigit = true) (rest : List Char) :
    spanWhile Char.isDigit (ds ++ '.' :: rest) = (ds, '.' :: rest) := by
  refine spanWhile_append hds fun c hc => ?_
  cases hc
  rfl

theorem mantissa?_fraction (rest : List Char) : mantissa? ('.' :: rest) =
    if (spanWhile Char.isDigit rest).1.isEmpty then none else some ((spanWhile Char.isDigit rest).after ['.']) := by
  have hspan := spanWhile_isDigit_point (List.forall_mem_nil _) rest
  rw [List.nil_append] at hspan
  simp only [mantissa?, hspan]

theorem mantissa?_point {d : Char} {ds : List Char} (hds : ∀ c ∈ d :: ds, c.isDigit = true) (rest : List Char) :
    mantissa? (d :: ds ++ '.' :: rest) = some ((spanWhile Char.isDigit rest).after (d :: ds ++ ['.'])) := by
  simp only [mantissa?, spanWhile_isDigit_point hds rest]

theorem mantissa?_whole {d : Char} {ds : List Char} (hds : ∀ c ∈ d :: ds, c.isDigit = true)
    (hrest : ∀ c, rest.head? = some c → c.isDigit = false) (hpoint : rest.head? ≠ some '.') :
    mantissa? (d :: ds ++ rest) = some (d :: ds, rest) := by
  simp only [mantissa?, spanWhile_append hds hrest]
  split
  next => contradiction
  next => contradiction
  next => exact absurd rfl hpoint
  next => rfl

theorem mantissa?_again (h : mantissa? cs = some s) :
    ∀ rest', Follows s.2 rest' → mantissa? (s.1 ++ rest') = some (s.1, rest') := by
  intro rest' hfollows
  have hhead := spanWhile_head? Char.isDigit cs
  have hdigits : ∀ c ∈ (spanWhile Char.isDigit cs).1, c.isDigit = true := fun _ => mem_spanWhile
  simp only [mantissa?] at h
  generalize spanWhile Char.isDigit cs = whole at h hhead hdigits
  obtain ⟨digits, rest⟩ := whole
  cases digits with
  | nil =>
    split at h
    next more _ _ =>
      split at h
      next => cases h
      next hne =>
        cases h
        rw [Split.after, List.append_assoc, List.singleton_append, mantissa?_fraction,
          spanWhile_follows (fun _ => isInner_of_isDigit) hfollows, if_neg hne]
        rfl
    next => cases h
    all_goals simp_all
  | cons d ds =>
    split at h
    next => contradiction
    next => contradiction
    next more heq _ =>
      cases h
      rw [Split.after, List.append_assoc, List.append_assoc, List.singleton_append, mantissa?_point hdigits,
        spanWhile_follows (fun _ => isInner_of_isDigit) hfollows, Split.after, List.append_assoc]
    next hpoint _ =>
      cases h
      refine mantissa?_whole hdigits (hfollows.head (fun _ => isInner_of_isDigit) hhead) (hfollows.head_ne rfl ?_)
      intro hmore
      obtain ⟨more, hmore⟩ := List.head?_eq_some_iff.mp hmore
      exact hpoint more hmore

/-- An exponent is a letter, a sign or none, and digits. -/
theorem exponent_append {e : Char} {sign digits : List Char} (he : e = 'e' ∨ e = 'E')
    (hsign : sign = [] ∨ sign = ['+'] ∨ sign = ['-']) (hdigits : ∀ c ∈ digits, c.isDigit = true) (hne : digits ≠ [])
    (hrest : ∀ c, rest.head? = some c → c.isDigit = false) :
    exponent (e :: sign ++ digits ++ rest) = (e :: sign ++ digits, rest) := by
  obtain ⟨c, digits, rfl⟩ := List.exists_cons_of_ne_nil hne
  have hspan := spanWhile_append hdigits hrest
  have hc : c ≠ '+' ∧ c ≠ '-' := by
    have := hdigits c List.mem_cons_self
    constructor <;> (rintro rfl; cases this)
  rw [List.cons_append] at hspan
  rcases hsign with rfl | rfl | rfl <;> simp [exponent, hspan, Split.after, he, hc.1, hc.2]

/-- There is no exponent, or one that does not end before a digit. -/
theorem exponent_cases (cs : List Char) : exponent cs = ([], cs) ∨
    ∃ e sign digits, (e = 'e' ∨ e = 'E') ∧ (sign = [] ∨ sign = ['+'] ∨ sign = ['-']) ∧
      (∀ c ∈ digits, c.isDigit = true) ∧ digits ≠ [] ∧ (exponent cs).1 = e :: sign ++ digits ∧
      ∀ c, (exponent cs).2.head? = some c → c.isDigit = false := by
  cases cs with
  | nil => exact .inl rfl
  | cons c cs =>
    have hsigned : ∀ sign : List Char, (sign = [] ∨ sign = ['+'] ∨ sign = ['-']) →
        let digits := spanWhile Char.isDigit ((c :: cs).drop (1 + sign.length))
        let s := if (c = 'e' ∨ c = 'E') ∧ !digits.1.isEmpty then digits.after (c :: sign) else ([], c :: cs)
        s = ([], c :: cs) ∨ ∃ e sign digits, (e = 'e' ∨ e = 'E') ∧ (sign = [] ∨ sign = ['+'] ∨ sign = ['-']) ∧
          (∀ c ∈ digits, c.isDigit = true) ∧ digits ≠ [] ∧ s.1 = e :: sign ++ digits ∧
          ∀ c, s.2.head? = some c → c.isDigit = false := by
      intro sign hsign digits s
      by_cases hexponent : (c = 'e' ∨ c = 'E') ∧ !digits.1.isEmpty
      · have hs : s = digits.after (c :: sign) := if_pos hexponent
        have hne : digits.1 ≠ [] := by simpa using hexponent.2
        refine .inr ⟨c, sign, digits.1, hexponent.1, hsign, fun _ => mem_spanWhile, hne,
          by rw [hs]; rfl, ?_⟩
        rw [hs]
        exact spanWhile_head? _ _
      · exact .inl (if_neg hexponent)
    unfold exponent
    simp only
    split
    next => exact hsigned ['+'] (by simp)
    next => exact hsigned ['-'] (by simp)
    next => exact hsigned [] (by simp)

theorem exponent_again (hresumes : Resumes (exponent cs).2 rest') :
    exponent ((exponent cs).1 ++ rest') = ((exponent cs).1, rest') := by
  rcases exponent_cases cs with hnone | ⟨e, sign, digits, he, hsign, hdigits, hne, hshown, hrest⟩
  · rw [hnone] at hresumes ⊢
    exact hresumes.exponent hnone
  · rw [hshown]
    exact exponent_append he hsign hdigits hne (hresumes.follows.head (fun _ => isInner_of_isDigit) hrest)

theorem number?_again (h : number? cs = some s) : Retakes (fun cs => .ofOption (number? cs)) cs s := by
  rw [number?, Option.map_eq_some_iff] at h
  obtain ⟨m, hm, rfl⟩ := h
  obtain ⟨hne, happend, -⟩ := exists_of_mantissa? hm
  have hexponent := (exponent_eq_append m.2).1
  refine ⟨by simp only [Split.after, List.append_assoc, hexponent, happend], by simp [Split.after, hne], ?_⟩
  intro rest' hresumes
  have hfollows : Follows m.2 ((exponent m.2).1 ++ rest') := by
    conv_lhs => rw [← hexponent]
    exact hresumes.follows.append _
  have hmantissa := mantissa?_again hm _ hfollows
  simp only [Split.after, List.append_assoc, number?, hmantissa, Option.map_some, exponent_again hresumes, Scan.ofOption]

theorem stringLiteral_letter (hc : c = 'N' ∨ c = 'n') (cs : List Char) :
    stringLiteral (c :: '\'' :: cs) = .committed [c, '\''] (quotedTail? '\'' cs) := by
  rcases hc with rfl | rfl <;> rfl

theorem stringLiteral_again (h : stringLiteral cs = .found s) : Retakes stringLiteral cs s := by
  have hretakes : ∀ (front : List Char) {cs : List Char},
      (∀ cs, stringLiteral (front ++ cs) = .committed front (quotedTail? '\'' cs)) →
      stringLiteral (front ++ cs) = .found s → Retakes stringLiteral (front ++ cs) s := by
    intro front cs hscan hfound
    obtain ⟨happend, hne, hagain⟩ := committed_again rfl front hscan hfound
    exact ⟨happend, hne, fun rest' hresumes => hagain rest' hresumes.follows⟩
  have hshape := h
  unfold stringLiteral at hshape
  split at hshape
  next rest => exact hretakes ['\''] (fun _ => rfl) h
  next c rest hc =>
    split at hshape
    next hletter => exact hretakes [c, '\''] (stringLiteral_letter hletter) h
    next => cases hshape
  next => cases hshape

/-- The operators of two characters. -/
def operatorPairs : List (Char × Char) :=
  [('<', '>'), ('!', '='), ('<', '='), ('>', '='), ('|', '|')]

theorem operator_pair {d : Char} (h : (c, d) ∈ operatorPairs) (rest : List Char) :
    operator (c :: d :: rest) = .found ([c, d], rest) := by
  simp only [operatorPairs, List.mem_cons, Prod.mk.injEq, List.not_mem_nil, or_false] at h
  rcases h with ⟨rfl, rfl⟩ | ⟨rfl, rfl⟩ | ⟨rfl, rfl⟩ | ⟨rfl, rfl⟩ | ⟨rfl, rfl⟩ <;> rfl

theorem operator_single (h : ∀ d, rest.head? = some d → (c, d) ∉ operatorPairs) :
    operator (c :: rest) = .found ([c], rest) := by
  have hpair : ∀ {d e more}, (d, e) ∈ operatorPairs → c :: rest = d :: e :: more → False := by
    rintro d e more hmem ⟨⟩
    exact h e rfl hmem
  unfold operator
  split
  next heq => exact (hpair (by decide) heq).elim
  next heq => exact (hpair (by decide) heq).elim
  next heq => exact (hpair (by decide) heq).elim
  next heq => exact (hpair (by decide) heq).elim
  next heq => exact (hpair (by decide) heq).elim
  next heq =>
    cases heq
    rfl
  next heq => cases heq

theorem operator_again (h : operator cs = .found s) : Retakes operator cs s := by
  cases cs with
  | nil => cases h
  | cons c rest =>
    by_cases hpair : ∃ d, rest.head? = some d ∧ (c, d) ∈ operatorPairs
    · obtain ⟨d, hd, hmem⟩ := hpair
      obtain ⟨more, rfl⟩ := List.head?_eq_some_iff.mp hd
      rw [operator_pair hmem] at h
      cases h
      exact ⟨rfl, List.cons_ne_nil _ _, fun rest' _ => operator_pair hmem rest'⟩
    · simp only [not_exists, not_and] at hpair
      rw [operator_single hpair] at h
      cases h
      refine ⟨rfl, List.cons_ne_nil _ _, fun rest' hresumes => operator_single fun d hd hmem => ?_⟩
      have hinner : ∀ p ∈ operatorPairs, isInner p.2 = true := by decide +kernel
      exact hresumes.follows.head_ne (hinner _ hmem) (fun hhead => hpair d hhead hmem) hd

end ItemQuery.Sql
