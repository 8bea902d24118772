import Mathlib.Data.List.TakeWhile
import ItemQuery.Proofs.Sql.Scanning

/-! Texts without comments. In a tidy text every quote is closed, and outside of quotes no two characters start a
    comment. A token at the start of a tidy text is none, and what it leaves is tidy again; so no token of a tidy text
    is a comment. -/

namespace ItemQuery.Sql

variable {c : Char} {cs ds front : List Char}

/-- A character that starts neither a quote nor a comment. -/
def isInert (c : Char) : Bool :=
  !(['-', '/', '\'', '[', '"'].contains c)

inductive Tidy : List Char → Prop
  | nil : Tidy []
  | inert {c : Char} {cs : List Char} (hc : isInert c = true) (h : Tidy cs) : Tidy (c :: cs)
  | minus {cs : List Char} (hnext : cs.head? ≠ some '-') (h : Tidy cs) : Tidy ('-' :: cs)
  | slash {cs : List Char} (hnext : cs.head? ≠ some '*') (h : Tidy cs) : Tidy ('/' :: cs)
  | quoted {cs : List Char} (body : List Char) (hnext : cs.head? ≠ some '\'') (h : Tidy cs) :
    Tidy ('\'' :: (Text.doubled '\'' body ++ '\'' :: cs))
  | bracketed {cs : List Char} (body : List Char) (hnext : cs.head? ≠ some ']') (h : Tidy cs) :
    Tidy ('[' :: (Text.doubled ']' body ++ ']' :: cs))

/-! ### Joining -/

theorem tidy_append_of_inert (hfront : ∀ c ∈ front, isInert c = true) (h : Tidy cs) : Tidy (front ++ cs) := by
  induction front with
  | nil => exact h
  | cons c front ih =>
    rw [List.forall_mem_cons] at hfront
    exact .inert hfront.1 (ih hfront.2)

theorem tidy_of_inert (h : ∀ c ∈ cs, isInert c = true) : Tidy cs := by
  have hall := tidy_append_of_inert h .nil
  rwa [List.append_nil] at hall

/-- A text that neither ends a mark of a comment that came before it nor doubles a quote. -/
def isLoose : List Char → Bool
  | c :: _ => !(['-', '*', '\'', ']'].contains c)
  | [] => true

theorem Tidy.append (h : Tidy cs) (h' : Tidy ds) (hloose : isLoose ds = true) : Tidy (cs ++ ds) := by
  -- What follows a character is what followed it in the first text, or else the second text.
  have hnext : ∀ {cs : List Char} {d : Char}, (d = '-' ∨ d = '*' ∨ d = '\'' ∨ d = ']') → cs.head? ≠ some d →
      (cs ++ ds).head? ≠ some d := by
    intro cs d hd hcs
    cases cs with
    | nil =>
      intro hhead
      obtain ⟨rest, rfl⟩ := List.head?_eq_some_iff.mp hhead
      rcases hd with rfl | rfl | rfl | rfl <;> cases hloose
    | cons c cs => exact hcs
  induction h with
  | nil => exact h'
  | inert hc _ ih => exact .inert hc ih
  | minus hhead _ ih => exact .minus (hnext (by simp) hhead) ih
  | slash hhead _ ih => exact .slash (hnext (by simp) hhead) ih
  | quoted body hhead _ ih =>
    rw [List.cons_append, List.append_assoc, List.cons_append]
    exact .quoted body (hnext (by simp) hhead) ih
  | bracketed body hhead _ ih =>
    rw [List.cons_append, List.append_assoc, List.cons_append]
    exact .bracketed body (hnext (by simp) hhead) ih

theorem tidy_quoted (s : String) : Tidy (Text.quoted s).toList := by
  rw [Text.quoted, Text.toList_quotedBy]
  exact .quoted _ (by simp) .nil

/-! ### Taking apart -/

theorem Tidy.of_cons (h : Tidy (c :: cs)) (hquote : c ≠ '\'') (hbracket : c ≠ '[') : Tidy cs := by
  cases h with
  | inert _ h => exact h
  | minus _ h => exact h
  | slash _ h => exact h
  | quoted => exact absurd rfl hquote
  | bracketed => exact absurd rfl hbracket

theorem Tidy.of_append (h : Tidy (front ++ cs)) (hfront : ∀ c ∈ front, c ≠ '\'' ∧ c ≠ '[') : Tidy cs := by
  induction front with
  | nil => exact h
  | cons c front ih =>
    rw [List.forall_mem_cons] at hfront
    exact ih (h.of_cons hfront.1.1 hfront.1.2) hfront.2

theorem Tidy.of_quote (h : Tidy ('\'' :: cs)) :
    ∃ body rest, cs = Text.doubled '\'' body ++ '\'' :: rest ∧ rest.head? ≠ some '\'' ∧ Tidy rest := by
  cases h with
  | inert hc => cases hc
  | quoted body hnext h => exact ⟨body, _, rfl, hnext, h⟩

theorem Tidy.of_bracket (h : Tidy ('[' :: cs)) :
    ∃ body rest, cs = Text.doubled ']' body ++ ']' :: rest ∧ rest.head? ≠ some ']' ∧ Tidy rest := by
  cases h with
  | inert hc => cases hc
  | bracketed body hnext h => exact ⟨body, _, rfl, hnext, h⟩

theorem not_tidy_doubleQuote : ¬Tidy ('"' :: cs) := by
  intro h
  cases h with
  | inert hc => cases hc

/-! ### Recognizers -/

/-- What is left of a text, if anything was recognized in it. -/
def Leaves (cs : List Char) (scan : Scan) : Prop :=
  scan = .absent ∨ ∃ s, scan = .found s ∧ Tidy s.2 ∧ s.2.length < cs.length

theorem Tidy.comment (h : Tidy cs) : comment cs = .absent := by
  unfold Sql.comment
  split
  next rest =>
    cases h with
    | inert hc => cases hc
    | minus hnext => exact absurd rfl hnext
  next rest =>
    cases h with
    | inert hc => cases hc
    | slash hnext => exact absurd rfl hnext
  next => rfl

theorem Tidy.quotedTail (h : Tidy ('\'' :: cs)) (opening : List Char) :
    Leaves ('\'' :: cs) (.committed opening (quotedTail? '\'' cs)) := by
  obtain ⟨body, rest, rfl, hnext, hrest⟩ := h.of_quote
  rw [quotedTail?_doubled hnext]
  refine .inr ⟨_, rfl, hrest, ?_⟩
  simp only [Split.after, List.length_cons, List.length_append]
  omega

theorem Leaves.cons {scan : Scan} (h : Leaves cs scan) (c : Char) : Leaves (c :: cs) scan := by
  refine h.imp_right fun ⟨s, hs, htidy, hlength⟩ => ⟨s, hs, htidy, ?_⟩
  rw [List.length_cons]
  omega

theorem Tidy.stringLiteral (h : Tidy cs) : Leaves cs (stringLiteral cs) := by
  unfold Sql.stringLiteral
  split
  next rest => exact h.quotedTail _
  next c rest _ =>
    split
    next hletter =>
      have hrest : Tidy ('\'' :: rest) := h.of_cons (by rintro rfl; simp at hletter) (by rintro rfl; simp at hletter)
      exact (hrest.quotedTail _).cons c
    next => exact .inl rfl
  next => exact .inl rfl

theorem spanWhile_eq_append (p : Char → Bool) (cs : List Char) : (spanWhile p cs).1 ++ (spanWhile p cs).2 = cs :=
  List.takeWhile_append_dropWhile

theorem mem_spanWhile {p : Char → Bool} (hc : c ∈ (spanWhile p cs).1) : p c = true :=
  List.mem_takeWhile_imp hc

theorem ne_quote_of_isDigit (h : c.isDigit = true) : c ≠ '\'' ∧ c ≠ '[' := by
  constructor <;> rintro rfl <;> cases h

theorem continuesWord_ne_quote (h : continuesWord c = true) : c ≠ '\'' ∧ c ≠ '[' := by
  constructor <;> rintro rfl <;> exact absurd h (by decide)

theorem startsWord_ne_quote (h : startsWord c = true) : c ≠ '\'' ∧ c ≠ '[' := by
  constructor <;> rintro rfl <;> exact absurd h (by decide)

/-- A number holds no quotes. -/
theorem exists_of_mantissa? {s : Split} (h : mantissa? cs = some s) :
    s.1 ≠ [] ∧ s.1 ++ s.2 = cs ∧ ∀ c ∈ s.1, c ≠ '\'' ∧ c ≠ '[' := by
  have hdigits : ∀ cs, ∀ c ∈ (spanWhile Char.isDigit cs).1, c ≠ '\'' ∧ c ≠ '[' :=
    fun cs c hc => ne_quote_of_isDigit (mem_spanWhile hc)
  have hpoint : ∀ c ∈ ['.'], c ≠ '\'' ∧ c ≠ '[' := by decide
  have hwhole := spanWhile_eq_append Char.isDigit cs
  simp only [mantissa?] at h
  split at h
  next rest hnil heq =>
    split at h
    next => cases h
    next hfull =>
      cases h
      rw [hnil, heq, List.nil_append] at hwhole
      refine ⟨List.cons_ne_nil _ _, ?_, List.forall_mem_append.mpr ⟨hpoint, hdigits rest⟩⟩
      simp only [Split.after, List.append_assoc, spanWhile_eq_append, ← hwhole]
      rfl
  next => cases h
  next rest heq hne =>
    cases h
    rw [heq] at hwhole
    refine ⟨?_, ?_, ?_⟩
    · simp [Split.after]
    · simp only [Split.after, List.append_assoc, spanWhile_eq_append]
      exact hwhole
    · exact List.forall_mem_append.mpr ⟨List.forall_mem_append.mpr ⟨hdigits cs, hpoint⟩, hdigits rest⟩
  next hne _ _ =>
    cases h
    exact ⟨hne, hwhole, hdigits cs⟩

theorem exponent_eq_append (cs : List Char) :
    (exponent cs).1 ++ (exponent cs).2 = cs ∧ ∀ c ∈ (exponent cs).1, c ≠ '\'' ∧ c ≠ '[' := by
  cases cs with
  | nil => exact ⟨rfl, List.forall_mem_nil _⟩
  | cons c cs =>
    have hsign : ∀ sign : List Char, sign ++ (cs.drop sign.length) = cs → (∀ c ∈ sign, c ≠ '\'' ∧ c ≠ '[') →
        let digits := spanWhile Char.isDigit (cs.drop sign.length)
        let s := if (c = 'e' ∨ c = 'E') ∧ !digits.1.isEmpty then digits.after (c :: sign) else ([], c :: cs)
        s.1 ++ s.2 = c :: cs ∧ ∀ d ∈ s.1, d ≠ '\'' ∧ d ≠ '[' := by
      intro sign hcs hquotes digits s
      by_cases hexponent : (c = 'e' ∨ c = 'E') ∧ !digits.1.isEmpty
      · have hs : s = digits.after (c :: sign) := if_pos hexponent
        have hc : c ≠ '\'' ∧ c ≠ '[' := by rcases hexponent.1 with rfl | rfl <;> decide
        rw [hs]
        refine ⟨?_, ?_⟩
        · simp only [Split.after, List.append_assoc, List.cons_append, digits, spanWhile_eq_append, hcs]
        · exact List.forall_mem_append.mpr ⟨List.forall_mem_cons.mpr ⟨hc, hquotes⟩,
            fun d hd => ne_quote_of_isDigit (mem_spanWhile hd)⟩
      · have hs : s = ([], c :: cs) := if_neg hexponent
        rw [hs]
        exact ⟨rfl, by simp⟩
    unfold exponent
    simp only [List.drop_succ_cons, List.drop_zero, Nat.add_comm 1]
    split
    next rest => exact hsign ['+'] rfl (by decide)
    next rest => exact hsign ['-'] rfl (by decide)
    next => exact hsign [] rfl (by simp)

theorem Tidy.number (h : Tidy cs) : Leaves cs (.ofOption (number? cs)) := by
  cases hmantissa : mantissa? cs with
  | none =>
    rw [number?, hmantissa]
    exact .inl rfl
  | some m =>
    obtain ⟨hne, hm, hquotes⟩ := exists_of_mantissa? hmantissa
    obtain ⟨hexponent, hquotes'⟩ := exponent_eq_append m.2
    have hcs : (m.1 ++ (exponent m.2).1) ++ (exponent m.2).2 = cs := by rw [List.append_assoc, hexponent, hm]
    rw [number?, hmantissa]
    refine .inr ⟨_, rfl, (hcs ▸ h).of_append (List.forall_mem_append.mpr ⟨hquotes, hquotes'⟩), ?_⟩
    have hlength := congrArg List.length hcs
    have hpos := List.length_pos_iff.mpr hne
    simp only [List.length_append, Split.after] at hlength ⊢
    omega

theorem Tidy.word (h : Tidy cs) : Leaves cs (.ofOption (word? cs)) := by
  simp only [word?]
  split
  next => exact .inl rfl
  next hfull =>
    have hfirst := spanWhile_eq_append startsWord cs
    have hmore := spanWhile_eq_append continuesWord (spanWhile startsWord cs).2
    have hcs : ((spanWhile startsWord cs).1 ++ (spanWhile continuesWord (spanWhile startsWord cs).2).1) ++
        (spanWhile continuesWord (spanWhile startsWord cs).2).2 = cs := by rw [List.append_assoc, hmore, hfirst]
    have hquotes : ∀ c ∈ (spanWhile startsWord cs).1 ++ (spanWhile continuesWord (spanWhile startsWord cs).2).1,
        c ≠ '\'' ∧ c ≠ '[' :=
      List.forall_mem_append.mpr ⟨fun c hc => startsWord_ne_quote (mem_spanWhile hc),
        fun c hc => continuesWord_ne_quote (mem_spanWhile hc)⟩
    refine .inr ⟨_, rfl, (hcs ▸ h).of_append hquotes, ?_⟩
    have hlength := congrArg List.length hcs
    have hpos := List.length_pos_iff.mpr fun hnil => hfull (List.isEmpty_iff.mpr hnil)
    simp only [List.length_append, Split.after] at hlength ⊢
    omega

theorem Tidy.segment (h : Tidy cs) : Leaves cs (segment cs) := by
  unfold Sql.segment
  split
  next rest =>
    obtain ⟨body, after, rfl, hnext, hafter⟩ := h.of_bracket
    rw [quotedTail?_doubled hnext]
    refine .inr ⟨_, rfl, hafter, ?_⟩
    simp only [Split.after, List.length_cons, List.length_append]
    omega
  next rest => exact absurd h not_tidy_doubleQuote
  next => exact h.word

theorem Tidy.moreSegments (fuel : Nat) (h : Tidy cs) :
    ∃ s, moreSegments fuel cs = .found s ∧ Tidy s.2 ∧ s.2.length ≤ cs.length := by
  induction fuel generalizing cs with
  | zero => exact ⟨_, rfl, h, Nat.le_refl _⟩
  | succ fuel ih =>
    unfold Sql.moreSegments
    split
    next rest =>
      have hrest : Tidy rest := h.of_cons (by decide) (by decide)
      rcases hrest.segment with hsegment | ⟨s, hsegment, htidy, hlength⟩
      · rw [hsegment]
        exact ⟨_, rfl, h, Nat.le_refl _⟩
      · obtain ⟨more, hmore, hmoreTidy, hmoreLength⟩ := ih htidy
        simp only [hsegment, hmore]
        refine ⟨_, rfl, hmoreTidy, ?_⟩
        simp only [Split.after, List.length_cons]
        omega
    next => exact ⟨_, rfl, h, Nat.le_refl _⟩

theorem Tidy.identifier (h : Tidy cs) : Leaves cs (identifier cs) := by
  unfold Sql.identifier
  rcases h.segment with hsegment | ⟨s, hsegment, htidy, hlength⟩
  · rw [hsegment]
    exact .inl rfl
  · obtain ⟨more, hmore, hmoreTidy, hmoreLength⟩ := htidy.moreSegments s.2.length
    simp only [hsegment, hmore]
    exact .inr ⟨_, rfl, hmoreTidy, Nat.lt_of_le_of_lt hmoreLength hlength⟩

theorem committed_ne_absent (front : List Char) (s : Option Split) : Scan.committed front s ≠ .absent := by
  cases s <;> exact nofun

theorem Tidy.identifier_bracket (h : Tidy ('[' :: cs)) : Sql.identifier ('[' :: cs) ≠ .absent := by
  have hsegment : Sql.segment ('[' :: cs) = .committed ['['] (quotedTail? ']' cs) := rfl
  rcases h.segment with habsent | ⟨s, hfound, htidy, -⟩
  · exact absurd (hsegment.symm.trans habsent) (committed_ne_absent _ _)
  · obtain ⟨more, hmore, -⟩ := htidy.moreSegments s.2.length
    simp [Sql.identifier, hfound, hmore]

theorem Tidy.operator (h : Tidy (c :: cs)) (hquote : c ≠ '\'') (hbracket : c ≠ '[') :
    ∃ s, operator (c :: cs) = .found s ∧ Tidy s.2 ∧ s.2.length < (c :: cs).length := by
  have hrest := h.of_cons hquote hbracket
  have hpair : ∀ {d rest}, cs = d :: rest → d ≠ '\'' → d ≠ '[' → ∀ shown, ∃ s, Scan.found (shown, rest) = .found s ∧
      Tidy s.2 ∧ s.2.length < (c :: cs).length := by
    rintro d rest rfl hd hd' shown
    refine ⟨_, rfl, hrest.of_cons hd hd', ?_⟩
    simp only [List.length_cons]
    omega
  unfold Sql.operator
  split
  next heq =>
    cases heq
    exact hpair rfl (by decide) (by decide) _
  next heq =>
    cases heq
    exact hpair rfl (by decide) (by decide) _
  next heq =>
    cases heq
    exact hpair rfl (by decide) (by decide) _
  next heq =>
    cases heq
    exact hpair rfl (by decide) (by decide) _
  next heq =>
    cases heq
    exact hpair rfl (by decide) (by decide) _
  next heq =>
    cases heq
    exact ⟨_, rfl, hrest, Nat.lt_succ_self _⟩
  next heq => cases heq

/-! ### Tokens -/

theorem nameKind_ne_comment (shown : List Char) : nameKind shown ≠ .comment := by
  unfold nameKind
  cases Keyword.ofWord? (String.ofList shown) <;> exact nofun

/-- A token at the start of a tidy text is no comment. -/
theorem Tidy.scanToken? (h : Tidy (c :: cs)) : ∃ kind shown rest, scanToken? (c :: cs) = some (kind, shown, rest) ∧
    kind ≠ .comment ∧ Tidy rest ∧ rest.length ≤ cs.length := by
  simp only [Sql.scanToken?, firstOf, h.comment]
  rcases h.stringLiteral with hstring | ⟨s, hstring, htidy, hlength⟩
  · rcases h.number with hnumber | ⟨s, hnumber, htidy, hlength⟩
    · rcases h.identifier with hname | ⟨s, hname, htidy, hlength⟩
      · have hquote : c ≠ '\'' := by
          rintro rfl
          exact committed_ne_absent _ _ hstring
        have hbracket : c ≠ '[' := by
          rintro rfl
          exact h.identifier_bracket hname
        obtain ⟨s, hs, htidy, hlength⟩ := h.operator hquote hbracket
        simp only [hstring, hnumber, hname, hs]
        exact ⟨_, _, _, rfl, by simp, htidy, Nat.le_of_lt_succ hlength⟩
      · simp only [hstring, hnumber, hname]
        exact ⟨_, _, _, rfl, nameKind_ne_comment _, htidy, Nat.le_of_lt_succ hlength⟩
    · simp only [hstring, hnumber]
      exact ⟨_, _, _, rfl, by simp, htidy, Nat.le_of_lt_succ hlength⟩
  · simp only [hstring]
    exact ⟨_, _, _, rfl, by simp, htidy, Nat.le_of_lt_succ hlength⟩

theorem Tidy.scanned {cs : List Char} (h : Tidy cs) : ∃ ps, Scanned cs ps ∧ Phrase.comment ∉ ps := by
  match cs, h with
  | [], _ => exact ⟨[], .nil, nofun⟩
  | c :: cs, h =>
    cases hc : Text.isBlank c with
    | true =>
      have hrest : Tidy cs := h.of_cons (by rintro rfl; cases hc) (by rintro rfl; cases hc)
      obtain ⟨ps, hps, hcomment⟩ := hrest.scanned
      exact ⟨ps, .blank hc hps, hcomment⟩
    | false =>
      obtain ⟨kind, shown, rest, hscan, hkind, hrest, hlength⟩ := h.scanToken?
      obtain ⟨ps, hps, hcomment⟩ := hrest.scanned
      refine ⟨_, .phrase hc hscan hlength hps, ?_⟩
      rw [List.mem_cons, not_or]
      refine ⟨?_, hcomment⟩
      cases kind with
      | comment => exact absurd rfl hkind
      | _ => exact nofun
termination_by cs.length
decreasing_by all_goals simp only [List.length_cons]; omega

/-! ### Words that are joined -/

/-- Tokens that are no comments. -/
def Uncommented (ts : List Token) : Prop :=
  ∀ t ∈ ts, t.kind ≠ .comment

theorem Uncommented.joinLast? {source : List Char} {word : Keyword} {token : Token} {ts ts' : List Token}
    (h : Uncommented ts) (hjoin : joinLast? source word token ts = some ts') : Uncommented ts' := by
  cases ts with
  | nil => cases hjoin
  | cons last before =>
    rw [Uncommented, List.forall_mem_cons] at h
    unfold Sql.joinLast? at hjoin
    split at hjoin
    next hkind => exact absurd hkind h.1
    next other hkind =>
      obtain ⟨joined, -, rfl⟩ := Option.map_eq_some_iff.mp hjoin
      exact List.forall_mem_cons.mpr ⟨nofun, h.2⟩
    next => cases hjoin

theorem Uncommented.push {source : List Char} {s : Joining} {token : Token} (h : Uncommented s.done)
    (htoken : token.kind ≠ .comment) : Uncommented (s.push source token).done := by
  have hcons : Uncommented (token :: s.done) := List.forall_mem_cons.mpr ⟨htoken, h⟩
  unfold Joining.push
  split
  next =>
    split
    · exact hcons
    · split <;> exact hcons
  next word hkind =>
    cases hjoin : Sql.joinLast? source word token s.done with
    | some done => exact h.joinLast? hjoin
    | none =>
      generalize (if word = .between then s.depth :: s.pending else s.pending) = pending
      dsimp only
      by_cases hand : word = .and ∧ pending.head? = some s.depth
      · rw [if_pos hand]
        exact List.forall_mem_cons.mpr ⟨nofun, h⟩
      · rw [if_neg hand]
        exact hcons
  next => exact hcons

/-- A tidy text is split into tokens, none of which is a comment. -/
theorem Tidy.tokenize {sql : String} (h : Tidy sql.toList) :
    ∃ ts, tokenize sql = .ok ts ∧ ∀ t ∈ ts, t.isComment = false := by
  obtain ⟨ps, hscanned, hcomment⟩ := h.scanned
  obtain ⟨tokens, htokens, rfl⟩ := hscanned.scanAll 0 (Nat.lt_succ_self _)
  have hscan : Uncommented tokens := by
    intro t ht hkind
    exact hcomment (List.mem_map.mpr ⟨t, ht, by rw [Token.phrase, hkind, Phrase.of]⟩)
  have hrun : ∀ {tokens : List Token} {s : Joining}, Uncommented tokens → Uncommented s.done →
      Uncommented (tokens.foldl (Joining.push sql.toList) s).done := by
    intro tokens
    induction tokens with
    | nil => exact fun _ hs => hs
    | cons t tokens ih =>
      intro s htokens hs
      have hall := List.forall_mem_cons.mp htokens
      exact ih hall.2 (hs.push hall.1)
  refine ⟨_, by rw [Sql.tokenize, htokens]; rfl, fun t ht => ?_⟩
  have hkind := hrun hscan (s := {}) (List.forall_mem_nil _) t (List.mem_reverse.mp ht)
  simpa [Token.isComment] using hkind

end ItemQuery.Sql
