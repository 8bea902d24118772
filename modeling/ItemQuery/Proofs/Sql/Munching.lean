import ItemQuery.Proofs.Sql.Recognizers

/-! Maximal munch. A token is found again in front of any text that lets it end, so what it is does not depend on what
    followed it. Blanks and closing marks let every token end. -/

namespace ItemQuery.Sql

variable {c : Char} {cs rest rest' shown : List Char} {s : Split} {kind : TokenKind}

/-! ### Comments -/

/-- A text is cut at its first mark, whatever follows the mark. -/
theorem cut?_again {mark front rest : List Char} (hmark : mark ≠ []) (h : Text.cut? mark cs = some (front, rest)) :
    cs = front ++ (mark ++ rest) ∧ Text.cut? mark front = none ∧
      ∀ rest', Text.cut? mark (front ++ (mark ++ rest')) = some (front, rest') := by
  induction cs generalizing front with
  | nil => simp [Text.cut?, hmark] at h
  | cons c cs ih =>
    rw [Text.cut?] at h
    split at h
    next hprefix =>
      cases h
      obtain ⟨more, hmore⟩ := List.isPrefixOf_iff_prefix.mp hprefix
      refine ⟨?_, by simp [Text.cut?, hmark], fun rest' => ?_⟩
      · rw [← hmore, List.drop_left]
        rfl
      · obtain ⟨d, mark, rfl⟩ := List.exists_cons_of_ne_nil hmark
        have hprefix' : (d :: mark).isPrefixOf (d :: mark ++ rest') = true :=
          List.isPrefixOf_iff_prefix.mpr (List.prefix_append _ _)
        rw [List.nil_append, List.cons_append, Text.cut?, ← List.cons_append, if_pos hprefix', List.drop_left]
    next hprefix =>
      rw [Option.map_eq_some_iff] at h
      obtain ⟨⟨front', rest'⟩, hcut, heq⟩ := h
      cases heq
      obtain ⟨rfl, hnone, hagain⟩ := ih hcut
      -- Whether the mark stands here is seen in as many characters as it has, and these stay.
      have hstays : ∀ more, mark.isPrefixOf (c :: (front' ++ (mark ++ more))) = false := by
        intro more
        rw [Bool.eq_false_iff]
        intro hpre
        refine hprefix (List.isPrefixOf_iff_prefix.mpr ?_)
        have hshort : mark.length ≤ (c :: (front' ++ mark)).length := by
          simp only [List.length_cons, List.length_append]
          omega
        have hpre' := List.isPrefixOf_iff_prefix.mp hpre
        rw [← List.append_assoc, ← List.cons_append] at hpre' ⊢
        exact (List.prefix_of_prefix_length_le hpre' (List.prefix_append _ _) hshort).trans (List.prefix_append _ _)
      refine ⟨rfl, ?_, fun more => ?_⟩
      · rw [Text.cut?, if_neg, hnone, Option.map_none]
        intro hpre
        refine Bool.false_ne_true ((hstays []).symm.trans (List.isPrefixOf_iff_prefix.mpr ?_))
        exact (List.isPrefixOf_iff_prefix.mp hpre).trans (List.prefix_append (c :: front') _)
      · simp only [List.cons_append, Text.cut?, hstays more, Bool.false_eq_true, if_false, hagain more, Option.map_some]

/-- The end mark of a comment, put behind a text without one, ends the comment. -/
theorem cut?_closed {body : List Char} (h : Text.cut? ['*', '/'] body = none) (rest : List Char) :
    Text.cut? ['*', '/'] (body ++ '*' :: '/' :: rest) = some (body, rest) := by
  induction body with
  | nil => simp [Text.cut?]
  | cons c body ih =>
    rw [Text.cut?] at h
    split at h
    next => cases h
    next hprefix =>
      rw [Option.map_eq_none_iff] at h
      rw [List.cons_append, Text.cut?, if_neg, ih h]
      · rfl
      · intro hpre
        refine hprefix ?_
        cases body with
        | nil => simp at hpre
        | cons d body => simpa using hpre

/-- The end of a line, or of the text. -/
def EndsLine (rest : List Char) : Prop :=
  rest = [] ∨ (∃ more, rest = '\n' :: more) ∨ ∃ more, rest = '\r' :: '\n' :: more

theorem lineComment?_of {body : List Char} (hbody : ∀ c ∈ body, c ≠ '\r' ∧ c ≠ '\n') (hrest : EndsLine rest) :
    lineComment? (body ++ rest) = some (body, rest) := by
  have hspan : spanWhile (fun c => c != '\r' && c != '\n') (body ++ rest) = (body, rest) := by
    refine spanWhile_append (fun c hc => ?_) fun c hc => ?_
    · simpa using hbody c hc
    · rcases hrest with rfl | ⟨more, rfl⟩ | ⟨more, rfl⟩ <;> cases hc <;> rfl
  simp only [lineComment?, hspan]
  rcases hrest with rfl | ⟨more, rfl⟩ | ⟨more, rfl⟩ <;> rfl

/-- A comment: in its marks without an end mark inside, or up to the end of its line. -/
inductive Remark : Split → Prop
  | block {body rest : List Char} (hbody : Text.cut? ['*', '/'] body = none) :
    Remark ('/' :: '*' :: (body ++ ['*', '/']), rest)
  | line {body rest : List Char} (hbody : ∀ c ∈ body, c ≠ '\r' ∧ c ≠ '\n') (hrest : EndsLine rest) :
    Remark ('-' :: '-' :: body, rest)

theorem comment_of_remark (h : Remark s) : comment (s.1 ++ s.2) = .found s := by
  cases h with
  | @block body rest hbody =>
    have hcut := cut?_closed hbody rest
    simp only [List.cons_append, List.append_assoc, List.nil_append, comment, blockComment?, hcut]
    rfl
  | line hbody hrest =>
    simp only [List.cons_append, comment, lineComment?_of hbody hrest]
    rfl

theorem remark_of_comment (h : comment cs = .found s) : Remark s ∧ s.1 ++ s.2 = cs := by
  unfold comment at h
  split at h
  next rest =>
    have happend := spanWhile_eq_append (fun c => c != '\r' && c != '\n') rest
    have hbody : ∀ c ∈ (spanWhile (fun c => c != '\r' && c != '\n') rest).1, c ≠ '\r' ∧ c ≠ '\n' := by
      intro c hc
      simpa using mem_spanWhile hc
    have hhead := spanWhile_head? (fun c => c != '\r' && c != '\n') rest
    cases hline : lineComment? rest with
    | none =>
      rw [hline] at h
      cases h
    | some t =>
      rw [hline] at h
      cases h
      simp only [lineComment?] at hline
      generalize spanWhile (fun c => c != '\r' && c != '\n') rest = body at hline happend hbody hhead
      obtain ⟨body, rest'⟩ := body
      split at hline
      next more heq =>
        cases hline
        exact ⟨.line hbody (.inr (.inr ⟨more, heq⟩)), congrArg ('-' :: '-' :: ·) happend⟩
      next => cases hline
      next hreturn =>
        cases hline
        refine ⟨.line hbody ?_, congrArg ('-' :: '-' :: ·) happend⟩
        cases rest' with
        | nil => exact .inl rfl
        | cons c more =>
          have hc := hhead c rfl
          simp only [Bool.and_eq_false_iff, bne_eq_false_iff_eq] at hc
          rcases hc with rfl | rfl
          · exact absurd rfl (hreturn more)
          · exact .inr (.inl ⟨more, rfl⟩)
  next rest =>
    cases hblock : blockComment? rest with
    | none =>
      rw [hblock] at h
      cases h
    | some t =>
      rw [hblock] at h
      cases h
      rw [blockComment?, Option.map_eq_some_iff] at hblock
      obtain ⟨⟨body, rest'⟩, hcut, rfl⟩ := hblock
      obtain ⟨rfl, hbody, -⟩ := cut?_again (by decide) hcut
      refine ⟨.block hbody, ?_⟩
      simp [Split.after]
  next => cases h

/-! ### Tokens -/

theorem scanToken?_comment (h : comment cs = .found s) : scanToken? cs = some (.comment, s) := by
  simp only [scanToken?, firstOf, h]

theorem Scan.ofOption_eq_absent {o : Option Split} : Scan.ofOption o = .absent ↔ o = none := by
  cases o <;> simp [Scan.ofOption]

theorem Scan.ofOption_eq_found {o : Option Split} : Scan.ofOption o = .found s ↔ o = some s := by
  cases o <;> simp [Scan.ofOption]

/-- The recognizer that a token comes from, and those that did not apply. -/
theorem scanToken?_cases (h : scanToken? cs = some (kind, s)) :
    comment cs = .found s ∧ kind = .comment ∨ comment cs = .absent ∧
      (stringLiteral cs = .found s ∧ kind = .string ∨ stringLiteral cs = .absent ∧
        (number? cs = some s ∧ kind = .number ∨ number? cs = none ∧
          (identifier cs = .found s ∧ kind = nameKind s.1 ∨ identifier cs = .absent ∧
            operator cs = .found s ∧ kind = .operator))) := by
  simp only [scanToken?, firstOf] at h
  cases hcomment : comment cs with
  | unclosed => simp [hcomment] at h
  | found t => simp_all
  | absent =>
    rw [hcomment] at h
    refine .inr ⟨rfl, ?_⟩
    cases hstring : stringLiteral cs with
    | unclosed => simp [hstring] at h
    | found t => simp_all
    | absent =>
      rw [hstring] at h
      refine .inr ⟨rfl, ?_⟩
      cases hnumber : number? cs with
      | some t => simp_all [Scan.ofOption]
      | none =>
        rw [hnumber] at h
        refine .inr ⟨rfl, ?_⟩
        cases hname : identifier cs with
        | unclosed => simp [hname, Scan.ofOption] at h
        | found t =>
          simp only [hname, Scan.ofOption, Option.some.injEq, Prod.mk.injEq] at h
          obtain ⟨rfl, rfl⟩ := h
          exact .inl ⟨rfl, rfl⟩
        | absent =>
          rw [hname] at h
          cases hoperator : operator cs <;> simp_all [Scan.ofOption]

theorem comment_of_scanToken? (h : scanToken? cs = some (.comment, s)) : comment cs = .found s := by
  rcases scanToken?_cases h with ⟨hfound, -⟩ | ⟨-, ⟨-, hkind⟩ | ⟨-, ⟨-, hkind⟩ | ⟨-, ⟨-, hkind⟩ | ⟨-, -, hkind⟩⟩⟩⟩
  · exact hfound
  · cases hkind
  · cases hkind
  · exact absurd hkind.symm (nameKind_ne_comment _)
  · cases hkind

/-! What a recognizer needs to apply is seen in the first characters. -/

theorem comment_eq_absent_iff : comment (c :: cs) = .absent ↔
    (c = '-' → ∀ more, cs = '-' :: more → lineComment? more = none) ∧ (c = '/' → cs.head? ≠ some '*') := by
  constructor
  · refine fun h => ⟨?_, ?_⟩
    · rintro rfl more rfl
      cases hline : lineComment? more with
      | none => rfl
      | some s => simp [comment, hline, Scan.ofOption] at h
    · rintro rfl hhead
      obtain ⟨more, rfl⟩ := List.head?_eq_some_iff.mp hhead
      exact committed_ne_absent _ _ h
  · rintro ⟨hdash, hslash⟩
    unfold comment
    split
    next heq =>
      cases heq
      rw [hdash rfl _ rfl]
      rfl
    next heq =>
      cases heq
      exact absurd rfl (hslash rfl)
    next => rfl

theorem stringLiteral_eq_absent_iff : stringLiteral (c :: cs) = .absent ↔
    c ≠ '\'' ∧ (cs.head? = some '\'' → ¬(c = 'N' ∨ c = 'n')) := by
  refine ⟨fun h => ⟨?_, fun hcs hc => ?_⟩, fun h => stringLiteral_eq_absent h.1 h.2⟩
  · rintro rfl
    exact committed_ne_absent _ _ h
  · obtain ⟨more, rfl⟩ := List.head?_eq_some_iff.mp hcs
    rw [stringLiteral_letter hc] at h
    exact committed_ne_absent _ _ h

theorem number?_eq_none_iff : number? (c :: cs) = none ↔
    c.isDigit = false ∧ (c = '.' → ∀ d, cs.head? = some d → d.isDigit = false) := by
  have hdigits : (spanWhile Char.isDigit cs).1 = [] ↔ ∀ d, cs.head? = some d → d.isDigit = false := by
    cases cs with
    | nil => simp [spanWhile]
    | cons d cs => cases hd : d.isDigit <;> simp [spanWhile, hd]
  cases hc : c.isDigit with
  | true =>
    refine ⟨fun h => ?_, fun h => absurd h.1 (by decide)⟩
    simp only [number?, Option.map_eq_none_iff, mantissa?, spanWhile, List.takeWhile_cons, hc, if_true] at h
    split at h <;> simp_all
  | false =>
    by_cases hpoint : c = '.'
    · subst hpoint
      simp only [number?, Option.map_eq_none_iff, mantissa?_fraction, List.isEmpty_iff, hdigits]
      simp
    · exact ⟨fun _ => ⟨rfl, fun h => absurd h hpoint⟩, fun _ => number?_eq_none hc hpoint cs⟩

theorem moreSegments_ne_absent (fuel : Nat) (cs : List Char) : moreSegments fuel cs ≠ .absent := by
  induction fuel generalizing cs with
  | zero => nofun
  | succ fuel ih =>
    unfold moreSegments
    split
    next rest =>
      cases segment rest with
      | absent => nofun
      | unclosed => nofun
      | found s =>
        have := ih s.2
        cases hmore : moreSegments fuel s.2 <;> simp_all
    next => nofun

theorem segment_eq_absent_iff : segment (c :: cs) = .absent ↔ startsWord c = false ∧ c ≠ '[' ∧ c ≠ '"' := by
  by_cases hbracket : c = '['
  · subst hbracket
    exact ⟨fun h => absurd h (committed_ne_absent _ _), fun h => absurd rfl h.2.1⟩
  · by_cases hquote : c = '"'
    · subst hquote
      exact ⟨fun h => absurd h (committed_ne_absent _ _), fun h => absurd rfl h.2.2⟩
    · rw [segment_of_head? (by simpa using hbracket) (by simpa using hquote)]
      cases hc : startsWord c <;> simp [word?, spanWhile, hc, Scan.ofOption, hbracket, hquote]

theorem identifier_eq_absent_iff : identifier (c :: cs) = .absent ↔ startsWord c = false ∧ c ≠ '[' ∧ c ≠ '"' := by
  rw [← @segment_eq_absent_iff c cs, identifier]
  cases segment (c :: cs) with
  | absent => rfl
  | unclosed => simp
  | found s =>
    have := moreSegments_ne_absent s.2.length s.2
    cases hmore : moreSegments s.2.length s.2 <;> simp_all

theorem operator_dash (cs : List Char) : operator ('-' :: cs) = .found (['-'], cs) :=
  operator_single fun _ _ => by simp [operatorPairs]

/-- Where a recognizer did not apply, it does not apply when something else follows the token. -/
structure StaysAbsent (cs cs' : List Char) : Prop where
  string : stringLiteral cs = .absent → stringLiteral cs' = .absent
  number : number? cs = none → number? cs' = none
  name : identifier cs = .absent → identifier cs' = .absent

theorem staysAbsent_of_follows (h : Follows cs rest') (c : Char) : StaysAbsent (c :: cs) (c :: rest') where
  string hcs := by
    rw [stringLiteral_eq_absent_iff] at hcs ⊢
    refine ⟨hcs.1, fun hhead => hcs.2 ?_⟩
    by_contra hne
    exact h.head_ne rfl hne hhead
  number hcs := by
    rw [number?_eq_none_iff] at hcs ⊢
    exact ⟨hcs.1, fun hpoint => h.head (fun _ => isInner_of_isDigit) (hcs.2 hpoint)⟩
  name hcs := by
    rw [identifier_eq_absent_iff] at hcs ⊢
    exact hcs

theorem absent_of_resumes (happend : s.1 ++ s.2 = cs) (hne : s.1 ≠ []) (hdash : cs.head? = some '-' → s.1 = ['-'])
    (hcomment : comment cs = .absent) (h : Resumes s.2 rest') :
    comment (s.1 ++ rest') = .absent ∧ StaysAbsent cs (s.1 ++ rest') := by
  obtain ⟨shown, rest⟩ := s
  obtain ⟨c, shown, rfl⟩ := List.exists_cons_of_ne_nil hne
  subst happend
  have hfollows : Follows (shown ++ rest) (shown ++ rest') := h.follows.append shown
  rw [List.cons_append] at hcomment ⊢
  refine ⟨?_, staysAbsent_of_follows hfollows c⟩
  rw [comment_eq_absent_iff] at hcomment ⊢
  refine ⟨?_, fun hslash => hfollows.head_ne rfl (hcomment.2 hslash)⟩
  rintro rfl more hmore
  cases hdash rfl
  obtain ⟨more', hmore', himp⟩ := h.dash more hmore
  exact himp (hcomment.1 rfl more' hmore')

/-- A token is found again in front of any text that lets it end, unless it is a comment. -/
theorem scanToken?_again (h : scanToken? cs = some (kind, s)) (hkind : kind ≠ .comment) :
    s.1 ++ s.2 = cs ∧ s.1 ≠ [] ∧ ∀ rest', Resumes s.2 rest' → scanToken? (s.1 ++ rest') = some (kind, s.1, rest') := by
  have hdash : ∀ (scan : List Char → Scan), scan cs = .found s → (∀ more, scan ('-' :: more) = .absent) →
      cs.head? = some '-' → s.1 = ['-'] := by
    intro scan hfound habsent hhead
    obtain ⟨more, rfl⟩ := List.head?_eq_some_iff.mp hhead
    rw [habsent] at hfound
    cases hfound
  rcases scanToken?_cases h with ⟨-, rfl⟩ | ⟨hcomment, ⟨hstring, rfl⟩ | ⟨hstring, ⟨hnumber, rfl⟩ | ⟨hnumber, hname⟩⟩⟩
  · exact absurd rfl hkind
  · obtain ⟨happend, hne, hagain⟩ := stringLiteral_again hstring
    refine ⟨happend, hne, fun rest' hresumes => ?_⟩
    have hminus := hdash _ hstring fun more => stringLiteral_eq_absent_iff.mpr (by simp)
    obtain ⟨hcomment', -⟩ := absent_of_resumes happend hne hminus hcomment hresumes
    simp only [scanToken?, firstOf, hcomment', hagain rest' hresumes]
  · obtain ⟨happend, hne, hagain⟩ := number?_again hnumber
    refine ⟨happend, hne, fun rest' hresumes => ?_⟩
    have hminus := hdash (fun cs => .ofOption (number? cs)) (Scan.ofOption_eq_found.mpr hnumber) fun more =>
      Scan.ofOption_eq_absent.mpr (number?_eq_none_iff.mpr (by simp))
    obtain ⟨hcomment', habsent⟩ := absent_of_resumes happend hne hminus hcomment hresumes
    simp only [scanToken?, firstOf, hcomment', habsent.string hstring, hagain rest' hresumes]
  · rcases hname with ⟨hname, rfl⟩ | ⟨hname, hoperator, rfl⟩
    · obtain ⟨happend, hne, hagain⟩ := identifier_again hname
      refine ⟨happend, hne, fun rest' hresumes => ?_⟩
      have hminus := hdash _ hname fun more => identifier_eq_absent_iff.mpr (by decide)
      obtain ⟨hcomment', habsent⟩ := absent_of_resumes happend hne hminus hcomment hresumes
      simp only [scanToken?, firstOf, hcomment', habsent.string hstring, habsent.number hnumber, Scan.ofOption,
        hagain rest' hresumes]
    · obtain ⟨happend, hne, hagain⟩ := operator_again hoperator
      refine ⟨happend, hne, fun rest' hresumes => ?_⟩
      have hminus : cs.head? = some '-' → s.1 = ['-'] := by
        intro hhead
        obtain ⟨more, rfl⟩ := List.head?_eq_some_iff.mp hhead
        rw [operator_dash] at hoperator
        cases hoperator
        rfl
      obtain ⟨hcomment', habsent⟩ := absent_of_resumes happend hne hminus hcomment hresumes
      simp only [scanToken?, firstOf, hcomment', habsent.string hstring, habsent.number hnumber, Scan.ofOption,
        habsent.name hname, hagain rest' hresumes]

/-! ### Texts that let a token end -/

theorem resumes_of_isStop (h : ∀ c, rest'.head? = some c → isStop c = true) (rest : List Char) : Resumes rest rest' where
  follows c hc := .inr (h c hc)
  point more hmore := by
    subst hmore
    exact absurd (h '.' rfl) (by decide)
  exponent _ := by
    cases rest' with
    | nil => rfl
    | cons c cs =>
      have hc : ¬(c = 'e' ∨ c = 'E') := by
        rintro (rfl | rfl) <;> exact absurd (h _ rfl) (by decide)
      simp only [Sql.exponent, hc, false_and, if_false]
  dash more hmore := by
    subst hmore
    exact absurd (h '-' rfl) (by decide)

theorem lineComment?_eq_none_iff : lineComment? cs = none ↔
    ∃ body more, cs = body ++ '\r' :: more ∧ (∀ c ∈ body, c ≠ '\r' ∧ c ≠ '\n') ∧ more.head? ≠ some '\n' := by
  constructor
  · intro h
    have happend := spanWhile_eq_append (fun c => c != '\r' && c != '\n') cs
    have hbody : ∀ c ∈ (spanWhile (fun c => c != '\r' && c != '\n') cs).1, c ≠ '\r' ∧ c ≠ '\n' := by
      intro c hc
      simpa using mem_spanWhile hc
    simp only [lineComment?] at h
    split at h
    next => cases h
    next more hfeed heq =>
      rw [heq] at happend
      refine ⟨_, more, happend.symm, hbody, fun hhead => ?_⟩
      obtain ⟨more', rfl⟩ := List.head?_eq_some_iff.mp hhead
      exact hfeed more' rfl
    next => cases h
  · rintro ⟨body, more, rfl, hbody, hmore⟩
    have hspan : spanWhile (fun c => c != '\r' && c != '\n') (body ++ '\r' :: more) = (body, '\r' :: more) := by
      refine spanWhile_append (fun c hc => by simpa using hbody c hc) fun c hc => ?_
      cases hc
      rfl
    simp only [lineComment?, hspan]
    split
    next heq =>
      cases heq
      exact absurd rfl hmore
    next => rfl
    next hreturn => exact absurd rfl (hreturn more)

/-- A character that closes something is not in an exponent. -/
theorem not_mem_exponent {e : Char} {sign digits : List Char} (hc : c ∈ [')', '*', '\'', ']', '"'])
    (he : e = 'e' ∨ e = 'E') (hsign : sign = [] ∨ sign = ['+'] ∨ sign = ['-'])
    (hdigits : ∀ d ∈ digits, d.isDigit = true) : c ∉ e :: sign ++ digits := by
  have hdigit : c.isDigit = false := by
    simp only [List.mem_cons, List.not_mem_nil, or_false] at hc
    rcases hc with rfl | rfl | rfl | rfl | rfl <;> rfl
  intro hmem
  rcases List.mem_append.mp hmem with hmem | hmem
  · rcases List.mem_cons.mp hmem with rfl | hmem
    · rcases he with rfl | rfl <;> exact absurd hc (by decide)
    · rcases hsign with rfl | rfl | rfl
      · cases hmem
      · cases List.mem_singleton.mp hmem
        exact absurd hc (by decide)
      · cases List.mem_singleton.mp hmem
        exact absurd hc (by decide)
  · rw [hdigits c hmem] at hdigit
    cases hdigit

/-- An exponent would end before a closing character, so that the shorter text would have it too. -/
theorem exponent_append_closing (hc : c ∈ [')', '*', '\'', ']', '"']) (hnone : exponent rest = ([], rest))
    (more : List Char) : exponent (rest ++ c :: more) = ([], rest ++ c :: more) := by
  rcases exponent_cases (rest ++ c :: more) with hnone' | ⟨e, sign, digits, he, hsign, hdigits, hne, hshown, hend⟩
  · exact hnone'
  exfalso
  obtain ⟨d, digits, rfl⟩ := List.exists_cons_of_ne_nil hne
  have hsplit := (exponent_eq_append (rest ++ c :: more)).1
  rw [hshown] at hsplit
  obtain ⟨tail, rfl⟩ : ∃ tail, rest = e :: sign ++ d :: digits ++ tail := by
    rcases List.append_eq_append_iff.mp hsplit with ⟨tail, hrest, -⟩ | ⟨tail, hfront, htail⟩
    · exact ⟨tail, hrest⟩
    · cases tail with
      | nil => exact ⟨[], by rw [List.append_nil, hfront, List.append_nil]⟩
      | cons _ _ =>
        have hnot := not_mem_exponent hc he hsign hdigits
        rw [(List.cons.inj htail).1] at hnot
        exact absurd (hfront ▸ List.mem_append_right _ List.mem_cons_self) hnot
  have hspan := spanWhile_eq_append Char.isDigit tail
  have hexponent : exponent (e :: sign ++ (d :: digits ++ (spanWhile Char.isDigit tail).1) ++
      (spanWhile Char.isDigit tail).2) = _ :=
    exponent_append he hsign (List.forall_mem_append.mpr ⟨hdigits, fun _ => mem_spanWhile⟩) (by simp) (spanWhile_head? _ _)
  rw [List.append_assoc, List.append_assoc, hspan, ← List.append_assoc, hnone] at hexponent
  cases hexponent

/-- A text goes on behind its end with a character that closes something. -/
theorem resumes_append (hc : c ∈ [')', '*', '\'', ']', '"']) (hrest : c = ')' ∨ ∃ d ∈ rest, d ≠ '.') (more : List Char) :
    Resumes rest (rest ++ c :: more) where
  follows d hd := by
    cases rest with
    | nil =>
      obtain rfl := hrest.resolve_right (by simp)
      cases hd
      exact .inr rfl
    | cons => exact .inl hd
  point more' hmore := by
    rcases rest with _ | ⟨d, _ | ⟨e, rest⟩⟩
    · cases hmore
      exact absurd hc (by decide)
    · cases hmore
      obtain rfl := hrest.resolve_right (by simp)
      exact ⟨[], rfl, fun _ => segment_eq_absent_iff.mpr (by decide)⟩
    · cases hmore
      refine ⟨_, rfl, fun habsent => ?_⟩
      rw [List.append_eq, List.cons_append]
      exact segment_eq_absent_iff.mpr (segment_eq_absent_iff.mp habsent)
  exponent hnone := exponent_append_closing hc hnone more
  dash more' hmore := by
    cases rest with
    | nil =>
      cases hmore
      exact absurd hc (by decide)
    | cons d rest =>
      cases hmore
      refine ⟨rest, rfl, fun hnone => ?_⟩
      obtain ⟨body, tail, rfl, hbody, htail⟩ := lineComment?_eq_none_iff.mp hnone
      refine lineComment?_eq_none_iff.mpr ⟨body, tail ++ c :: more, by simp, hbody, ?_⟩
      cases tail with
      | nil =>
        rintro ⟨⟩
        exact absurd hc (by decide)
      | cons => exact htail

/-! ### Keywords -/

theorem isAlpha_of_toLower (h : c.toLower.isAlpha = true) : c.isAlpha = true := by
  rw [isAlpha_iff_toNat, Text.toNat_toLower] at h
  rw [isAlpha_iff_toNat]
  split at h <;> omega

/-- The words that are no names consist of letters. -/
theorem Keyword.isAlpha_of_ofWord? {word : String} {k : Keyword} (h : Keyword.ofWord? word = some k) :
    ∀ c ∈ word.toList, c.isAlpha = true := by
  have hlower : ∀ c ∈ word.toLower.toList, c.isAlpha = true := by
    unfold Keyword.ofWord? at h
    split at h
    case h_9 => cases h
    all_goals
      rename_i hword
      rw [hword]
      decide
  intro c hc
  refine isAlpha_of_toLower (hlower _ ?_)
  rw [Text.toList_toLower, List.mem_map]
  exact ⟨c, hc, rfl⟩

theorem nameKind_eq_keyword_iff {k : Keyword} :
    nameKind shown = .keyword k ↔ Keyword.ofWord? (String.ofList shown) = some k := by
  unfold nameKind
  cases Keyword.ofWord? (String.ofList shown) <;> simp

/-- A keyword is a name of letters. -/
theorem identifier_of_keyword {k : Keyword} (h : scanToken? cs = some (.keyword k, s)) :
    identifier cs = .found s ∧ nameKind s.1 = .keyword k ∧ ∀ c ∈ s.1, c.isAlpha = true := by
  rcases scanToken?_cases h with ⟨-, h⟩ | ⟨-, ⟨-, h⟩ | ⟨-, ⟨-, h⟩ | ⟨-, ⟨hname, h⟩ | ⟨-, -, h⟩⟩⟩⟩
  · cases h
  · cases h
  · cases h
  · have halpha := Keyword.isAlpha_of_ofWord? (nameKind_eq_keyword_iff.mp h.symm)
    rw [String.toList_ofList] at halpha
    exact ⟨hname, h.symm, halpha⟩
  · cases h

/-- A keyword ends before a comment too. -/
theorem scanToken?_keyword {k : Keyword} (h : scanToken? cs = some (.keyword k, s))
    (hrest' : ∀ c, rest'.head? = some c → isStop c = true ∨ c = '-' ∨ c = '/') :
    scanToken? (s.1 ++ rest') = some (.keyword k, s.1, rest') := by
  obtain ⟨shown, rest⟩ := s
  obtain ⟨-, hne, -⟩ := scanToken?_again h nofun
  obtain ⟨-, hkind, halpha⟩ := identifier_of_keyword h
  have hword := isWord_of_isAlpha hne halpha
  have hinner : ∀ c, rest'.head? = some c → startsWord c = false ∧ continuesWord c = false ∧ c ≠ '.' ∧ c ≠ '\'' := by
    intro c hc
    rcases hrest' c hc with hstop | rfl | rfl
    · have hfalse := isInner_eq_false hstop
      simp only [isInner, Bool.or_eq_false_iff] at hfalse
      refine ⟨hfalse.1.1.1, hfalse.1.1.2, ?_, ?_⟩ <;> (rintro rfl; exact absurd hstop (by decide))
    · decide
    · decide
  have hpoint : ∀ more, rest' = '.' :: more → segment more = .absent := by
    rintro more rfl
    exact absurd rfl (hinner '.' rfl).2.2.1
  have hname : identifier (shown ++ rest') = .found (shown, rest') := by
    rw [identifier, hword.segment fun c hc => ⟨(hinner c hc).1, (hinner c hc).2.1⟩]
    simp only [moreSegments_of_point hpoint, Split.after, List.append_nil]
  obtain ⟨c, shown, rfl⟩ := List.exists_cons_of_ne_nil hne
  have hquote : rest'.head? ≠ some '\'' := fun hhead => absurd rfl (hinner _ hhead).2.2.2
  rw [← hkind]
  exact scanToken?_name (hword.head c rfl) (hword.next_ne_quote hquote) hname

theorem moreSegments_head {fuel : Nat} (h : moreSegments fuel cs = .found s) :
    s = ([], cs) ∨ ∃ more, s.1 = '.' :: more := by
  cases fuel with
  | zero =>
    cases h
    exact .inl rfl
  | succ fuel =>
    unfold moreSegments at h
    split at h
    next rest =>
      split at h
      next =>
        cases h
        exact .inl rfl
      next => cases h
      next first hfirst =>
        cases hmore : moreSegments fuel first.2 with
        | absent => simp [hmore] at h
        | unclosed => simp [hmore] at h
        | found more =>
          rw [hmore] at h
          cases h
          exact .inr ⟨_, rfl⟩
    next =>
      cases h
      exact .inl rfl

/-- A keyword takes all letters that stand together. -/
theorem not_isAlpha_of_keyword {k : Keyword} (h : scanToken? cs = some (.keyword k, s)) :
    ∀ c, s.2.head? = some c → c.isAlpha = false := by
  obtain ⟨hname, -, halpha⟩ := identifier_of_keyword h
  unfold identifier at hname
  split at hname
  next first hfirst =>
    cases hmore : moreSegments first.2.length first.2 with
    | absent => simp [hmore] at hname
    | unclosed => simp [hmore] at hname
    | found more =>
      rw [hmore] at hname
      cases hname
      simp only [Split.after, List.forall_mem_append] at halpha ⊢
      obtain ⟨hfirstAlpha, hmoreAlpha⟩ := halpha
      rcases moreSegments_head hmore with rfl | ⟨tail, htail⟩
      · obtain ⟨happend, hne, -⟩ := segment_again hfirst
        obtain ⟨c, word, hc⟩ := List.exists_cons_of_ne_nil hne
        have hcs : cs.head? = some c := by rw [← happend, hc]; rfl
        have hletter := hfirstAlpha c (by rw [hc]; exact List.mem_cons_self)
        rw [segment_of_head? (by rw [hcs]; rintro ⟨⟩; cases hletter) (by rw [hcs]; rintro ⟨⟩; cases hletter),
          Scan.ofOption_eq_found] at hfirst
        simp only [word?] at hfirst
        split at hfirst
        · cases hfirst
        · cases hfirst
          intro d hd
          rw [Bool.eq_false_iff]
          intro hdAlpha
          have hstop := spanWhile_head? continuesWord _ d hd
          rw [continuesWord_of_isAlpha hdAlpha] at hstop
          cases hstop
      · have := hmoreAlpha '.' (by rw [htail]; exact List.mem_cons_self)
        cases this
  next => simp_all

end ItemQuery.Sql
