import ItemQuery.Proofs.Result
import ItemQuery.Proofs.Sql.Munching

/-! How tokens lie in a text. Between them there are blanks only, and where scanning fails, a token starts that lacks
    its closing mark: with the mark behind it the rest of the text is that token. -/

namespace ItemQuery.Sql

variable {c : Char} {cs rest shown gap : List Char} {s : Split} {kind : TokenKind} {fuel offset : Nat} {ts : List Token}

/-! ### Tokens in their places -/

/-- A token that is no comment, with the blanks and comments in front of it. -/
structure Chunk where
  gap : List Char
  kind : TokenKind
  shown : List Char

/-- The tokens and the chunks of a text that starts at `offset`. The first chunk starts with a gap of its own. -/
inductive Laid : Nat → List Char → List Char → List Token → List Chunk → Prop
  | nil {offset : Nat} {gap : List Char} : Laid offset gap [] [] []
  | blank {offset : Nat} {gap cs : List Char} {ts : List Token} {chunks : List Chunk} {c : Char}
      (hc : Text.isBlank c = true) (h : Laid (offset + c.utf8Size) (gap ++ [c]) cs ts chunks) :
      Laid offset gap (c :: cs) ts chunks
  | comment {offset : Nat} {gap shown rest : List Char} {ts : List Token} {chunks : List Chunk}
      (hremark : Remark (shown, rest)) (h : Laid (offset + byteLength shown) (gap ++ shown) rest ts chunks) :
      Laid offset gap (shown ++ rest) (⟨.comment, String.ofList shown, offset⟩ :: ts) chunks
  | token {offset : Nat} {gap shown rest : List Char} {ts : List Token} {chunks : List Chunk} {kind : TokenKind}
      (hkind : kind ≠ .comment) (hblank : ∀ c, shown.head? = some c → Text.isBlank c = false) (hne : shown ≠ [])
      (hscan : scanToken? (shown ++ rest) = some (kind, shown, rest))
      (h : Laid (offset + byteLength shown) [] rest ts chunks) :
      Laid offset gap (shown ++ rest) (⟨kind, String.ofList shown, offset⟩ :: ts) (⟨gap, kind, shown⟩ :: chunks)

theorem byteLength_append (front cs : List Char) : byteLength (front ++ cs) = byteLength front + byteLength cs := by
  induction front with
  | nil => rw [List.nil_append, byteLength, Nat.zero_add]
  | cons c front ih => rw [List.cons_append, byteLength, byteLength, ih, Nat.add_assoc]

theorem byteLength_pos (h : cs ≠ []) : 0 < byteLength cs := by
  obtain ⟨c, cs, rfl⟩ := List.exists_cons_of_ne_nil h
  exact Nat.add_pos_left c.utf8Size_pos _

theorem Remark.head (h : Remark (shown, rest)) : ∃ c more, shown = c :: more ∧ Text.isBlank c = false := by
  cases h with
  | block => exact ⟨_, _, rfl, rfl⟩
  | line => exact ⟨_, _, rfl, rfl⟩

/-- How scanning goes through a text: over blanks, comments and other tokens, up to where no token is found. -/
inductive Steps : List Char → Prop
  | nil : Steps []
  | blank {c : Char} {cs : List Char} (hc : Text.isBlank c = true) (h : Steps cs) : Steps (c :: cs)
  | comment {shown rest : List Char} (hremark : Remark (shown, rest)) (h : Steps rest) : Steps (shown ++ rest)
  | token {shown rest : List Char} {kind : TokenKind} (hkind : kind ≠ .comment)
      (hblank : ∀ c, shown.head? = some c → Text.isBlank c = false) (hne : shown ≠ [])
      (hscan : scanToken? (shown ++ rest) = some (kind, shown, rest)) (h : Steps rest) : Steps (shown ++ rest)
  | stuck {cs : List Char} (hblank : ∀ c, cs.head? = some c → Text.isBlank c = false) (hne : cs ≠ [])
      (hscan : scanToken? cs = none) : Steps cs

/-- Every step of scanning takes something. -/
theorem scanToken?_append (h : scanToken? cs = some (kind, s)) : s.1 ++ s.2 = cs ∧ s.1 ≠ [] := by
  by_cases hkind : kind = .comment
  · subst hkind
    obtain ⟨hremark, happend⟩ := remark_of_comment (comment_of_scanToken? h)
    obtain ⟨c, more, hshown, -⟩ := hremark.head
    exact ⟨happend, by rw [hshown]; exact List.cons_ne_nil _ _⟩
  · obtain ⟨happend, hne, -⟩ := scanToken?_again h hkind
    exact ⟨happend, hne⟩

theorem steps (cs : List Char) : Steps cs := by
  induction hn : cs.length using Nat.strong_induction_on generalizing cs with
  | _ n ih =>
    subst hn
    cases cs with
    | nil => exact .nil
    | cons c cs =>
      cases hc : Text.isBlank c with
      | true => exact .blank hc (ih _ (Nat.lt_succ_self _) cs rfl)
      | false =>
        have hblank : ∀ d, (c :: cs).head? = some d → Text.isBlank d = false := by
          rintro d ⟨⟩
          exact hc
        cases hscan : scanToken? (c :: cs) with
        | none => exact .stuck hblank (List.cons_ne_nil _ _) hscan
        | some found =>
          obtain ⟨kind, shown, rest⟩ := found
          obtain ⟨happend, hne⟩ := scanToken?_append hscan
          simp only at happend hne
          rw [← happend, List.head?_append_of_ne_nil _ hne] at hblank
          rw [← happend] at hscan ih ⊢
          have hrest := ih rest.length (by
            have := List.length_pos_iff.mpr hne
            rw [List.length_append]
            omega) rest rfl
          by_cases hkind : kind = .comment
          · subst hkind
            exact .comment (remark_of_comment (comment_of_scanToken? hscan)).1 hrest
          · exact .token hkind hblank hne hscan hrest

theorem scanAll_stuck (hblank : ∀ c, cs.head? = some c → Text.isBlank c = false) (hne : cs ≠ [])
    (hscan : scanToken? cs = none) (fuel offset : Nat) :
    scanAll (fuel + 1) offset cs = .error (.lex offset (unclosedReason cs)) := by
  obtain ⟨c, cs, rfl⟩ := List.exists_cons_of_ne_nil hne
  simp only [scanAll, spanWhile, List.takeWhile_cons, List.dropWhile_cons, hblank c rfl, Bool.false_eq_true, if_false,
    byteLength, Nat.add_zero, hscan]

theorem scanAll_token (offset : Nat) (hblank : ∀ c, shown.head? = some c → Text.isBlank c = false) (hne : shown ≠ [])
    (hscan : scanToken? (shown ++ rest) = some (kind, shown, rest)) (hfuel : (shown ++ rest).length < fuel) :
    ∃ fuel', rest.length < fuel' ∧ scanAll fuel offset (shown ++ rest) =
      (scanAll fuel' (offset + byteLength shown) rest).map (⟨kind, String.ofList shown, offset⟩ :: ·) := by
  obtain ⟨c, shown, rfl⟩ := List.exists_cons_of_ne_nil hne
  obtain ⟨fuel, rfl⟩ := Nat.exists_eq_add_one_of_ne_zero (Nat.ne_zero_of_lt hfuel)
  refine ⟨fuel, ?_, ?_⟩
  · rw [List.length_append, List.length_cons] at hfuel
    omega
  · rw [List.cons_append] at hscan ⊢
    simp only [scanAll, spanWhile, List.takeWhile_cons, List.dropWhile_cons, hblank c rfl, Bool.false_eq_true, if_false,
      byteLength, Nat.add_zero, hscan]

theorem scanAll_comment (offset : Nat) (hremark : Remark (shown, rest)) (hfuel : (shown ++ rest).length < fuel) :
    ∃ fuel', rest.length < fuel' ∧ scanAll fuel offset (shown ++ rest) =
      (scanAll fuel' (offset + byteLength shown) rest).map (⟨.comment, String.ofList shown, offset⟩ :: ·) := by
  obtain ⟨c, more, hshown, hc⟩ := hremark.head
  refine scanAll_token offset ?_ (by rw [hshown]; exact List.cons_ne_nil _ _)
    (scanToken?_comment (comment_of_remark hremark)) hfuel
  rw [hshown]
  rintro d ⟨⟩
  exact hc

theorem laid_of_scanAll (h : scanAll fuel offset cs = .ok ts) (hfuel : cs.length < fuel) (gap : List Char) :
    ∃ chunks, Laid offset gap cs ts chunks := by
  induction steps cs generalizing fuel offset ts gap with
  | nil =>
    cases fuel <;>
    · cases h
      exact ⟨[], .nil⟩
  | blank hc _ ih =>
    obtain ⟨fuel, rfl⟩ := Nat.exists_eq_add_one_of_ne_zero (Nat.ne_zero_of_lt hfuel)
    rw [scanAll_blank hc] at h
    obtain ⟨chunks, hlaid⟩ := ih h (Nat.lt_of_succ_lt hfuel) (gap ++ [_])
    exact ⟨chunks, .blank hc hlaid⟩
  | comment hremark _ ih =>
    obtain ⟨fuel', hfuel', heq⟩ := scanAll_comment offset hremark hfuel
    rw [heq] at h
    obtain ⟨ts, hts, rfl⟩ := Result.map_eq_ok.mp h
    obtain ⟨chunks, hlaid⟩ := ih hts hfuel' (gap ++ _)
    exact ⟨chunks, .comment hremark hlaid⟩
  | token hkind hblank hne hscan _ ih =>
    obtain ⟨fuel', hfuel', heq⟩ := scanAll_token offset hblank hne hscan hfuel
    rw [heq] at h
    obtain ⟨ts, hts, rfl⟩ := Result.map_eq_ok.mp h
    obtain ⟨chunks, hlaid⟩ := ih hts hfuel' []
    exact ⟨_, .token hkind hblank hne hscan hlaid⟩
  | stuck hblank hne hscan =>
    obtain ⟨fuel, rfl⟩ := Nat.exists_eq_add_one_of_ne_zero (Nat.ne_zero_of_lt hfuel)
    rw [scanAll_stuck hblank hne hscan] at h
    cases h

theorem Laid.scanAll {chunks : List Chunk} (h : Laid offset gap cs ts chunks) (hfuel : cs.length < fuel) :
    Sql.scanAll fuel offset cs = .ok ts := by
  induction h generalizing fuel with
  | nil => cases fuel <;> rfl
  | blank hc _ ih =>
    obtain ⟨fuel, rfl⟩ := Nat.exists_eq_add_one_of_ne_zero (Nat.ne_zero_of_lt hfuel)
    rw [scanAll_blank hc]
    exact ih (Nat.lt_of_succ_lt hfuel)
  | comment hremark _ ih =>
    obtain ⟨fuel', hfuel', heq⟩ := scanAll_comment _ hremark hfuel
    rw [heq, ih hfuel', Except.map]
  | token hkind hblank hne hscan _ ih =>
    obtain ⟨fuel', hfuel', heq⟩ := scanAll_token _ hblank hne hscan hfuel
    rw [heq, ih hfuel', Except.map]

/-! ### One layout -/

theorem Laid.of_blank {chunks : List Chunk} (h : Laid offset gap (c :: cs) ts chunks) (hc : Text.isBlank c = true) :
    Laid (offset + c.utf8Size) (gap ++ [c]) cs ts chunks := by
  have hnot : ∀ {d : Char}, d = c → Text.isBlank d ≠ false := by
    rintro d rfl hd
    rw [hd] at hc
    cases hc
  generalize hcs : c :: cs = whole at h
  cases h with
  | nil => cases hcs
  | blank _ h =>
    cases hcs
    exact h
  | comment hremark =>
    obtain ⟨d, more, rfl, hd⟩ := hremark.head
    exact absurd hd (hnot (List.cons.inj hcs).1.symm)
  | token _ hblank hne =>
    obtain ⟨d, more, rfl⟩ := List.exists_cons_of_ne_nil hne
    exact absurd (hblank d rfl) (hnot (List.cons.inj hcs).1.symm)

theorem Laid.of_token {chunks : List Chunk} (h : Laid offset gap (shown ++ rest) ts chunks)
    (hblank : ∀ c, shown.head? = some c → Text.isBlank c = false) (hne : shown ≠ [])
    (hscan : scanToken? (shown ++ rest) = some (kind, shown, rest)) :
    (kind = .comment ∧ ∃ us, Laid (offset + byteLength shown) (gap ++ shown) rest us chunks) ∨
      kind ≠ .comment ∧ ∃ us more, chunks = ⟨gap, kind, shown⟩ :: more ∧
        Laid (offset + byteLength shown) [] rest us more := by
  generalize hcs : shown ++ rest = whole at h
  cases h with
  | nil => exact absurd (List.append_eq_nil_iff.mp hcs).1 hne
  | blank hc =>
    obtain ⟨d, more, rfl⟩ := List.exists_cons_of_ne_nil hne
    have hd := hblank d rfl
    rw [(List.cons.inj hcs).1, hc] at hd
    cases hd
  | comment hremark h =>
    rw [hcs, scanToken?_comment (comment_of_remark hremark)] at hscan
    cases hscan
    exact .inl ⟨rfl, _, h⟩
  | token hkind _ _ hscan' h =>
    rw [hcs, hscan'] at hscan
    cases hscan
    exact .inr ⟨hkind, _, _, rfl, h⟩

/-- A text has one layout. -/
theorem Laid.unique {offset' : Nat} {ts' : List Token} {chunks chunks' : List Chunk} (h : Laid offset gap cs ts chunks)
    (h' : Laid offset' gap cs ts' chunks') : chunks = chunks' := by
  induction h generalizing offset' ts' chunks' with
  | nil =>
    generalize hcs : ([] : List Char) = whole at h'
    cases h' with
    | nil => rfl
    | blank => cases hcs
    | comment hremark =>
      obtain ⟨d, more, rfl, -⟩ := hremark.head
      cases hcs
    | token _ _ hne => exact absurd (List.append_eq_nil_iff.mp hcs.symm).1 hne
  | blank hc _ ih => exact ih (h'.of_blank hc)
  | comment hremark _ ih =>
    obtain ⟨d, more, hshown, hd⟩ := hremark.head
    have hblank : ∀ e, (d :: more).head? = some e → Text.isBlank e = false := by
      rintro e ⟨⟩
      exact hd
    rw [← hshown] at hblank
    have hne := hshown ▸ List.cons_ne_nil d more
    rcases h'.of_token hblank hne (scanToken?_comment (comment_of_remark hremark)) with ⟨-, us, hlaid⟩ | ⟨hne', -⟩
    · exact ih hlaid
    · exact absurd rfl hne'
  | token hkind hblank hne hscan _ ih =>
    rcases h'.of_token hblank hne hscan with ⟨hcomment, -⟩ | ⟨-, us, more, rfl, hlaid⟩
    · exact absurd hcomment hkind
    · rw [ih hlaid]

/-! ### Texts that are not closed -/

/-- The marks that a text may lack, with the kind of token that they end. -/
def closings : List (TokenKind × List Char) :=
  [(.comment, ['*', '/']), (.string, ['\'']), (.identifier, [']']), (.identifier, ['"'])]

theorem quotedTail?_closed {quote : Char} (h : quotedTail? quote cs = none) :
    quotedTail? quote (cs ++ [quote]) = some (cs ++ [quote], []) := by
  rcases quotedTail?_cases quote cs with ⟨body, rfl, -⟩ | ⟨body, rest, rfl, hrest⟩
  · exact quotedTail?_doubled (by simp) body
  · rw [quotedTail?_doubled hrest] at h
    cases h

theorem segment_closed (h : segment cs = .unclosed) :
    ∃ quote ∈ [']', '"'], segment (cs ++ [quote]) = .found (cs ++ [quote], []) := by
  unfold segment at h
  split at h
  next rest =>
    refine ⟨']', by decide, ?_⟩
    cases htail : quotedTail? ']' rest with
    | some s =>
      rw [htail] at h
      cases h
    | none => simp only [List.cons_append, segment, quotedTail?_closed htail, Scan.committed, Split.after, List.nil_append]
  next rest =>
    refine ⟨'"', by decide, ?_⟩
    cases htail : quotedTail? '"' rest with
    | some s =>
      rw [htail] at h
      cases h
    | none => simp only [List.cons_append, segment, quotedTail?_closed htail, Scan.committed, Split.after, List.nil_append]
  next =>
    cases hword : word? cs <;> simp [hword, Scan.ofOption] at h

theorem moreSegments_nil (fuel : Nat) : moreSegments fuel [] = .found ([], []) := by
  cases fuel <;> rfl

theorem moreSegments_closed (hfuel : cs.length ≤ fuel) (h : moreSegments fuel cs = .unclosed) :
    ∃ quote ∈ [']', '"'], ∀ fuel', (cs ++ [quote]).length ≤ fuel' →
      moreSegments fuel' (cs ++ [quote]) = .found (cs ++ [quote], []) := by
  induction fuel generalizing cs with
  | zero => cases h
  | succ fuel ih =>
    unfold moreSegments at h
    split at h
    next rest =>
      have hmore : ∀ {quote : Char} {fuel' : Nat} {t : Split}, segment (rest ++ [quote]) = .found t →
          moreSegments fuel' t.2 = .found (t.2, []) → t.1 ++ t.2 = rest ++ [quote] →
          moreSegments (fuel' + 1) ('.' :: rest ++ [quote]) = .found ('.' :: rest ++ [quote], []) := by
        intro quote fuel' t hsegment hmore happend
        simp only [List.cons_append, moreSegments, hsegment, hmore, Split.after, happend]
      split at h
      next => cases h
      next hunclosed =>
        obtain ⟨quote, hquote, hsegment⟩ := segment_closed hunclosed
        refine ⟨quote, hquote, fun fuel' hfuel' => ?_⟩
        obtain ⟨fuel', rfl⟩ := Nat.exists_eq_add_one_of_ne_zero (Nat.ne_zero_of_lt hfuel')
        exact hmore hsegment (moreSegments_nil fuel') (List.append_nil _)
      next first hfirst =>
        obtain ⟨happend, hne, hagain⟩ := segment_again hfirst
        have hlength : first.2.length ≤ fuel := by
          have := congrArg List.length happend
          simp only [List.length_append, List.length_cons] at this hfuel
          omega
        have hunclosed : moreSegments fuel first.2 = .unclosed := by
          cases hcase : moreSegments fuel first.2 <;> simp_all
        obtain ⟨quote, hquote, hclosed⟩ := ih hlength hunclosed
        refine ⟨quote, hquote, fun fuel' hfuel' => ?_⟩
        obtain ⟨fuel', rfl⟩ := Nat.exists_eq_add_one_of_ne_zero (Nat.ne_zero_of_lt hfuel')
        have hfollows : Follows first.2 (first.2 ++ [quote]) := by
          cases hrest : first.2 with
          | nil =>
            rw [hrest, moreSegments_nil] at hunclosed
            cases hunclosed
          | cons => exact fun d hd => .inl hd
        have hsegment := hagain _ hfollows
        have hall : first.1 ++ (first.2 ++ [quote]) = rest ++ [quote] := by rw [← List.append_assoc, happend]
        rw [hall] at hsegment
        refine hmore hsegment (hclosed fuel' ?_) hall
        have := congrArg List.length happend
        simp only [List.length_append, List.length_cons] at this hfuel' ⊢
        omega
    next => cases h

theorem identifier_closed (h : identifier cs = .unclosed) :
    ∃ quote ∈ [']', '"'], identifier (cs ++ [quote]) = .found (cs ++ [quote], []) := by
  unfold identifier at h
  split at h
  next first hfirst =>
    obtain ⟨happend, hne, hagain⟩ := segment_again hfirst
    have hunclosed : moreSegments first.2.length first.2 = .unclosed := by
      cases hcase : moreSegments first.2.length first.2 <;> simp_all
    obtain ⟨quote, hquote, hclosed⟩ := moreSegments_closed (Nat.le_refl _) hunclosed
    refine ⟨quote, hquote, ?_⟩
    have hfollows : Follows first.2 (first.2 ++ [quote]) := by
      cases hrest : first.2 with
      | nil =>
        rw [hrest] at hunclosed
        cases hunclosed
      | cons => exact fun d hd => .inl hd
    have hall : first.1 ++ (first.2 ++ [quote]) = cs ++ [quote] := by rw [← List.append_assoc, happend]
    rw [← hall]
    simp only [identifier, hagain _ hfollows, hclosed _ (Nat.le_refl _), Split.after]
  next =>
    obtain ⟨quote, hquote, hsegment⟩ := segment_closed h
    refine ⟨quote, hquote, ?_⟩
    simp only [identifier, hsegment, moreSegments_nil, Split.after, List.append_nil]

theorem nameKind_of_mem (hmem : c ∈ cs) (hc : c.isAlpha = false) : nameKind cs = .identifier := by
  cases hword : Keyword.ofWord? (String.ofList cs) with
  | none =>
    rw [nameKind, hword]
    rfl
  | some k =>
    rw [Keyword.isAlpha_of_ofWord? hword c (by rwa [String.toList_ofList])] at hc
    cases hc

theorem stringLiteral_closed (h : stringLiteral (c :: cs) = .unclosed) :
    c ≠ '-' ∧ c ≠ '/' ∧ c ≠ '.' ∧ stringLiteral (c :: cs ++ ['\'']) = .found (c :: cs ++ ['\''], []) := by
  have hclosed : ∀ (front : List Char) {rest : List Char},
      (∀ cs, stringLiteral (front ++ cs) = .committed front (quotedTail? '\'' cs)) →
      stringLiteral (front ++ rest) = .unclosed →
      stringLiteral (front ++ rest ++ ['\'']) = .found (front ++ rest ++ ['\''], []) := by
    intro front rest hscan hunclosed
    rw [hscan] at hunclosed
    cases htail : quotedTail? '\'' rest with
    | some s =>
      rw [htail] at hunclosed
      cases hunclosed
    | none =>
      rw [List.append_assoc, hscan, quotedTail?_closed htail]
      rfl
  by_cases hc : c = '\''
  · subst hc
    exact ⟨by decide, by decide, by decide, hclosed ['\''] (fun _ => rfl) h⟩
  · have hletter : cs.head? = some '\'' ∧ (c = 'N' ∨ c = 'n') := by
      by_contra hnot
      rw [stringLiteral_eq_absent hc fun hhead hletter => hnot ⟨hhead, hletter⟩] at h
      cases h
    obtain ⟨hhead, hletter⟩ := hletter
    obtain ⟨rest, rfl⟩ := List.head?_eq_some_iff.mp hhead
    refine ⟨?_, ?_, ?_, hclosed [c, '\''] (stringLiteral_letter hletter) h⟩
    all_goals rcases hletter with rfl | rfl <;> decide

theorem operator_found (c : Char) (cs : List Char) : ∃ s, operator (c :: cs) = .found s := by
  by_cases hpair : ∃ d, cs.head? = some d ∧ (c, d) ∈ operatorPairs
  · obtain ⟨d, hd, hmem⟩ := hpair
    obtain ⟨more, rfl⟩ := List.head?_eq_some_iff.mp hd
    exact ⟨_, operator_pair hmem more⟩
  · simp only [not_exists, not_and] at hpair
    exact ⟨_, operator_single hpair⟩

/-- A comment that is not over ends at its closing mark. -/
theorem comment_closed (h : comment cs = .unclosed) :
    (∃ d ∈ cs, d ≠ '.') ∧ scanToken? (cs ++ ['*', '/']) = some (.comment, cs ++ ['*', '/'], []) := by
  unfold comment at h
  split at h
  next rest => cases hline : lineComment? rest <;> simp [hline, Scan.ofOption] at h
  next rest =>
    have hcut : Text.cut? ['*', '/'] rest = none := by
      cases hcut : Text.cut? ['*', '/'] rest with
      | none => rfl
      | some s => simp [blockComment?, hcut, Scan.committed] at h
    have hremark : Remark ('/' :: '*' :: (rest ++ ['*', '/']), []) := .block hcut
    have hfound := comment_of_remark hremark
    rw [List.append_nil] at hfound
    exact ⟨⟨'/', List.mem_cons_self, by decide⟩, scanToken?_comment hfound⟩
  next => cases h

/-- A name that is not over ends at its closing mark, unless it starts a text. -/
theorem name_closed (hstring : stringLiteral (c :: cs) = .absent) (h : identifier (c :: cs) = .unclosed) :
    ∃ quote, (.identifier, [quote]) ∈ closings ∧ c ≠ '.' ∧
      scanToken? (c :: cs ++ [quote]) = some (.identifier, c :: cs ++ [quote], []) := by
  obtain ⟨quote, hquote, hclosed⟩ := identifier_closed h
  have hhead : startsWord c = true ∨ c = '[' ∨ c = '"' := by
    by_contra hnot
    simp only [not_or, Bool.not_eq_true] at hnot
    rw [identifier_eq_absent_iff.mpr hnot] at h
    cases h
  have hmem : (.identifier, [quote]) ∈ closings ∧ quote.isAlpha = false ∧ quote ≠ '\'' := by
    simp only [List.mem_cons, List.not_mem_nil, or_false] at hquote
    rcases hquote with rfl | rfl <;> decide
  have hnext : (cs ++ [quote]).head? = some '\'' → ¬(c = 'N' ∨ c = 'n') := by
    cases cs with
    | nil => exact fun hq => absurd (Option.some.inj hq) hmem.2.2
    | cons => exact (stringLiteral_eq_absent_iff.mp hstring).2
  have hnot : c ≠ '-' ∧ c ≠ '/' ∧ c ≠ '\'' ∧ c.isDigit = false ∧ c ≠ '.' := by
    rcases hhead with hc | rfl | rfl
    · refine ⟨?_, ?_, ?_, isDigit_eq_false_of_startsWord hc, ?_⟩ <;> (rintro rfl; exact absurd hc (by decide))
    · decide
    · decide
  obtain ⟨hdash, hslash, hstroke, hdigit, hpoint⟩ := hnot
  refine ⟨quote, hmem.1, hpoint, ?_⟩
  have hkind : nameKind (c :: cs ++ [quote]) = .identifier := nameKind_of_mem (by simp) hmem.2.1
  rw [List.cons_append] at hclosed hkind ⊢
  rw [scanToken?_eq_firstOf hdash hslash hstroke hdigit hpoint hnext]
  simp only [firstOf, hclosed, hkind]

/-- A text where no token is found starts with one that lacks its closing mark. -/
theorem scanToken?_closed (hne : cs ≠ []) (h : scanToken? cs = none) :
    ∃ kind closing, (kind, closing) ∈ closings ∧ (∃ d ∈ cs, d ≠ '.') ∧
      scanToken? (cs ++ closing) = some (kind, cs ++ closing, []) := by
  obtain ⟨c, cs, rfl⟩ := List.exists_cons_of_ne_nil hne
  simp only [scanToken?, firstOf] at h
  cases hcomment : comment (c :: cs) with
  | found => simp [hcomment] at h
  | unclosed =>
    obtain ⟨hpoint, hclosed⟩ := comment_closed hcomment
    exact ⟨.comment, ['*', '/'], by decide, hpoint, hclosed⟩
  | absent =>
    cases hstring : stringLiteral (c :: cs) with
    | found => simp [hcomment, hstring] at h
    | unclosed =>
      obtain ⟨hdash, hslash, hpoint, hclosed⟩ := stringLiteral_closed hstring
      refine ⟨.string, ['\''], by decide, ⟨c, List.mem_cons_self, hpoint⟩, ?_⟩
      have habsent := comment_eq_absent hdash hslash (cs ++ ['\''])
      rw [List.cons_append] at hclosed ⊢
      simp only [scanToken?, firstOf, habsent, hclosed]
    | absent =>
      cases hnumber : number? (c :: cs) with
      | some => simp [hcomment, hstring, hnumber, Scan.ofOption] at h
      | none =>
        cases hname : identifier (c :: cs) with
        | found => simp [hcomment, hstring, hnumber, hname, Scan.ofOption] at h
        | absent =>
          obtain ⟨s, hoperator⟩ := operator_found c cs
          simp [hcomment, hstring, hnumber, hname, hoperator, Scan.ofOption] at h
        | unclosed =>
          obtain ⟨quote, hmem, hpoint, hclosed⟩ := name_closed hstring hname
          exact ⟨.identifier, [quote], hmem, ⟨c, List.mem_cons_self, hpoint⟩, hclosed⟩

/-- A comment that is over before the end of a text is the same when the text goes on. -/
theorem Remark.append (h : Remark (shown, rest)) (hrest : rest ≠ []) (more : List Char) : Remark (shown, rest ++ more) := by
  cases h with
  | block hbody => exact .block hbody
  | line hbody hend =>
    refine .line hbody ?_
    rcases hend with rfl | ⟨tail, rfl⟩ | ⟨tail, rfl⟩
    · exact absurd rfl hrest
    · exact .inr (.inl ⟨tail ++ more, rfl⟩)
    · exact .inr (.inr ⟨tail ++ more, rfl⟩)

/-- A token still ends where it did when something behind it is closed. -/
theorem resumes_append_of_mem_closings {closing : List Char} (hclosing : (kind, closing) ∈ closings)
    (hrest : ∃ d ∈ rest, d ≠ '.') : Resumes rest (rest ++ closing) := by
  have hmark : ∃ c more, closing = c :: more ∧ c ∈ [')', '*', '\'', ']', '"'] := by
    simp only [closings, List.mem_cons, Prod.mk.injEq, List.not_mem_nil, or_false] at hclosing
    rcases hclosing with ⟨-, rfl⟩ | ⟨-, rfl⟩ | ⟨-, rfl⟩ | ⟨-, rfl⟩ <;> exact ⟨_, _, rfl, by decide⟩
  obtain ⟨c, more, rfl, hc⟩ := hmark
  exact resumes_append hc (.inr hrest) more

/-- A text that is one token. -/
theorem exists_laid_of_scanToken? (hblank : ∀ c, cs.head? = some c → Text.isBlank c = false) (hne : cs ≠ [])
    (hscan : scanToken? cs = some (kind, cs, [])) (offset : Nat) (gap : List Char) :
    ∃ chunks, Laid offset gap cs [⟨kind, String.ofList cs, offset⟩] chunks := by
  by_cases hkind : kind = .comment
  · subst hkind
    obtain ⟨hremark, -⟩ := remark_of_comment (comment_of_scanToken? hscan)
    have hlaid : Laid offset gap _ _ _ := .comment hremark .nil
    rw [List.append_nil] at hlaid
    exact ⟨_, hlaid⟩
  · have hlaid : Laid offset gap (cs ++ []) _ _ := .token hkind hblank hne (by rwa [List.append_nil]) .nil
    rw [List.append_nil] at hlaid
    exact ⟨_, hlaid⟩

/-- Where scanning fails, the rest of the text is a token that lacks its closing mark. -/
theorem exists_closing {err : QueryError} (h : scanAll fuel offset cs = .error err) (hfuel : cs.length < fuel)
    (gap : List Char) :
    ∃ front body kind closing, cs = front ++ body ∧ (∃ d ∈ body, d ≠ '.') ∧ (kind, closing) ∈ closings ∧
      err = .lex (offset + byteLength front) (unclosedReason body) ∧
      ∃ ts chunks, Laid offset gap (cs ++ closing)
        (ts ++ [⟨kind, String.ofList (body ++ closing), offset + byteLength front⟩]) chunks := by
  have herror : ∀ {x : Result (List Token)} {t : Token}, x.map (t :: ·) = .error err → x = .error err := by
    intro x t hx
    cases x with
    | error err' =>
      cases hx
      rfl
    | ok ts => cases hx
  induction steps cs generalizing fuel offset gap with
  | nil => cases fuel <;> cases h
  | @blank c cs hc _ ih =>
    obtain ⟨fuel, rfl⟩ := Nat.exists_eq_add_one_of_ne_zero (Nat.ne_zero_of_lt hfuel)
    rw [scanAll_blank hc] at h
    obtain ⟨front, body, kind, closing, rfl, hbody, hclosing, rfl, ts, chunks, hlaid⟩ :=
      ih h (Nat.lt_of_succ_lt hfuel) (gap ++ [c])
    refine ⟨c :: front, body, kind, closing, rfl, hbody, hclosing, by rw [byteLength, Nat.add_assoc], ts, chunks, ?_⟩
    rw [byteLength, ← Nat.add_assoc]
    exact .blank hc hlaid
  | @comment shown rest hremark _ ih =>
    obtain ⟨fuel', hfuel', heq⟩ := scanAll_comment offset hremark hfuel
    obtain ⟨front, body, kind, closing, rfl, ⟨d, hd, hpoint⟩, hclosing, rfl, ts, chunks, hlaid⟩ :=
      ih (herror (heq ▸ h)) hfuel' (gap ++ shown)
    have hremark' := hremark.append (List.ne_nil_of_mem (List.mem_append_right front hd)) closing
    refine ⟨shown ++ front, body, kind, closing, (List.append_assoc ..).symm, ⟨d, hd, hpoint⟩, hclosing, ?_,
      ⟨.comment, String.ofList shown, offset⟩ :: ts, chunks, ?_⟩
    · rw [byteLength_append, Nat.add_assoc]
    · rw [byteLength_append, ← Nat.add_assoc, List.append_assoc shown]
      exact .comment hremark' hlaid
  | @token shown rest kind' hkind hblank hne hscan _ ih =>
    obtain ⟨fuel', hfuel', heq⟩ := scanAll_token offset hblank hne hscan hfuel
    obtain ⟨front, body, kind, closing, rfl, ⟨d, hd, hpoint⟩, hclosing, rfl, ts, chunks, hlaid⟩ :=
      ih (herror (heq ▸ h)) hfuel' []
    have hresumes := resumes_append_of_mem_closings hclosing ⟨d, List.mem_append_right front hd, hpoint⟩
    have hscan' := (scanToken?_again hscan hkind).2.2 _ hresumes
    refine ⟨shown ++ front, body, kind, closing, (List.append_assoc ..).symm, ⟨d, hd, hpoint⟩, hclosing, ?_,
      ⟨kind', String.ofList shown, offset⟩ :: ts, ⟨gap, kind', shown⟩ :: chunks, ?_⟩
    · rw [byteLength_append, Nat.add_assoc]
    · rw [byteLength_append, ← Nat.add_assoc, List.append_assoc shown]
      exact .token hkind hblank hne hscan' hlaid
  | @stuck cs hblank hne hscan =>
    obtain ⟨fuel, rfl⟩ := Nat.exists_eq_add_one_of_ne_zero (Nat.ne_zero_of_lt hfuel)
    rw [scanAll_stuck hblank hne hscan] at h
    cases h
    obtain ⟨kind, closing, hclosing, hbody, hclosed⟩ := scanToken?_closed hne hscan
    have hblank' : ∀ c, (cs ++ closing).head? = some c → Text.isBlank c = false := by
      rwa [List.head?_append_of_ne_nil _ hne]
    obtain ⟨chunks, hlaid⟩ := exists_laid_of_scanToken? hblank' (by simp [hne]) hclosed offset gap
    exact ⟨[], cs, kind, closing, rfl, hbody, hclosing, rfl, [], chunks, hlaid⟩

end ItemQuery.Sql
