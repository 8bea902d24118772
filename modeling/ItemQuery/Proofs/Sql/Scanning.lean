import ItemQuery.Proofs.Text.Cutting
import ItemQuery.Proofs.Text.Quoting

/-! Which tokens a text gives. A text is scanned phrase by phrase, a phrase being a token without its place; each
    kind of phrase is read back as long as a delimiter follows it. -/

namespace ItemQuery.Sql

/-! ### Phrases -/

/-- What a token says. -/
inductive Phrase where
  | word (keyword : Keyword)
  | name (shown : String)
  | number (shown : String)
  | string (shown : String)
  | symbol (shown : String)
  | comment
deriving DecidableEq, Repr, Inhabited

/-- What a token of this kind and text says. -/
def Phrase.of : TokenKind → String → Phrase
  | .keyword k, _ => word k
  | .identifier, shown => name shown
  | .number, shown => number shown
  | .string, shown => string shown
  | .operator, shown => symbol shown
  | .comment, _ => comment

/-- What the token says. -/
def Token.phrase (t : Token) : Phrase :=
  .of t.kind t.text

/-- The phrases of a text, each found at the start of what is left after blanks. -/
inductive Scanned : List Char → List Phrase → Prop
  | nil : Scanned [] []
  | blank {c : Char} {cs : List Char} {ps : List Phrase} (hc : Text.isBlank c = true) (h : Scanned cs ps) :
      Scanned (c :: cs) ps
  | phrase {c : Char} {cs shown rest : List Char} {kind : TokenKind} {ps : List Phrase}
      (hc : Text.isBlank c = false) (hscan : scanToken? (c :: cs) = some (kind, shown, rest))
      (hrest : rest.length ≤ cs.length) (h : Scanned rest ps) :
      Scanned (c :: cs) (.of kind (String.ofList shown) :: ps)

theorem scanAll_blank {c : Char} (hc : Text.isBlank c = true) (fuel offset : Nat) (cs : List Char) :
    scanAll (fuel + 1) offset (c :: cs) = scanAll (fuel + 1) (offset + c.utf8Size) cs := by
  simp only [scanAll, spanWhile, List.takeWhile_cons, List.dropWhile_cons, hc, if_true, byteLength, Nat.add_assoc]

/-- Scanning gives one token for each phrase. -/
theorem Scanned.scanAll {cs : List Char} {ps : List Phrase} (h : Scanned cs ps) {fuel : Nat} (offset : Nat)
    (hfuel : cs.length < fuel) : ∃ ts, scanAll fuel offset cs = .ok ts ∧ ts.map Token.phrase = ps := by
  induction h generalizing fuel offset with
  | nil =>
    cases fuel with
    | zero => exact absurd hfuel (Nat.not_lt_zero _)
    | succ fuel => exact ⟨[], rfl, rfl⟩
  | @blank c cs ps hc _ ih =>
    cases fuel with
    | zero => exact absurd hfuel (Nat.not_lt_zero _)
    | succ fuel =>
      rw [scanAll_blank hc]
      exact ih (offset + c.utf8Size) (Nat.lt_of_succ_lt hfuel)
  | @phrase c cs shown rest kind ps hc hscan hrest _ ih =>
    cases fuel with
    | zero => exact absurd hfuel (Nat.not_lt_zero _)
    | succ fuel =>
      rw [List.length_cons, Nat.succ_lt_succ_iff] at hfuel
      obtain ⟨ts, hts, hphrases⟩ := ih (offset + byteLength shown) (Nat.lt_of_le_of_lt hrest hfuel)
      refine ⟨⟨kind, String.ofList shown, offset⟩ :: ts, ?_, ?_⟩
      · simp only [Sql.scanAll, spanWhile, List.takeWhile_cons, List.dropWhile_cons, hc, Bool.false_eq_true, if_false,
          byteLength, Nat.add_zero, hscan, hts, Except.map]
      · rw [List.map_cons, hphrases]
        rfl

/-! ### Delimiters -/

/-- What follows a phrase ends it: nothing, a blank, a closing parenthesis or a comma. -/
def Delimited (rest : List Char) : Prop :=
  ∀ c, rest.head? = some c → c = ' ' ∨ c = ')' ∨ c = ','

theorem delimited_nil : Delimited [] :=
  nofun

theorem delimited_cons {c : Char} (h : c = ' ' ∨ c = ')' ∨ c = ',') (cs : List Char) : Delimited (c :: cs) := by
  intro d hd
  cases hd
  exact h

theorem Delimited.head?_ne {rest : List Char} (h : Delimited rest) {c : Char} (hc : c ≠ ' ' ∧ c ≠ ')' ∧ c ≠ ',') :
    rest.head? ≠ some c := by
  intro hd
  rcases h c hd with rfl | rfl | rfl
  · exact hc.1 rfl
  · exact hc.2.1 rfl
  · exact hc.2.2 rfl

/-- A run of characters of a class ends where a character outside of it follows. -/
theorem spanWhile_append {p : Char → Bool} {cs rest : List Char} (hcs : ∀ c ∈ cs, p c = true)
    (hrest : ∀ c, rest.head? = some c → p c = false) : spanWhile p (cs ++ rest) = (cs, rest) := by
  have htake : rest.takeWhile p = [] ∧ rest.dropWhile p = rest := by
    cases rest with
    | nil => exact ⟨rfl, rfl⟩
    | cons c cs =>
      have hc := hrest c rfl
      simp [hc]
  rw [spanWhile, List.takeWhile_append_of_pos hcs, List.dropWhile_append_of_pos hcs, htake.1, htake.2,
    List.append_nil]

/-! ### Letters and digits -/

theorem isAlpha_iff_toNat {c : Char} :
    c.isAlpha = true ↔ (65 ≤ c.toNat ∧ c.toNat ≤ 90) ∨ (97 ≤ c.toNat ∧ c.toNat ≤ 122) :=
  Bool.or_eq_true_iff.trans (or_congr decide_eq_true_iff
    (Bool.and_eq_true_iff.trans (and_congr decide_eq_true_iff decide_eq_true_iff)))

theorem isBlank_eq_false_of_isAlpha {c : Char} (h : c.isAlpha = true) : Text.isBlank c = false := by
  have hcode := isAlpha_iff_toNat.mp h
  simp only [Text.isBlank, Bool.or_eq_false_iff, Bool.and_eq_false_iff, decide_eq_false_iff_not, beq_eq_false_iff_ne]
  omega

theorem isAlphabetic_of_isAlpha {c : Char} (h : c.isAlpha = true) : Text.isAlphabetic c = true := by
  have hcode : c.toNat < 0x80 := by
    rcases isAlpha_iff_toNat.mp h with hcode | hcode <;> omega
  rw [Text.isAlphabetic, if_pos hcode, h]

theorem startsWord_of_isAlpha {c : Char} (h : c.isAlpha = true) : startsWord c = true := by
  simp [startsWord, isAlphabetic_of_isAlpha h]

theorem continuesWord_of_isAlpha {c : Char} (h : c.isAlpha = true) : continuesWord c = true := by
  simp [continuesWord, Text.isAlphanumeric, isAlphabetic_of_isAlpha h]

theorem isDigit_eq_false_of_startsWord {c : Char} (h : startsWord c = true) : c.isDigit = false := by
  rw [← Bool.not_eq_true]
  intro hd
  have hcode := Char.isDigit_iff_toNat.mp hd
  simp only [Char.reduceToNat] at hcode
  have halpha : Text.isAlphabetic c = false := by
    rw [Text.isAlphabetic, if_pos (by omega), ← Bool.not_eq_true, isAlpha_iff_toNat]
    omega
  simp only [startsWord, halpha, Bool.false_or, Bool.or_eq_true, beq_iff_eq] at h
  rcases h with (rfl | rfl) | rfl <;> exact absurd hd (by decide)

/-! ### Recognizers that do not apply -/

theorem comment_eq_absent {c : Char} (hdash : c ≠ '-') (hslash : c ≠ '/') (cs : List Char) :
    comment (c :: cs) = .absent := by
  unfold comment
  split
  · rename_i h
    exact absurd (List.cons.inj h).1 hdash
  · rename_i h
    exact absurd (List.cons.inj h).1 hslash
  · rfl

theorem stringLiteral_eq_absent {c : Char} (hc : c ≠ '\'') {cs : List Char}
    (hcs : cs.head? = some '\'' → ¬(c = 'N' ∨ c = 'n')) : stringLiteral (c :: cs) = .absent := by
  unfold stringLiteral
  split
  · rename_i h
    exact absurd (List.cons.inj h).1 hc
  · rename_i h
    obtain ⟨rfl, rfl⟩ := List.cons.inj h
    rw [if_neg (hcs rfl)]
  · rfl

theorem number?_eq_none {c : Char} (hdigit : c.isDigit = false) (hpoint : c ≠ '.') (cs : List Char) :
    number? (c :: cs) = none := by
  have hspan : spanWhile Char.isDigit (c :: cs) = ([], c :: cs) := by
    simp [spanWhile, hdigit]
  simp only [number?, mantissa?, hspan, Option.map_eq_none_iff]
  split
  · rename_i h
    exact absurd (List.cons.inj h).1 hpoint
  · rfl
  all_goals simp_all

/-- A text that starts with none of a comment, a quote or a number is a name or an operator. -/
theorem scanToken?_eq_firstOf {c : Char} (hdash : c ≠ '-') (hslash : c ≠ '/') (hquote : c ≠ '\'')
    (hdigit : c.isDigit = false) (hpoint : c ≠ '.') {cs : List Char}
    (hcs : cs.head? = some '\'' → ¬(c = 'N' ∨ c = 'n')) :
    scanToken? (c :: cs) = firstOf (c :: cs) [(identifier, nameKind), (operator, fun _ => .operator)] := by
  simp only [scanToken?, firstOf, comment_eq_absent hdash hslash, stringLiteral_eq_absent hquote hcs,
    number?_eq_none hdigit hpoint, Scan.ofOption]

/-! ### Texts and numbers -/

theorem scanToken?_string (s : String) {rest : List Char} (h : rest.head? ≠ some '\'') :
    scanToken? ((Text.quoted s).toList ++ rest) = some (.string, (Text.quoted s).toList, rest) := by
  have hshape : (Text.quoted s).toList ++ rest = '\'' :: (Text.doubled '\'' s.toList ++ '\'' :: rest) := by
    rw [Text.quoted, Text.toList_quotedBy, List.cons_append, List.append_assoc, List.singleton_append]
  have hcomment : comment ('\'' :: (Text.doubled '\'' s.toList ++ '\'' :: rest)) = .absent :=
    comment_eq_absent (by decide) (by decide) _
  rw [hshape, scanToken?]
  simp only [firstOf, hcomment, stringLiteral, quotedTail?_doubled h, Scan.committed, Split.after]
  rw [Text.quoted, Text.toList_quotedBy, List.singleton_append]

theorem exponent_of_delimited {rest : List Char} (h : Delimited rest) : exponent rest = ([], rest) := by
  cases rest with
  | nil => rfl
  | cons c cs =>
    have hc : ¬(c = 'e' ∨ c = 'E') := by
      rcases h c rfl with rfl | rfl | rfl <;> decide
    simp only [exponent, hc, false_and, if_false]

theorem isDigit_of_delimiter {c : Char} (h : c = ' ' ∨ c = ')' ∨ c = ',') : c.isDigit = false := by
  rcases h with rfl | rfl | rfl <;> decide

theorem scanToken?_of_number? {d : Char} {ds rest : List Char} (hd : d.isDigit = true)
    (h : number? (d :: ds ++ rest) = some (d :: ds, rest)) :
    scanToken? (d :: ds ++ rest) = some (.number, d :: ds, rest) := by
  have hnot : ∀ c : Char, c.isDigit = false → d ≠ c := by
    rintro c hc rfl
    rw [hd] at hc
    cases hc
  have hletter : ¬(d = 'N' ∨ d = 'n') := not_or.mpr ⟨hnot 'N' (by decide), hnot 'n' (by decide)⟩
  rw [List.cons_append] at h ⊢
  simp only [scanToken?, firstOf, comment_eq_absent (hnot '-' (by decide)) (hnot '/' (by decide)),
    stringLiteral_eq_absent (hnot '\'' (by decide)) fun _ => hletter, h, Scan.ofOption]

theorem number?_digits {ds : List Char} (hne : ds ≠ []) (hds : ∀ d ∈ ds, d.isDigit = true) {rest : List Char}
    (h : Delimited rest) : number? (ds ++ rest) = some (ds, rest) := by
  have hspan : spanWhile Char.isDigit (ds ++ rest) = (ds, rest) :=
    spanWhile_append hds fun c hc => isDigit_of_delimiter (h c hc)
  have hmantissa : mantissa? (ds ++ rest) = some (ds, rest) := by
    simp only [mantissa?, hspan]
    split
    · exact absurd rfl hne
    · exact absurd rfl hne
    · rcases h '.' rfl with hc | hc | hc <;> exact absurd hc (by decide)
    · rfl
  simp only [number?, hmantissa, Option.map_some, exponent_of_delimited h, Split.after, List.append_nil]

/-! ### Names -/

/-- A first character and further ones that make up one word. -/
structure IsWord (cs : List Char) : Prop where
  ne_nil : cs ≠ []
  head : ∀ c, cs.head? = some c → startsWord c = true
  tail : ∀ c ∈ cs.tail, continuesWord c = true

theorem spanWhile_append_of_stop {p : Char → Bool} {rest : List Char} (hrest : ∀ c, rest.head? = some c → p c = false)
    (cs : List Char) : spanWhile p (cs ++ rest) = (cs.takeWhile p, cs.dropWhile p ++ rest) := by
  induction cs with
  | nil => exact spanWhile_append nofun hrest
  | cons c cs ih =>
    simp only [spanWhile, Prod.mk.injEq] at ih ⊢
    cases hc : p c with
    | false => simp [hc]
    | true => simp [hc, ih]

/-- A word ends where a character that cannot belong to one follows. -/
theorem IsWord.word? {cs rest : List Char} (h : IsWord cs)
    (hrest : ∀ c, rest.head? = some c → startsWord c = false ∧ continuesWord c = false) :
    Sql.word? (cs ++ rest) = some (cs, rest) := by
  obtain ⟨c, cs, rfl⟩ := List.exists_cons_of_ne_nil h.ne_nil
  have hc := h.head c rfl
  have hdrop : ∀ d ∈ (c :: cs).dropWhile startsWord, continuesWord d = true := by
    intro d hd
    rw [List.dropWhile_cons_of_pos hc] at hd
    exact h.tail d ((List.dropWhile_sublist _).subset hd)
  have hfirst := spanWhile_append_of_stop (fun d hd => (hrest d hd).1) (c :: cs)
  have hmore := spanWhile_append hdrop fun d hd => (hrest d hd).2
  have hne : ((c :: cs).takeWhile startsWord).isEmpty = false := by
    simp [hc]
  simp only [Sql.word?, hfirst, hmore, hne, Bool.false_eq_true, if_false, Split.after, List.takeWhile_append_dropWhile]

theorem IsWord.segment {cs rest : List Char} (h : IsWord cs)
    (hrest : ∀ c, rest.head? = some c → startsWord c = false ∧ continuesWord c = false) :
    Sql.segment (cs ++ rest) = .found (cs, rest) := by
  have hword := h.word? hrest
  obtain ⟨c, cs, rfl⟩ := List.exists_cons_of_ne_nil h.ne_nil
  have hc := h.head c rfl
  rw [List.cons_append] at hword ⊢
  unfold Sql.segment
  split
  · rename_i heq
    rw [(List.cons.inj heq).1] at hc
    exact absurd hc (by decide)
  · rename_i heq
    rw [(List.cons.inj heq).1] at hc
    exact absurd hc (by decide)
  · rw [hword, Scan.ofOption]

theorem delimiter_not_word {c : Char} (h : c = ' ' ∨ c = ')' ∨ c = ',') :
    startsWord c = false ∧ continuesWord c = false := by
  rcases h with rfl | rfl | rfl <;> decide

theorem moreSegments_of_delimited {rest : List Char} (h : Delimited rest) (fuel : Nat) :
    moreSegments fuel rest = .found ([], rest) := by
  cases fuel with
  | zero => rfl
  | succ fuel =>
    unfold moreSegments
    split
    · rcases h '.' rfl with hc | hc | hc <;> exact absurd hc (by decide)
    · rfl

/-- A single word is a name. -/
theorem IsWord.identifier {cs rest : List Char} (h : IsWord cs) (hrest : Delimited rest) :
    Sql.identifier (cs ++ rest) = .found (cs, rest) := by
  rw [Sql.identifier, h.segment fun c hc => delimiter_not_word (hrest c hc)]
  simp only [moreSegments_of_delimited hrest, Split.after, List.append_nil]

/-- A word and a part after a point are a name. -/
theorem IsWord.identifier_dotted {owner part rest : List Char} (h : IsWord owner)
    (hpart : Sql.segment (part ++ rest) = .found (part, rest)) (hrest : Delimited rest) :
    Sql.identifier (owner ++ '.' :: (part ++ rest)) = .found (owner ++ '.' :: part, rest) := by
  have howner : Sql.segment (owner ++ '.' :: (part ++ rest)) = .found (owner, '.' :: (part ++ rest)) := by
    refine h.segment fun c hc => ?_
    cases hc
    decide
  rw [Sql.identifier, howner]
  simp only [List.length_cons, moreSegments, hpart, moreSegments_of_delimited hrest, Split.after, List.append_nil]

theorem segment_quotedBy {opening closing : Char} (hmarks : IsNameMarks opening closing) (name : String)
    {rest : List Char} (h : rest.head? ≠ some closing) :
    segment ((Text.quotedBy opening closing name).toList ++ rest)
      = .found ((Text.quotedBy opening closing name).toList, rest) := by
  rcases hmarks with ⟨rfl, rfl⟩ | ⟨rfl, rfl⟩ <;>
    simp only [Text.toList_quotedBy, List.cons_append, List.append_assoc, segment, quotedTail?_doubled h,
      Scan.committed, Split.after, List.nil_append]

/-- A text that starts like a word and is recognized as a name is one token. -/
theorem scanToken?_name {c : Char} {cs rest : List Char} (hc : startsWord c = true)
    (hnext : (cs ++ rest).head? ≠ some '\'') (hname : identifier (c :: cs ++ rest) = .found (c :: cs, rest)) :
    scanToken? (c :: cs ++ rest) = some (nameKind (c :: cs), c :: cs, rest) := by
  have hnot : ∀ d : Char, startsWord d = false → c ≠ d := by
    rintro d hd rfl
    rw [hc] at hd
    cases hd
  have hdigit := isDigit_eq_false_of_startsWord hc
  rw [List.cons_append] at hname ⊢
  rw [scanToken?_eq_firstOf (hnot '-' (by decide)) (hnot '/' (by decide)) (hnot '\'' (by decide)) hdigit
    (hnot '.' (by decide)) (absurd · hnext)]
  simp only [firstOf, hname]

/-- A word with one of these characters is no keyword. -/
theorem Keyword.ofWord?_eq_none {word : String} {c : Char} (hmem : c ∈ word.toList) (hc : c = '.' ∨ c = '@') :
    Keyword.ofWord? word = none := by
  have hlow : c ∈ word.toLower.toList := by
    rw [Text.toList_toLower, List.mem_map]
    exact ⟨c, hmem, by rcases hc with rfl | rfl <;> decide⟩
  unfold Keyword.ofWord?
  split
  case h_9 => rfl
  all_goals
    rename_i h
    rw [h] at hlow
    rcases hc with rfl | rfl <;> exact absurd hlow (by decide)

theorem nameKind_eq_identifier {cs : List Char} {c : Char} (hmem : c ∈ cs) (hc : c = '.' ∨ c = '@') :
    nameKind cs = .identifier := by
  rw [nameKind, Keyword.ofWord?_eq_none (by rwa [String.toList_ofList]) hc]
  rfl

/-! ### Printed phrases -/

/-- A text gives these phrases wherever it stands before a delimiter. -/
def Prints (cs : List Char) (ps : List Phrase) : Prop :=
  ∀ rest qs, Delimited rest → Scanned rest qs → Scanned (cs ++ rest) (ps ++ qs)

theorem Prints.scanned {cs : List Char} {ps : List Phrase} (h : Prints cs ps) : Scanned cs ps := by
  have hall := h [] [] delimited_nil .nil
  rwa [List.append_nil, List.append_nil] at hall

/-- A single token. -/
theorem prints_token {c : Char} {cs : List Char} {kind : TokenKind} (hc : Text.isBlank c = false)
    (hscan : ∀ rest, Delimited rest → scanToken? (c :: cs ++ rest) = some (kind, c :: cs, rest)) :
    Prints (c :: cs) [.of kind (String.ofList (c :: cs))] := by
  intro rest qs hrest hqs
  refine .phrase hc (hscan rest hrest) ?_ hqs
  change rest.length ≤ (cs ++ rest).length
  rw [List.length_append]
  omega

/-- Two texts with a blank between them. -/
theorem Prints.spaced {cs ds : List Char} {ps qs : List Phrase} (hcs : Prints cs ps) (hds : Prints ds qs) :
    Prints (cs ++ ' ' :: ds) (ps ++ qs) := by
  intro rest rs hrest hrs
  rw [List.append_assoc, List.append_assoc, List.cons_append]
  exact hcs _ _ (delimited_cons (Or.inl rfl) _) (.blank rfl (hds _ _ hrest hrs))

theorem scanToken?_mark {c : Char} (hc : c = '(' ∨ c = ')' ∨ c = ',') (cs : List Char) :
    scanToken? (c :: cs) = some (.operator, [c], cs) := by
  rcases hc with rfl | rfl | rfl <;>
    (rw [scanToken?_eq_firstOf (by decide) (by decide) (by decide) (by decide) (by decide) (fun _ => by decide)]; rfl)

/-- A mark that ends by itself, followed by a text. -/
theorem Scanned.mark {c : Char} (hc : c = '(' ∨ c = ')' ∨ c = ',') {cs : List Char} {ps : List Phrase}
    (h : Scanned cs ps) : Scanned (c :: cs) (.symbol (String.singleton c) :: ps) := by
  refine .phrase ?_ (scanToken?_mark hc cs) (Nat.le_refl _) h
  rcases hc with rfl | rfl | rfl <;> rfl

/-- A text in parentheses. -/
theorem Prints.enclosed {cs : List Char} {ps : List Phrase} (h : Prints cs ps) :
    Prints ('(' :: (cs ++ [')'])) (.symbol "(" :: (ps ++ [.symbol ")"])) := by
  intro rest qs hrest hqs
  rw [List.cons_append, List.cons_append, List.append_assoc, List.append_assoc]
  refine .mark (Or.inl rfl) (h _ _ (delimited_cons (Or.inr (Or.inl rfl)) _) ?_)
  exact .mark (Or.inr (Or.inl rfl)) hqs

/-- A minus sign right before a text that does not start with one. -/
theorem Prints.negated {cs : List Char} {ps : List Phrase} (h : Prints cs ps) (hne : cs ≠ [])
    (hsign : cs.head? ≠ some '-') : Prints ('-' :: cs) (.symbol "-" :: ps) := by
  intro rest qs hrest hqs
  obtain ⟨d, ds, rfl⟩ := List.exists_cons_of_ne_nil hne
  have hd : d ≠ '-' := fun hd => hsign (by rw [hd, List.head?_cons])
  have hcomment : comment ('-' :: (d :: ds ++ rest)) = .absent := by
    unfold comment
    split
    · rename_i heq
      exact absurd (List.cons.inj (List.cons.inj heq).2).1 hd
    · rename_i heq
      exact absurd (List.cons.inj heq).1 (by decide)
    · rfl
  have hscan : scanToken? ('-' :: (d :: ds ++ rest)) = some (.operator, ['-'], d :: ds ++ rest) := by
    have hstring : stringLiteral ('-' :: (d :: ds ++ rest)) = .absent :=
      stringLiteral_eq_absent (by decide) fun _ => by decide
    simp only [scanToken?, firstOf, hcomment, hstring, number?_eq_none (c := '-') (by decide) (by decide)]
    rfl
  exact .phrase rfl hscan (Nat.le_refl _) (h rest qs hrest hqs)

/-! ### Kinds of phrases -/

theorem prints_string (s : String) : Prints (Text.quoted s).toList [.string (Text.quoted s)] := by
  have hscan := fun rest (h : Delimited rest) => scanToken?_string s (h.head?_ne (by decide : '\'' ≠ ' ' ∧ _))
  have hshape : (Text.quoted s).toList = '\'' :: (Text.doubled '\'' s.toList ++ ['\'']) := Text.toList_quotedBy _ _ _
  have htoken : Prints (Text.quoted s).toList [.of .string (String.ofList (Text.quoted s).toList)] := by
    rw [hshape] at hscan ⊢
    exact prints_token rfl hscan
  rwa [String.ofList_toList] at htoken

/-- A number, if it ends at a delimiter. -/
theorem prints_of_number? {s : String} {d : Char} {ds : List Char} (hs : s.toList = d :: ds) (hd : d.isDigit = true)
    (h : ∀ rest, Delimited rest → number? (s.toList ++ rest) = some (s.toList, rest)) : Prints s.toList [.number s] := by
  have htoken : Prints s.toList [.of .number (String.ofList s.toList)] := by
    rw [hs] at h ⊢
    exact prints_token (Text.isBlank_eq_false_of_isDigit hd) fun rest hrest => scanToken?_of_number? hd (h rest hrest)
  rwa [String.ofList_toList] at htoken

theorem prints_number {s : String} (hne : s.toList ≠ []) (hds : ∀ d ∈ s.toList, d.isDigit = true) :
    Prints s.toList [.number s] := by
  obtain ⟨d, ds, hs⟩ := List.exists_cons_of_ne_nil hne
  exact prints_of_number? hs (hds d (by simp [hs])) fun _ => number?_digits hne hds

theorem isWord_of_isAlpha {cs : List Char} (hne : cs ≠ []) (h : ∀ c ∈ cs, c.isAlpha = true) : IsWord cs := by
  refine ⟨hne, fun c hc => startsWord_of_isAlpha (h c (List.mem_of_mem_head? hc)), fun c hc => ?_⟩
  exact continuesWord_of_isAlpha (h c (List.mem_of_mem_tail hc))

/-- After the first character of a word no quote follows. -/
theorem IsWord.next_ne_quote {c : Char} {cs rest : List Char} (h : IsWord (c :: cs)) (hrest : rest.head? ≠ some '\'') :
    (cs ++ rest).head? ≠ some '\'' := by
  cases cs with
  | nil => exact hrest
  | cons d ds =>
    have hd := h.tail d List.mem_cons_self
    intro hq
    cases hq
    exact absurd hd (by decide)

/-- A word that stands alone: a keyword, or the name of a parameter. -/
theorem IsWord.prints {s : String} (h : IsWord s.toList) (hblank : ∀ c, s.toList.head? = some c → Text.isBlank c = false) :
    Prints s.toList [.of (nameKind s.toList) s] := by
  have htoken : Prints s.toList [.of (nameKind s.toList) (String.ofList s.toList)] := by
    obtain ⟨c, cs, hs⟩ := List.exists_cons_of_ne_nil h.ne_nil
    rw [hs] at h hblank ⊢
    refine prints_token (hblank c rfl) fun rest hrest => ?_
    exact scanToken?_name (h.head c rfl) (h.next_ne_quote (hrest.head?_ne (by decide))) (h.identifier hrest)
  rwa [String.ofList_toList] at htoken

/-- A keyword of one word. -/
theorem prints_word {s : String} {k : Keyword}
    (h : (s, k) ∈ [("and", .and), ("or", .or), ("not", .not), ("in", .inList), ("like", .like), ("between", .between),
      ("is", .is), ("null", .null)]) : Prints s.toList [.word k] := by
  have hword : s.toList ≠ [] ∧ s.toList.all Char.isAlpha = true ∧ nameKind s.toList = .keyword k := by
    revert s k
    simp only [List.mem_cons, List.not_mem_nil, Prod.mk.injEq, or_false]
    rintro s k (⟨rfl, rfl⟩ | ⟨rfl, rfl⟩ | ⟨rfl, rfl⟩ | ⟨rfl, rfl⟩ | ⟨rfl, rfl⟩ | ⟨rfl, rfl⟩ | ⟨rfl, rfl⟩ | ⟨rfl, rfl⟩) <;>
      decide +kernel
  obtain ⟨hne, hs, hk⟩ := hword
  have halpha := List.all_eq_true.mp hs
  have hprints := (isWord_of_isAlpha hne halpha).prints fun c hc =>
    isBlank_eq_false_of_isAlpha (halpha c (List.mem_of_mem_head? hc))
  rwa [hk] at hprints

/-- An operator between blanks. -/
theorem prints_operator {s : String} (hs : s.toList ≠ []) (hblank : ∀ c, s.toList.head? = some c → Text.isBlank c = false)
    (hscan : ∀ cs, scanToken? (s.toList ++ ' ' :: cs) = some (.operator, s.toList, ' ' :: cs))
    {cs ds : List Char} {ps qs : List Phrase} (hcs : Prints cs ps) (hds : Prints ds qs) :
    Prints (cs ++ ' ' :: (s.toList ++ ' ' :: ds)) (ps ++ .symbol s :: qs) := by
  intro rest rs hrest hrs
  have hright : Scanned (' ' :: (ds ++ rest)) (qs ++ rs) := .blank rfl (hds rest rs hrest hrs)
  have hsymbol : Scanned (s.toList ++ ' ' :: (ds ++ rest)) (.of .operator (String.ofList s.toList) :: (qs ++ rs)) := by
    have hscan := hscan (ds ++ rest)
    obtain ⟨c, cs, hcons⟩ := List.exists_cons_of_ne_nil hs
    rw [hcons] at hscan hblank ⊢
    refine .phrase (hblank c rfl) hscan ?_ hright
    simp only [List.length_cons, List.length_append, List.append_eq]
    omega
  rw [String.ofList_toList] at hsymbol
  have hall := hcs _ _ (delimited_cons (Or.inl rfl) _) (.blank rfl hsymbol)
  simpa only [List.append_assoc, List.cons_append, Phrase.of] using hall

/-- A name with its owner is one token: a word, a point and a part that is recognized as such. -/
theorem scanToken?_dotted {owner part : String} (hne : owner.toList ≠ []) (howner : ∀ c ∈ owner.toList, c.isAlpha = true)
    {rest : List Char} (hpart : segment (part.toList ++ rest) = .found (part.toList, rest)) (hrest : Delimited rest) :
    scanToken? ((owner ++ "." ++ part).toList ++ rest)
      = some (.identifier, (owner ++ "." ++ part).toList, rest) := by
  have hword := isWord_of_isAlpha hne howner
  have hshape : (owner ++ "." ++ part).toList = owner.toList ++ '.' :: part.toList := by
    simp
  have hkind : nameKind (owner ++ "." ++ part).toList = .identifier :=
    nameKind_eq_identifier (by rw [hshape]; simp) (Or.inl rfl)
  rw [← hkind, hshape]
  obtain ⟨c, cs, hs⟩ := List.exists_cons_of_ne_nil hne
  rw [hs] at hword ⊢
  have hname := hword.identifier_dotted hpart hrest
  have hnext : (cs ++ '.' :: (part.toList ++ rest)).head? ≠ some '\'' := hword.next_ne_quote nofun
  refine scanToken?_name (hword.head c rfl) ?_ ?_
  · simpa only [List.append_eq, List.append_assoc, List.cons_append] using hnext
  · simpa only [List.append_eq, List.append_assoc, List.cons_append] using hname

theorem prints_dotted {owner part : String} (hne : owner.toList ≠ []) (howner : ∀ c ∈ owner.toList, c.isAlpha = true)
    (hpart : ∀ rest, Delimited rest → segment (part.toList ++ rest) = .found (part.toList, rest)) :
    Prints (owner ++ "." ++ part).toList [.name (owner ++ "." ++ part)] := by
  have hscan := fun rest (hrest : Delimited rest) => scanToken?_dotted hne howner (hpart rest hrest) hrest
  have htoken : Prints (owner ++ "." ++ part).toList
      [.of .identifier (String.ofList (owner ++ "." ++ part).toList)] := by
    obtain ⟨c, cs, hs⟩ := List.exists_cons_of_ne_nil hne
    have hshape : (owner ++ "." ++ part).toList = c :: (cs ++ '.' :: part.toList) := by
      simp [hs]
    rw [hshape] at hscan ⊢
    exact prints_token (isBlank_eq_false_of_isAlpha (howner c (by rw [hs]; exact List.mem_cons_self))) hscan
  rwa [String.ofList_toList] at htoken

end ItemQuery.Sql
