import Mathlib.Data.List.Chain
import ItemQuery.Proofs.Sql.Placeless

/-! White space and comments never change what is read. The words of a text can be set apart in another way, with any
    blanks and comments between them: each token is found again, the same words are joined, and the expression is the
    same. -/

namespace ItemQuery.Sql

variable {cs gap rest shown : List Char} {offset : Nat} {ts done done' : List Token} {chunks chunks' : List Chunk}
  {c d : Chunk} {s : Joining} {kind : TokenKind} {texts : List String} {word : Keyword}

/-! ### Chunks of a text -/

/-- What may follow a token of this kind: a keyword ends before a comment too. -/
def Ends (kind : TokenKind) (rest : List Char) : Prop :=
  ∀ c, rest.head? = some c → isStop c = true ∨ kind.word?.isSome = true ∧ (c = '-' ∨ c = '/')

/-- The chunk is found wherever its token may end. -/
structure Chunk.Sound (c : Chunk) : Prop where
  kind : c.kind ≠ .comment
  ne_nil : c.shown ≠ []
  head : ∀ d, c.shown.head? = some d → Text.isBlank d = false
  again : ∀ rest, Ends c.kind rest → scanToken? (c.shown ++ rest) = some (c.kind, c.shown, rest)

theorem sound_of_scanToken? (hkind : kind ≠ .comment) (hblank : ∀ c, shown.head? = some c → Text.isBlank c = false)
    (hscan : scanToken? (shown ++ rest) = some (kind, shown, rest)) (gap : List Char) : Chunk.Sound ⟨gap, kind, shown⟩ where
  kind := hkind
  ne_nil := (scanToken?_append hscan).2
  head := hblank
  again rest' hrest' := by
    cases kind with
    | keyword k => exact scanToken?_keyword hscan fun c hc => (hrest' c hc).imp_right And.right
    | comment => exact absurd rfl hkind
    | _ =>
      refine (scanToken?_again hscan hkind).2.2 rest' (resumes_of_isStop (fun c hc => ?_) _)
      exact (hrest' c hc).resolve_right fun h => Bool.false_ne_true h.1

theorem Laid.sound (h : Laid offset gap cs ts chunks) : ∀ c ∈ chunks, c.Sound := by
  induction h with
  | nil => exact List.forall_mem_nil _
  | blank _ _ ih => exact ih
  | comment _ _ ih => exact ih
  | token hkind hblank _ hscan _ ih => exact List.forall_mem_cons.mpr ⟨sound_of_scanToken? hkind hblank hscan _, ih⟩

/-- Blanks and comments. A comment up to the end of its line is followed by that end. -/
inductive Filler : List Char → Prop
  | nil : Filler []
  | blank {c : Char} {cs : List Char} (hc : Text.isBlank c = true) (h : Filler cs) : Filler (c :: cs)
  | remark {shown rest : List Char} (hremark : Remark (shown, rest))
      (hne : shown.head? = some '-' → rest ≠ []) (h : Filler rest) : Filler (shown ++ rest)

theorem Filler.head (h : Filler cs) (hne : cs ≠ []) :
    ∃ c, cs.head? = some c ∧ (Text.isBlank c = true ∨ c = '-' ∨ c = '/') := by
  cases h with
  | nil => exact absurd rfl hne
  | blank hc => exact ⟨_, rfl, .inl hc⟩
  | remark hremark =>
    cases hremark with
    | block => exact ⟨_, rfl, .inr (.inr rfl)⟩
    | line => exact ⟨_, rfl, .inr (.inl rfl)⟩

/-- A word may end where blanks and comments begin. -/
theorem Filler.ends (h : Filler cs) (hne : cs ≠ []) (hkind : kind.word?.isSome = true) : Ends kind cs := by
  intro c hc
  obtain ⟨d, hd, hcases⟩ := h.head hne
  rw [hd] at hc
  cases hc
  rcases hcases with hblank | hmark
  · exact .inl (by rw [isStop, hblank, Bool.true_or])
  · exact .inr ⟨hkind, hmark⟩

theorem Filler.laid (h : Filler cs) (hrest : Laid (offset + byteLength cs) (gap ++ cs) rest ts chunks) :
    ∃ ts, Laid offset gap (cs ++ rest) ts chunks := by
  induction h generalizing offset gap with
  | nil =>
    rw [List.append_nil, byteLength, Nat.add_zero] at hrest
    exact ⟨ts, hrest⟩
  | @blank c cs hc _ ih =>
    rw [byteLength, ← Nat.add_assoc, ← List.singleton_append, ← List.append_assoc] at hrest
    obtain ⟨ts, hlaid⟩ := ih hrest
    exact ⟨ts, .blank hc hlaid⟩
  | @remark shown more hremark hne _ ih =>
    rw [byteLength_append, ← Nat.add_assoc, ← List.append_assoc] at hrest
    obtain ⟨ts, hlaid⟩ := ih hrest
    have hremark' : Remark (shown, more ++ rest) := by
      cases hremark with
      | block hbody => exact .block hbody
      | line hbody hend => exact Remark.append (.line hbody hend) (hne rfl) rest
    rw [List.append_assoc]
    exact ⟨_, .comment hremark' hlaid⟩

/-- A character in front of a token is not a blank. -/
theorem Remark.filler (h : Remark (shown, gap ++ rest)) (hgap : Filler gap) (hne : rest ≠ [])
    (hrest : ∀ c, rest.head? = some c → Text.isBlank c = false) : Filler (shown ++ gap) := by
  cases h with
  | block hbody => exact .remark (.block hbody) (by simp) hgap
  | line hbody hend =>
    -- The end of the line lies in the gap, because no token starts with it.
    have hstart : ∀ {gap : List Char} (c : Char), Text.isBlank c = true → (gap ++ rest).head? = some c →
        ∃ more, gap = c :: more := by
      intro gap c hc hhead
      cases gap with
      | nil =>
        rw [hrest c hhead] at hc
        cases hc
      | cons d more =>
        cases hhead
        exact ⟨more, rfl⟩
    rcases hend with hnil | ⟨more, hmore⟩ | ⟨more, hmore⟩
    · exact absurd (List.append_eq_nil_iff.mp hnil).2 hne
    · obtain ⟨more', rfl⟩ := hstart '\n' rfl (by rw [hmore]; rfl)
      exact .remark (.line hbody (.inr (.inl ⟨more', rfl⟩))) (fun _ => List.cons_ne_nil _ _) hgap
    · obtain ⟨more', rfl⟩ := hstart '\r' rfl (by rw [hmore]; rfl)
      rw [List.cons_append] at hmore
      obtain ⟨more'', rfl⟩ := hstart '\n' rfl (by rw [(List.cons.inj hmore).2]; rfl)
      exact .remark (.line hbody (.inr (.inr ⟨more'', rfl⟩))) (fun _ => List.cons_ne_nil _ _) hgap

/-- What stands in front of the tokens of a text. -/
theorem Laid.filler (h : Laid offset gap cs ts chunks) :
    (∀ c more, chunks = c :: more → ∃ g tail, c.gap = gap ++ g ∧ Filler g ∧ cs = g ++ (c.shown ++ tail)) ∧
      ∀ c ∈ chunks.tail, Filler c.gap := by
  have hall : ∀ {chunks : List Chunk} {cs : List Char},
      ((∀ c more, chunks = c :: more → ∃ g tail, c.gap = [] ++ g ∧ Filler g ∧ cs = g ++ (c.shown ++ tail)) ∧
        ∀ c ∈ chunks.tail, Filler c.gap) → ∀ c ∈ chunks, Filler c.gap := by
    rintro chunks cs ⟨hfirst, hmore⟩ c hc
    cases chunks with
    | nil => cases hc
    | cons d more =>
      rcases List.mem_cons.mp hc with rfl | hc
      · obtain ⟨g, -, hgap, hfiller, -⟩ := hfirst c more rfl
        rwa [hgap]
      · exact hmore c hc
  induction h with
  | nil => exact ⟨nofun, List.forall_mem_nil _⟩
  | @blank offset gap cs ts chunks d hd _ ih =>
    refine ⟨fun c more hchunks => ?_, ih.2⟩
    obtain ⟨g, tail, hgap, hfiller, rfl⟩ := ih.1 c more hchunks
    exact ⟨d :: g, tail, by simp [hgap], .blank hd hfiller, rfl⟩
  | @comment offset gap shown rest ts chunks hremark hlaid ih =>
    refine ⟨fun c more hchunks => ?_, ih.2⟩
    obtain ⟨g, tail, hgap, hfiller, rfl⟩ := ih.1 c more hchunks
    have hc := hlaid.sound c (by rw [hchunks]; exact List.mem_cons_self)
    refine ⟨shown ++ g, tail, by rw [hgap, List.append_assoc], ?_, by rw [List.append_assoc]⟩
    refine hremark.filler hfiller (by simp [hc.ne_nil]) ?_
    rw [List.head?_append_of_ne_nil _ hc.ne_nil]
    exact hc.head
  | @token offset gap shown rest ts chunks kind _ _ _ _ _ ih =>
    refine ⟨?_, hall ih⟩
    rintro c more ⟨⟩
    exact ⟨[], rest, by simp, .nil, rfl⟩

/-- Two keywords do not stand next to each other. -/
theorem Laid.apart (h : Laid offset gap cs ts chunks) :
    chunks.IsChain fun c d => c.kind.word?.isSome = true → d.kind.word?.isSome = true → d.gap ≠ [] := by
  induction h with
  | nil => exact .nil
  | blank _ _ ih => exact ih
  | comment _ _ ih => exact ih
  | @token offset gap shown rest ts chunks kind hkind hblank hne hscan hlaid ih =>
    cases chunks with
    | nil => exact .singleton _
    | cons d chunks =>
      refine .cons_cons (fun hc hd hgap => ?_) ih
      obtain ⟨g, tail, hd', -, hrest⟩ := hlaid.filler.1 d chunks rfl
      rw [hgap, List.nil_append] at hd'
      subst hd'
      obtain ⟨j, hj⟩ : ∃ j, d.kind = .keyword j := by
        cases hk : d.kind <;> simp_all [TokenKind.word?]
      obtain ⟨k, rfl⟩ : ∃ k, kind = .keyword k := by
        cases kind <;> simp_all [TokenKind.word?]
      have hsound := hlaid.sound d List.mem_cons_self
      have hd'' := hsound.again [] nofun
      rw [hj] at hd''
      obtain ⟨-, -, halpha⟩ := identifier_of_keyword hd''
      obtain ⟨e, word, he⟩ := List.exists_cons_of_ne_nil hsound.ne_nil
      have hletter := halpha e (by rw [he]; exact List.mem_cons_self)
      rw [not_isAlpha_of_keyword hscan e (by rw [hrest, he]; rfl)] at hletter
      cases hletter

/-! ### Texts from chunks -/

/-- The text of a chunk. -/
def Chunk.text (c : Chunk) : List Char :=
  c.gap ++ c.shown

/-- Chunks that make up a text: each token ends where the next gap starts. -/
structure Coherent (chunks : List Chunk) : Prop where
  sound : ∀ c ∈ chunks, c.Sound
  filler : ∀ c ∈ chunks, Filler c.gap
  ends : chunks.IsChain fun c d => d.gap ≠ [] ∧ Ends c.kind d.gap

theorem Coherent.laid (h : Coherent chunks) (offset : Nat) :
    ∃ ts, Laid offset [] (chunks.flatMap Chunk.text) ts chunks := by
  obtain ⟨hsound, hfiller, hends⟩ := h
  induction chunks generalizing offset with
  | nil => exact ⟨[], .nil⟩
  | cons c chunks ih =>
    rw [List.forall_mem_cons] at hsound hfiller
    obtain ⟨ts, hlaid⟩ := ih (offset + byteLength c.gap + byteLength c.shown) hsound.2 hfiller.2 hends.tail
    have hrest : Ends c.kind (chunks.flatMap Chunk.text) := by
      cases chunks with
      | nil => exact nofun
      | cons d chunks =>
        obtain ⟨hne, hends⟩ := (List.isChain_cons_cons.mp hends).1
        intro e he
        rw [List.flatMap_cons, Chunk.text, List.append_assoc, List.head?_append_of_ne_nil _ hne] at he
        exact hends e he
    rw [List.flatMap_cons, Chunk.text, List.append_assoc]
    exact hfiller.1.laid (.token hsound.1.kind hsound.1.head hsound.1.ne_nil (hsound.1.again _ hrest) hlaid)

/-- One more chunk. -/
theorem Coherent.concat (h : Coherent chunks) (hc : c.Sound) (hgap : Filler c.gap)
    (hends : ∀ l, chunks.getLast? = some l → c.gap ≠ [] ∧ Ends l.kind c.gap) : Coherent (chunks ++ [c]) where
  sound := List.forall_mem_append.mpr ⟨h.sound, List.forall_mem_singleton.mpr hc⟩
  filler := List.forall_mem_append.mpr ⟨h.filler, List.forall_mem_singleton.mpr hgap⟩
  ends := List.isChain_append.mpr ⟨h.ends, .singleton _, fun l hl d hd => by
    cases hd
    exact hends l hl⟩

/-! ### Other gaps -/

/-- White space and block comments. -/
inductive Spacing : List Char → Prop
  | nil : Spacing []
  | blank {c : Char} {cs : List Char} (hc : Text.isBlank c = true) (h : Spacing cs) : Spacing (c :: cs)
  | block {body cs : List Char} (hbody : Text.cut? ['*', '/'] body = none) (h : Spacing cs) :
      Spacing ('/' :: '*' :: (body ++ '*' :: '/' :: cs))

/-- White space and block comments that begin and end with white space. -/
structure IsGap (gap : List Char) : Prop where
  spacing : Spacing gap
  head : ∃ c, gap.head? = some c ∧ Text.isBlank c = true
  last : ∃ c, gap.getLast? = some c ∧ Text.isBlank c = true

theorem IsGap.ne_nil (h : IsGap gap) : gap ≠ [] := by
  obtain ⟨c, hc, -⟩ := h.head
  rintro rfl
  cases hc

/-- Any token may end where a gap begins. -/
theorem IsGap.ends (h : IsGap gap) (kind : TokenKind) : Ends kind gap := by
  intro c hc
  obtain ⟨d, hd, hblank⟩ := h.head
  rw [hd] at hc
  cases hc
  exact .inl (by rw [isStop, hblank, Bool.true_or])

/-- The text is made of these words with gaps between them. -/
inductive Spaced : List String → List Char → Prop
  | nil : Spaced [] []
  | singleton (word : String) : Spaced [word] word.toList
  | cons (word : String) {next : String} {words : List String} {gap cs : List Char} (hgap : IsGap gap)
      (h : Spaced (next :: words) cs) : Spaced (word :: next :: words) (word.toList ++ (gap ++ cs))

theorem Spacing.filler (h : Spacing gap) : Filler gap := by
  induction h with
  | nil => exact .nil
  | blank hc _ ih => exact .blank hc ih
  | @block body cs hbody _ ih =>
    have h := Filler.remark (.block hbody) (by simp) ih
    rwa [List.cons_append, List.cons_append, List.append_assoc] at h

theorem Spaced.of_concat {last word : String} (h : Spaced (texts ++ [last, word]) cs) :
    ∃ gap cs', IsGap gap ∧ Spaced (texts ++ [last]) cs' ∧ cs = cs' ++ (gap ++ word.toList) := by
  induction texts generalizing cs with
  | nil =>
    cases h with
    | cons _ hgap h =>
      cases h
      exact ⟨_, _, hgap, .singleton last, rfl⟩
  | cons first texts ih =>
    obtain ⟨next, words, hwords⟩ := List.exists_cons_of_ne_nil (l := texts ++ [last, word]) (by simp)
    rw [List.cons_append, hwords] at h
    cases h with
    | @cons _ _ _ gap₀ cs₀ hgap₀ h =>
      rw [← hwords] at h
      obtain ⟨gap, cs', hgap, hspaced, rfl⟩ := ih h
      obtain ⟨next', words', hwords'⟩ := List.exists_cons_of_ne_nil (l := texts ++ [last]) (by simp)
      refine ⟨gap, first.toList ++ (gap₀ ++ cs'), hgap, ?_, by simp⟩
      rw [hwords'] at hspaced
      rw [List.cons_append, hwords']
      exact .cons first hgap₀ hspaced

/-- A longer last word. -/
theorem Spaced.of_extended {last : String} {more : List Char}
    (h : Spaced (texts ++ [String.ofList (last.toList ++ more)]) cs) :
    ∃ cs', Spaced (texts ++ [last]) cs' ∧ cs = cs' ++ more := by
  induction texts generalizing cs with
  | nil =>
    cases h
    exact ⟨last.toList, .singleton last, by rw [String.toList_ofList]⟩
  | cons first texts ih =>
    obtain ⟨next, words, hwords⟩ :=
      List.exists_cons_of_ne_nil (l := texts ++ [String.ofList (last.toList ++ more)]) (by simp)
    rw [List.cons_append, hwords] at h
    cases h with
    | @cons _ _ _ gap₀ cs₀ hgap₀ h =>
      rw [← hwords] at h
      obtain ⟨cs', hspaced, rfl⟩ := ih h
      obtain ⟨next', words', hwords'⟩ := List.exists_cons_of_ne_nil (l := texts ++ [last]) (by simp)
      refine ⟨first.toList ++ (gap₀ ++ cs'), ?_, by simp⟩
      rw [hwords'] at hspaced
      rw [List.cons_append, hwords']
      exact .cons first hgap₀ hspaced

/-! ### The same words -/

/-- What the word of a chunk makes of the last token, if it joins it. -/
def joining? (c : Chunk) (done : List Token) : Option (List Token) :=
  c.kind.word?.bind (joinChunk? · c done)

theorem exists_of_joining? (h : joining? c done = some done') :
    ∃ last before kind, c.kind.word?.isSome = true ∧ last.kind.word?.isSome = true ∧ done = last :: before ∧
      done' = { last with kind, text := String.ofList (last.text.toList ++ (c.gap ++ c.shown)) } :: before := by
  obtain ⟨word, hword, h⟩ := Option.bind_eq_some_iff.mp h
  cases done with
  | nil => cases h
  | cons last before =>
    rw [joinChunk?] at h
    split at h
    next other hother =>
      obtain ⟨joined, -, rfl⟩ := Option.map_eq_some_iff.mp h
      refine ⟨last, before, .keyword joined, by rw [hword]; rfl, by rw [hother]; rfl, rfl, ?_⟩
      rw [List.append_assoc]
    next => cases h

/-- Whether a word joins the last token does not depend on the gap between them. -/
theorem joining?_gap (h : joining? c done = none) (gap : List Char) : joining? { c with gap } done = none := by
  rw [joining?] at h ⊢
  cases hword : c.kind.word? with
  | none => rw [Option.bind_none]
  | some word =>
    rw [hword, Option.bind_some] at h
    rw [Option.bind_some]
    cases done with
    | nil => rfl
    | cons last before =>
      rw [joinChunk?] at h ⊢
      split at h
      next other hother => simpa [hother] using h
      next => rfl

theorem take_gap (h : joining? c s.done = none) (gap : List Char) : s.take { c with gap } = s.take c := by
  rw [Joining.take, Joining.take]
  change s.enter c.token (joining? { c with gap } s.done) = s.enter c.token (joining? c s.done)
  rw [joining?_gap h gap, h]

theorem take_of_joining? (h : joining? c s.done = some done') : (s.take c).done = done' := by
  obtain ⟨-, -, -, hword, -⟩ := exists_of_joining? h
  rw [Joining.take]
  change (s.enter c.token (joining? c s.done)).done = done'
  rw [h]
  cases hk : c.kind <;> simp_all [TokenKind.word?, Joining.enter, Chunk.token]

theorem take_of_none (hkind : c.kind ≠ .comment) (h : joining? c s.done = none) :
    ∃ kind, (s.take c).done = { c.token with kind } :: s.done := by
  rw [Joining.take]
  rcases Joining.enter_done (t := c.token) hkind s (joining? c s.done) with ⟨kind, -, hdone⟩ | hdone
  · exact ⟨kind, hdone⟩
  · rw [h] at hdone
    cases hdone

/-- The last token is a word only if the last chunk is. -/
theorem isSome_of_take (hkind : c.kind ≠ .comment) {t : Token} (h : (s.take c).done.head? = some t)
    (ht : t.kind.word?.isSome = true) : c.kind.word?.isSome = true := by
  cases hk : c.kind with
  | keyword word => rfl
  | comment => exact absurd hk hkind
  | operator =>
    simp only [Joining.take, Joining.enter, Chunk.token, hk] at h
    split at h
    · cases h
      cases ht
    · split at h <;> (cases h; cases ht)
  | _ =>
    simp only [Joining.take, Joining.enter, Chunk.token, hk] at h
    cases h
    cases ht

/-- Chunks of another text whose tokens are joined to the same words. -/
structure Respaced (chunks : List Chunk) (cs : List Char) (chunks' : List Chunk) : Prop where
  source : cs = chunks'.flatMap Chunk.text
  coherent : Coherent chunks'
  kinds : chunks'.map Chunk.kind = chunks.map Chunk.kind
  joined : chunks'.foldl Joining.take {} = chunks.foldl Joining.take {}

theorem respaced_nil : Respaced [] [] [] :=
  ⟨rfl, ⟨List.forall_mem_nil _, List.forall_mem_nil _, .nil⟩, rfl, rfl⟩

/-- One more chunk, behind another gap if it is joined in the same way there. -/
theorem Respaced.concat (h : Respaced chunks cs chunks') (hc : c.Sound) (hgap : Filler gap)
    (hends : ∀ l, chunks'.getLast? = some l → gap ≠ [] ∧ Ends l.kind gap)
    (htake : (chunks.foldl Joining.take {}).take { c with gap } = (chunks.foldl Joining.take {}).take c) :
    Respaced (chunks ++ [c]) (cs ++ (gap ++ c.shown)) (chunks' ++ [{ c with gap }]) where
  source := by rw [h.source, List.flatMap_append, List.flatMap_singleton, Chunk.text]
  coherent := h.coherent.concat ⟨hc.kind, hc.ne_nil, hc.head, hc.again⟩ hgap hends
  kinds := by
    rw [List.map_append, List.map_append, h.kinds]
    rfl
  joined := by
    rw [List.foldl_append, List.foldl_append, h.joined]
    exact htake

theorem Respaced.kind_eq {l l' : Chunk} (h : Respaced chunks cs chunks') (hl : chunks.getLast? = some l)
    (hl' : chunks'.getLast? = some l') : l'.kind = l.kind := by
  have hkinds := congrArg List.getLast? h.kinds
  rw [List.getLast?_map, List.getLast?_map, hl, hl'] at hkinds
  exact Option.some.inj hkinds

theorem Respaced.eq_nil (h : Respaced chunks [] chunks') : chunks' = [] := by
  cases chunks' with
  | nil => rfl
  | cons d chunks' =>
    have hne := (h.coherent.sound d List.mem_cons_self).ne_nil
    simpa [Chunk.text, hne] using h.source

/-- The last token is a word only if the last chunk is. -/
theorem exists_word {last : Token} {before : List Token} (hsound : ∀ c ∈ chunks, c.Sound)
    (hdone : (chunks.foldl Joining.take {}).done = last :: before) (hlast : last.kind.word?.isSome = true) :
    ∃ l, chunks.getLast? = some l ∧ l.kind.word?.isSome = true := by
  rcases List.eq_nil_or_concat' chunks with rfl | ⟨init, l, rfl⟩
  · cases hdone
  · rw [List.forall_mem_append, List.forall_mem_singleton] at hsound
    rw [List.foldl_append, List.foldl_cons, List.foldl_nil] at hdone
    exact ⟨l, by simp, isSome_of_take hsound.2.kind (by rw [hdone]; rfl) hlast⟩

theorem exists_respaced (hsound : ∀ c ∈ chunks, c.Sound) (hfiller : ∀ c ∈ chunks, Filler c.gap)
    (hapart : chunks.IsChain fun c d => c.kind.word?.isSome = true → d.kind.word?.isSome = true → d.gap ≠ []) :
    ∀ cs, Spaced ((chunks.foldl Joining.take {}).done.reverse.map Token.text) cs →
      ∃ chunks', Respaced chunks cs chunks' := by
  induction chunks using List.reverseRecOn with
  | nil =>
    rintro _ ⟨⟩
    exact ⟨[], respaced_nil⟩
  | append_singleton chunks c ih =>
    intro cs hspaced
    obtain ⟨hsound, hc⟩ := List.forall_mem_append.mp hsound
    obtain ⟨hfiller, hgap⟩ := List.forall_mem_append.mp hfiller
    rw [List.forall_mem_singleton] at hc hgap
    obtain ⟨hapart, -, hlast⟩ := List.isChain_append.mp hapart
    replace ih := ih hsound hfiller hapart
    rw [List.foldl_append, List.foldl_cons, List.foldl_nil] at hspaced
    cases hjoin : joining? c (chunks.foldl Joining.take {}).done with
    | none =>
      -- A word of its own may stand behind any gap, or start the text.
      obtain ⟨kind, hdone⟩ := take_of_none hc.kind hjoin
      rw [hdone, List.reverse_cons, List.map_append, List.map_singleton] at hspaced
      cases hd : (chunks.foldl Joining.take {}).done with
      | nil =>
        rw [hd] at hspaced ih
        cases hspaced
        obtain ⟨chunks', h⟩ := ih [] .nil
        obtain rfl := h.eq_nil
        have h := h.concat hc .nil nofun (take_gap hjoin [])
        exact ⟨_, by simpa [Chunk.token] using h⟩
      | cons last before =>
        rw [hd, List.reverse_cons, List.map_append, List.map_singleton] at ih
        rw [hd, List.reverse_cons, List.map_append, List.map_singleton, List.append_assoc] at hspaced
        obtain ⟨gap, cs', hisGap, hspaced', rfl⟩ := hspaced.of_concat
        obtain ⟨chunks', h⟩ := ih cs' hspaced'
        have h := h.concat hc hisGap.spacing.filler (fun l _ => ⟨hisGap.ne_nil, hisGap.ends l.kind⟩) (take_gap hjoin gap)
        exact ⟨_, by simpa [Chunk.token] using h⟩
    | some done' =>
      -- The chunk before is a word too, so that the gap is not empty and may stay.
      obtain ⟨last, before, kind, hword, hlastWord, hd, rfl⟩ := exists_of_joining? hjoin
      rw [take_of_joining? hjoin, List.reverse_cons, List.map_append, List.map_singleton] at hspaced
      rw [hd, List.reverse_cons, List.map_append, List.map_singleton] at ih
      obtain ⟨cs', hspaced', rfl⟩ := hspaced.of_extended
      obtain ⟨chunks', h⟩ := ih cs' hspaced'
      obtain ⟨l, hl, hlWord⟩ := exists_word hsound hd hlastWord
      have hne : c.gap ≠ [] := hlast l hl c rfl hlWord hword
      exact ⟨_, h.concat hc hgap (fun l' hl' => ⟨hne, hgap.ends hne (h.kind_eq hl hl' ▸ hlWord)⟩) rfl⟩

theorem parseWhere_eq_ok_iff {q : Query} {table : TableId} {sql : String} {e : Expr} (h : tokenize sql = .ok ts) :
    parseWhere q table sql = .ok e ↔ parseTokens (.ofTable q table) (spoken ts) 0 = .ok e := by
  rw [parseWhere, h, Result.ok_bind]
  exact (agrees_parseTokens _ ts _).eq_ok_iff

/-- White space and comments never change what is read: the words of a text with any gaps between them are the same
    words, and they are read as the same expression. -/
theorem respaced_reads_same (sql sql' : String) (hts : tokenize sql = .ok ts)
    (hspaced : Spaced ((ts.filter (!·.isComment)).map Token.text) sql'.toList) :
    (∃ us, tokenize sql' = .ok us ∧ (us.filter (!·.isComment)).map (fun t => (t.kind, t.text)) =
      (ts.filter (!·.isComment)).map fun t => (t.kind, t.text)) ∧
    ∀ q table e, parseWhere q table sql = .ok e → parseWhere q table sql' = .ok e := by
  obtain ⟨raw, chunks, hlaid, hspoken⟩ := exists_chunks_of_tokenize hts
  have htexts : (ts.filter (!·.isComment)).map Token.text = (spoken ts).map Token.text := by
    rw [spoken, List.map_map]
    rfl
  have hfiller : ∀ c ∈ chunks, Filler c.gap := by
    intro c hc
    cases chunks with
    | nil => cases hc
    | cons d more =>
      rcases List.mem_cons.mp hc with rfl | hc
      · obtain ⟨g, -, hgap, hg, -⟩ := hlaid.filler.1 c more rfl
        rwa [hgap]
      · exact hlaid.filler.2 c hc
  rw [htexts, hspoken] at hspaced
  obtain ⟨chunks', hsource, hcoherent, -, hfold⟩ := exists_respaced hlaid.sound hfiller hlaid.apart _ hspaced
  obtain ⟨raw', hlaid'⟩ := hcoherent.laid 0
  rw [← hsource] at hlaid'
  obtain ⟨us, hus, hspoken'⟩ := tokenize_of_laid hlaid'
  have hsame : spoken us = spoken ts := by rw [hspoken', hspoken, hfold]
  refine ⟨⟨us, hus, ?_⟩, fun q table e he => ?_⟩
  · have hpairs : ∀ ts : List Token, (ts.filter (!·.isComment)).map (fun t => (t.kind, t.text)) =
        (spoken ts).map fun t => (t.kind, t.text) := by
      intro ts
      rw [spoken, List.map_map]
      rfl
    rw [hpairs, hpairs, hsame]
  · rw [parseWhere_eq_ok_iff hus, hsame]
    exact (parseWhere_eq_ok_iff hts).mp he

/-- A comment between two words of one keyword stays, and the others go. -/
theorem respaced_reads_same_isNot :
    (∃ us, tokenize "a /* b */ is/**/not\tnull" = .ok us ∧
      (us.filter (!·.isComment)).map (fun t => (t.kind, t.text)) =
        [(.identifier, "a"), (.keyword .isNot, "is/**/not"), (.keyword .null, "null")]) ∧
    ∀ q table e, parseWhere q table "a--\n is/**/not null--" = .ok e →
      parseWhere q table "a /* b */ is/**/not\tnull" = .ok e := by
  have htokens : (tokenize "a--\n is/**/not null--").toOption = some [⟨.identifier, "a", 0⟩, ⟨.comment, "--", 1⟩,
      ⟨.keyword .isNot, "is/**/not", 5⟩, ⟨.comment, "/**/", 7⟩, ⟨.keyword .null, "null", 15⟩, ⟨.comment, "--", 19⟩] := by
    decide +kernel
  have htab : IsGap ['\t'] := ⟨.blank rfl .nil, ⟨'\t', rfl, rfl⟩, ⟨'\t', rfl, rfl⟩⟩
  have hcomment : IsGap " /* b */ ".toList :=
    ⟨.blank rfl (@Spacing.block [' ', 'b', ' '] [' '] rfl (.blank rfl .nil)), ⟨' ', rfl, rfl⟩, ⟨' ', rfl, rfl⟩⟩
  have hspaced : Spaced ["a", "is/**/not", "null"] "a /* b */ is/**/not\tnull".toList :=
    .cons "a" hcomment (.cons "is/**/not" htab (.singleton "null"))
  exact respaced_reads_same _ _ (Result.toOption_eq_some.mp htokens) hspaced

end ItemQuery.Sql
