import ItemQuery.Proofs.Sql.Layout

/-! The tokens of a text account for all of it. Every token stands in the text where its offset says, between the tokens
    there are blanks only, and tokens share characters only where a keyword of two words spans a comment. -/

namespace ItemQuery.Sql

variable {source cs gap front back mid rest : List Char} {offset : Nat} {t : Token} {ts done done' : List Token}
  {chunks : List Chunk} {word : Keyword} {s : Joining}

/-! ### Places -/

/-- Where the token ends, in bytes. -/
def Token.stop (t : Token) : Nat :=
  t.offset + byteLength t.text.toList

/-- The token is the text at its offset. -/
def Token.StandsIn (source : List Char) (t : Token) : Prop :=
  ∃ front back, source = front ++ (t.text.toList ++ back) ∧ byteLength front = t.offset

/-- The keywords of two words. -/
def Keyword.isCompound : Keyword → Bool
  | .notIn | .notLike | .notBetween | .isNot => true
  | _ => false

/-- The first token ends before the second one starts, or is a keyword of two words with the second one, a comment,
    between them. -/
def Token.Clears (t u : Token) : Prop :=
  t.stop ≤ u.offset ∨ (∃ k, t.kind = .keyword k ∧ k.isCompound = true) ∧ u.kind = .comment ∧ u.stop ≤ t.stop

/-- Two starts of a text are compared by their length in bytes. -/
theorem exists_append_of_byteLength_le {front' rest' : List Char} (h : front ++ rest = front' ++ rest')
    (hle : byteLength front ≤ byteLength front') : ∃ mid, front' = front ++ mid ∧ rest = mid ++ rest' := by
  rcases List.append_eq_append_iff.mp h with ⟨mid, hfront, hrest⟩ | ⟨mid, hfront, hrest⟩
  · exact ⟨mid, hfront, hrest⟩
  · rcases List.eq_nil_or_concat' mid with rfl | ⟨init, last, rfl⟩
    · exact ⟨[], by simpa using hfront.symm, by simpa using hrest.symm⟩
    · have hpos : 0 < byteLength (init ++ [last]) := byteLength_pos (by simp)
      rw [hfront, byteLength_append] at hle
      omega

theorem sourceSlice_append {start stop at_ : Nat} (hstart : start = at_ + byteLength front)
    (hstop : stop = start + byteLength mid) : sourceSlice start stop at_ (front ++ (mid ++ back)) = mid := by
  induction front generalizing at_ with
  | nil =>
    rw [byteLength, Nat.add_zero] at hstart
    rw [List.nil_append]
    have hle : start ≤ at_ := Nat.le_of_eq hstart
    replace hstop : stop = at_ + byteLength mid := by omega
    clear hstart
    induction mid generalizing at_ with
    | nil =>
      have hdone : stop ≤ at_ := Nat.le_of_eq hstop
      cases back with
      | nil => rfl
      | cons c back => rw [List.nil_append, sourceSlice, if_pos hdone]
    | cons c mid ih =>
      have hsize := c.utf8Size_pos
      rw [byteLength] at hstop
      rw [List.cons_append, sourceSlice, if_neg (by omega), if_pos hle, ih (by omega) (by omega)]
  | cons c front ih =>
    have hsize := c.utf8Size_pos
    rw [byteLength] at hstart
    rw [List.cons_append, sourceSlice, if_neg (by omega), if_neg (by omega), ih (by omega)]

/-! ### Scanned tokens -/

theorem Laid.standsIn (h : Laid offset gap cs ts chunks) (hfront : byteLength front = offset) :
    ∀ t ∈ ts, t.StandsIn (front ++ cs) := by
  have htoken : ∀ {front shown rest : List Char} {kind : TokenKind} {offset : Nat}, byteLength front = offset →
      Token.StandsIn (front ++ (shown ++ rest)) ⟨kind, String.ofList shown, offset⟩ := by
    intro front shown rest kind offset hfront
    exact ⟨front, rest, by rw [String.toList_ofList], hfront⟩
  induction h generalizing front with
  | nil => exact List.forall_mem_nil _
  | @blank offset gap cs ts chunks c hc _ ih =>
    have hfront' : byteLength (front ++ [c]) = offset + c.utf8Size := by
      rw [byteLength_append, hfront]
      rfl
    have hnext := ih hfront'
    rwa [List.append_assoc, List.singleton_append] at hnext
  | @comment offset gap shown rest ts chunks _ _ ih =>
    have hfront' : byteLength (front ++ shown) = offset + byteLength shown := by rw [byteLength_append, hfront]
    have hnext := ih hfront'
    rw [List.append_assoc] at hnext
    exact List.forall_mem_cons.mpr ⟨htoken hfront, hnext⟩
  | @token offset gap shown rest ts chunks kind _ _ _ _ _ ih =>
    have hfront' : byteLength (front ++ shown) = offset + byteLength shown := by rw [byteLength_append, hfront]
    have hnext := ih hfront'
    rw [List.append_assoc] at hnext
    exact List.forall_mem_cons.mpr ⟨htoken hfront, hnext⟩

theorem Laid.text_ne_nil (h : Laid offset gap cs ts chunks) : ∀ t ∈ ts, t.text.toList ≠ [] := by
  induction h with
  | nil => exact List.forall_mem_nil _
  | blank _ _ ih => exact ih
  | comment hremark _ ih =>
    obtain ⟨c, more, rfl, -⟩ := hremark.head
    exact List.forall_mem_cons.mpr ⟨by rw [String.toList_ofList]; exact List.cons_ne_nil _ _, ih⟩
  | token _ _ hne _ _ ih => exact List.forall_mem_cons.mpr ⟨by rwa [String.toList_ofList], ih⟩

theorem Laid.offset_le (h : Laid offset gap cs ts chunks) : ∀ t ∈ ts, offset ≤ t.offset := by
  induction h with
  | nil => exact List.forall_mem_nil _
  | blank _ _ ih => exact fun t ht => Nat.le_of_add_right_le (ih t ht)
  | comment _ _ ih =>
    exact List.forall_mem_cons.mpr ⟨Nat.le_refl _, fun t ht => Nat.le_of_add_right_le (ih t ht)⟩
  | token _ _ _ _ _ ih =>
    exact List.forall_mem_cons.mpr ⟨Nat.le_refl _, fun t ht => Nat.le_of_add_right_le (ih t ht)⟩

theorem Laid.pairwise (h : Laid offset gap cs ts chunks) : ts.Pairwise fun t u => t.stop ≤ u.offset := by
  induction h with
  | nil => exact .nil
  | blank _ _ ih => exact ih
  | comment _ h ih =>
    refine .cons (fun u hu => ?_) ih
    rw [Token.stop, String.toList_ofList]
    exact h.offset_le u hu
  | token _ _ _ _ h ih =>
    refine .cons (fun u hu => ?_) ih
    rw [Token.stop, String.toList_ofList]
    exact h.offset_le u hu

/-- A character that is no blank belongs to a token. -/
theorem Laid.covers (h : Laid offset gap cs ts chunks) {c : Char} (hcs : cs = front ++ c :: back)
    (hc : Text.isBlank c = false) :
    ∃ t ∈ ts, t.offset ≤ offset + byteLength front ∧ offset + byteLength front < t.stop := by
  have htoken : ∀ {offset : Nat} {kind : TokenKind} {front back shown rest : List Char} {ts : List Token},
      shown ++ rest = front ++ c :: back →
      (∀ front, rest = front ++ c :: back → ∃ t ∈ ts, t.offset ≤ offset + byteLength shown + byteLength front ∧
        offset + byteLength shown + byteLength front < t.stop) →
      ∃ t ∈ (⟨kind, String.ofList shown, offset⟩ : Token) :: ts, t.offset ≤ offset + byteLength front ∧
        offset + byteLength front < t.stop := by
    intro offset kind front back shown rest ts heq hrest
    by_cases hlt : byteLength front < byteLength shown
    · refine ⟨_, List.mem_cons_self, Nat.le_add_right _ _, ?_⟩
      rw [Token.stop, String.toList_ofList]
      exact Nat.add_lt_add_left hlt offset
    · obtain ⟨mid, rfl, hmid⟩ := exists_append_of_byteLength_le heq (Nat.le_of_not_lt hlt)
      obtain ⟨t, ht, hstart, hstop⟩ := hrest mid hmid
      rw [byteLength_append, ← Nat.add_assoc]
      exact ⟨t, List.mem_cons_of_mem _ ht, hstart, hstop⟩
  induction h generalizing front with
  | nil => simp at hcs
  | @blank offset gap cs ts chunks d hd _ ih =>
    cases front with
    | nil =>
      cases hcs
      rw [hc] at hd
      cases hd
    | cons e front =>
      cases hcs
      obtain ⟨t, ht, hstart, hstop⟩ := ih rfl
      rw [byteLength, ← Nat.add_assoc]
      exact ⟨t, ht, hstart, hstop⟩
  | comment _ _ ih => exact htoken hcs fun front hrest => ih hrest
  | token _ _ _ _ _ ih => exact htoken hcs fun front hrest => ih hrest

/-! ### Joined tokens -/

/-- What joins a word: the last token that is no comment. -/
theorem exists_of_joinLast? (h : joinLast? source word t done = some done') :
    ∃ remarks last before k joined, done = remarks ++ last :: before ∧ (∀ u ∈ remarks, u.kind = .comment) ∧
      last.kind = .keyword k ∧ compound? k word = some joined ∧ done' = remarks ++ { last with
        kind := .keyword joined
        text := String.ofList (sourceSlice last.offset t.stop 0 source) } :: before := by
  induction done generalizing done' with
  | nil => cases h
  | cons last before ih =>
    rw [joinLast?] at h
    split at h
    next hkind =>
      obtain ⟨done', hjoin, rfl⟩ := Option.map_eq_some_iff.mp h
      obtain ⟨remarks, last', before', k, joined, rfl, hremarks, hk, hjoined, rfl⟩ := ih hjoin
      exact ⟨last :: remarks, last', before', k, joined, rfl, List.forall_mem_cons.mpr ⟨hkind, hremarks⟩, hk, hjoined, rfl⟩
    next k hkind =>
      obtain ⟨joined, hjoined, rfl⟩ := Option.map_eq_some_iff.mp h
      exact ⟨[], last, before, k, joined, rfl, List.forall_mem_nil _, hkind, hjoined, rfl⟩
    next => cases h

theorem isCompound_of_compound? {k joined : Keyword} (h : compound? k word = some joined) : joined.isCompound = true := by
  cases k <;> cases word <;> cases h <;> rfl

/-- A token is put in front of the others, or joins one of them. -/
theorem Joining.push_done (source : List Char) (s : Joining) (t : Token) :
    (∃ kind, (s.push source t).done = { t with kind } :: s.done) ∨
      ∃ word, joinLast? source word t s.done = some (s.push source t).done := by
  obtain ⟨kind, text, offset⟩ := t
  cases kind with
  | keyword word =>
    simp only [Joining.push]
    split
    next done hdone => exact .inr ⟨word, hdone⟩
    next =>
      generalize (if word = .between then s.depth :: s.pending else s.pending) = pending
      split
      · exact .inl ⟨_, rfl⟩
      · exact .inl ⟨_, rfl⟩
  | operator =>
    simp only [Joining.push]
    split
    · exact .inl ⟨_, rfl⟩
    · split
      · exact .inl ⟨_, rfl⟩
      · exact .inl ⟨_, rfl⟩
  | identifier => exact .inl ⟨_, rfl⟩
  | number => exact .inl ⟨_, rfl⟩
  | string => exact .inl ⟨_, rfl⟩
  | comment => exact .inl ⟨_, rfl⟩

/-- Tokens, the last one first, that stand in the source in their order and apart. -/
structure Arranged (source : List Char) (done : List Token) : Prop where
  stands : ∀ t ∈ done, t.StandsIn source
  increasing : done.Pairwise fun u t => t.offset < u.offset
  clear : done.Pairwise fun u t => t.Clears u

/-- The first token lies in the second one. -/
def Token.Within (t u : Token) : Prop :=
  u.offset ≤ t.offset ∧ t.stop ≤ u.stop

/-- The text between the start of one token and the end of a later one. -/
theorem exists_slice {u : Token} (hu : u.StandsIn source) (ht : t.StandsIn source) (hle : u.offset ≤ t.stop) :
    ∃ front mid back, source = front ++ (mid ++ back) ∧ byteLength front = u.offset ∧
      t.stop = u.offset + byteLength mid ∧ sourceSlice u.offset t.stop 0 source = mid := by
  obtain ⟨front, rest, hsource, hfront⟩ := hu
  obtain ⟨front', back, hsource', hfront'⟩ := ht
  have hstop : byteLength (front' ++ t.text.toList) = t.stop := by
    rw [byteLength_append, hfront', Token.stop]
  have heq : front ++ (u.text.toList ++ rest) = front' ++ t.text.toList ++ back := by
    rw [← hsource, hsource', List.append_assoc]
  obtain ⟨mid, hmid, hrest⟩ := exists_append_of_byteLength_le heq (by omega)
  have hlength : t.stop = u.offset + byteLength mid := by
    rw [← hstop, hmid, byteLength_append, hfront]
  have hwhole : source = front ++ (mid ++ back) := by
    rw [hsource, hrest]
  refine ⟨front, mid, back, hwhole, hfront, hlength, ?_⟩
  rw [hwhole]
  exact sourceSlice_append (by rw [Nat.zero_add, hfront]) hlength

theorem Token.Within.refl (t : Token) : t.Within t :=
  ⟨Nat.le_refl _, Nat.le_refl _⟩

/-- A token that comes last. -/
theorem Arranged.cons (h : Arranged source done) (ht : t.StandsIn source)
    (hlast : ∀ u ∈ done, u.offset < t.offset ∧ u.stop ≤ t.offset) : Arranged source (t :: done) where
  stands := List.forall_mem_cons.mpr ⟨ht, h.stands⟩
  increasing := .cons (fun u hu => (hlast u hu).1) h.increasing
  clear := .cons (fun u hu => .inl (hlast u hu).2) h.clear

/-- A word that becomes a longer one, of which the comments behind it are a part. -/
theorem Arranged.grow {remarks before : List Token} {last v : Token} {joined : Keyword}
    (h : Arranged source (remarks ++ last :: before)) (hv : v.StandsIn source) (hoffset : v.offset = last.offset)
    (hkind : v.kind = .keyword joined) (hjoined : joined.isCompound = true) (hlast : last.kind ≠ .comment)
    (hremarks : ∀ u ∈ remarks, u.kind = .comment ∧ u.stop ≤ v.stop) : Arranged source (remarks ++ v :: before) := by
  obtain ⟨hstands, hincreasing, hclear⟩ := h
  simp only [List.forall_mem_append, List.forall_mem_cons] at hstands
  rw [List.pairwise_append, List.pairwise_cons] at hincreasing hclear
  simp only [List.forall_mem_cons] at hincreasing hclear
  obtain ⟨hstandsR, -, hstandsB⟩ := hstands
  obtain ⟨hclearR, ⟨hclearL, hclearB⟩, hclear⟩ := hclear
  refine ⟨?_, ?_, ?_⟩
  · simp only [List.forall_mem_append, List.forall_mem_cons]
    exact ⟨hstandsR, hv, hstandsB⟩
  · rw [List.pairwise_append, List.pairwise_cons]
    simp only [List.forall_mem_cons, hoffset]
    exact hincreasing
  · rw [List.pairwise_append, List.pairwise_cons]
    simp only [List.forall_mem_cons]
    refine ⟨hclearR, ⟨fun b hb => ?_, hclearB⟩, fun u hu => ?_⟩
    · rcases hclearL b hb with hb | ⟨-, hcomment, -⟩
      · exact .inl (hoffset ▸ hb)
      · exact absurd hcomment hlast
    · obtain ⟨hcomment, hstop⟩ := hremarks u hu
      exact ⟨.inr ⟨⟨joined, hkind, hjoined⟩, hcomment, hstop⟩, (hclear u hu).2⟩

/-- What one more token does: it comes last, or joins the last one, which then ends where it does. -/
theorem Arranged.push (h : Arranged source s.done) (ht : t.StandsIn source) (hne : t.text.toList ≠ [])
    (hlast : ∀ u ∈ s.done, u.offset < t.offset ∧ u.stop ≤ t.offset) :
    Arranged source (s.push source t).done ∧ (∀ u ∈ (s.push source t).done, u.offset < t.stop ∧ u.stop ≤ t.stop) ∧
      ∀ u ∈ t :: s.done, ∃ v ∈ (s.push source t).done, u.Within v := by
  have hpos : t.offset < t.stop := Nat.lt_add_of_pos_right (byteLength_pos hne)
  have hends : ∀ u ∈ s.done, u.offset < t.stop ∧ u.stop ≤ t.stop := by
    intro u hu
    obtain ⟨hoffset, hstop⟩ := hlast u hu
    exact ⟨by omega, by omega⟩
  rcases Joining.push_done source s t with ⟨kind, hdone⟩ | ⟨word, hjoin⟩
  · rw [hdone]
    refine ⟨h.cons ht hlast, List.forall_mem_cons.mpr ⟨⟨hpos, Nat.le_refl _⟩, hends⟩, ?_⟩
    refine List.forall_mem_cons.mpr ⟨⟨_, List.mem_cons_self, Nat.le_refl _, Nat.le_refl _⟩, fun u hu => ?_⟩
    exact ⟨u, List.mem_cons_of_mem _ hu, .refl u⟩
  · obtain ⟨remarks, last, before, k, joined, hdone, hremarks, hk, hjoined, hdone'⟩ := exists_of_joinLast? hjoin
    have hmem : last ∈ s.done := by simp [hdone]
    obtain ⟨front, mid, back, hsource, hfront, hstop, hslice⟩ :=
      exists_slice (h.stands last hmem) ht (Nat.le_of_lt (hends last hmem).1)
    rw [hslice] at hdone'
    generalize hv : ({ last with kind := .keyword joined, text := String.ofList mid } : Token) = v at hdone'
    have hoffset : v.offset = last.offset := by rw [← hv]
    have hvstop : v.stop = t.stop := by rw [← hv, Token.stop, String.toList_ofList, hstop]
    have hvkind : v.kind = .keyword joined := by rw [← hv]
    have hvstands : v.StandsIn source :=
      ⟨front, back, by rw [← hv, String.toList_ofList]; exact hsource, by rw [hfront, hoffset]⟩
    rw [hdone] at h hends hlast
    simp only [List.forall_mem_append, List.forall_mem_cons] at hends hlast
    obtain ⟨hendsR, hendsL, hendsB⟩ := hends
    obtain ⟨hlastR, hlastL, -⟩ := hlast
    rw [hdone', hdone]
    refine ⟨h.grow hvstands hoffset hvkind (isCompound_of_compound? hjoined) (by simp [hk]) ?_, ?_, ?_⟩
    · exact fun u hu => ⟨hremarks u hu, hvstop ▸ (hendsR u hu).2⟩
    · simp only [List.forall_mem_append, List.forall_mem_cons]
      exact ⟨hendsR, ⟨hoffset ▸ hendsL.1, Nat.le_of_eq hvstop⟩, hendsB⟩
    · have hself : ∀ u ∈ remarks ++ v :: before, ∃ w ∈ remarks ++ v :: before, u.Within w := fun u hu => ⟨u, hu, .refl u⟩
      simp only [List.forall_mem_append, List.forall_mem_cons] at hself ⊢
      have hvmem : v ∈ remarks ++ v :: before := by simp
      refine ⟨⟨v, hvmem, hoffset ▸ Nat.le_of_lt hlastL.1, Nat.le_of_eq hvstop.symm⟩, hself.1,
        ⟨v, hvmem, Nat.le_of_eq hoffset, ?_⟩, hself.2.2⟩
      exact hvstop ▸ hendsL.2

/-- Joining leaves the tokens in their places, and every token lies in one of the result. -/
theorem Arranged.foldl (h : Arranged source s.done) (hts : ∀ t ∈ ts, t.StandsIn source ∧ t.text.toList ≠ [])
    (hsorted : ts.Pairwise fun t u => t.stop ≤ u.offset)
    (hlast : ∀ u ∈ s.done, ∀ t ∈ ts, u.offset < t.offset ∧ u.stop ≤ t.offset) :
    Arranged source (ts.foldl (Joining.push source) s).done ∧
      ∀ u, u ∈ ts ∨ u ∈ s.done → ∃ v ∈ (ts.foldl (Joining.push source) s).done, u.Within v := by
  induction ts generalizing s with
  | nil => exact ⟨h, fun u hu => ⟨u, hu.resolve_left (List.not_mem_nil), .refl u⟩⟩
  | cons t ts ih =>
    obtain ⟨⟨ht, hne⟩, hts⟩ := List.forall_mem_cons.mp hts
    obtain ⟨hafter, hsorted⟩ := List.pairwise_cons.mp hsorted
    obtain ⟨harranged, hends, hwithin⟩ := h.push ht hne fun u hu => hlast u hu t List.mem_cons_self
    obtain ⟨hall, hcover⟩ := ih harranged hts hsorted fun u hu r hr => by
      obtain ⟨hoffset, hstop⟩ := hends u hu
      have := hafter r hr
      exact ⟨by omega, by omega⟩
    refine ⟨hall, fun u hu => ?_⟩
    rcases hu with hu | hu
    · rcases List.mem_cons.mp hu with rfl | hu
      · obtain ⟨v, hv, hstart, hstop⟩ := hwithin u List.mem_cons_self
        obtain ⟨w, hw, hstart', hstop'⟩ := hcover v (.inr hv)
        exact ⟨w, hw, hstart'.trans hstart, hstop.trans hstop'⟩
      · exact hcover u (.inl hu)
    · obtain ⟨v, hv, hstart, hstop⟩ := hwithin u (List.mem_cons_of_mem _ hu)
      obtain ⟨w, hw, hstart', hstop'⟩ := hcover v (.inr hv)
      exact ⟨w, hw, hstart'.trans hstart, hstop.trans hstop'⟩

/-! ### Whole texts -/

theorem arranged_of_tokenize {sql : String} (h : tokenize sql = .ok ts) :
    Arranged sql.toList ts.reverse ∧ ∃ raw chunks, Laid 0 [] sql.toList raw chunks ∧ ∀ u ∈ raw, ∃ v ∈ ts, u.Within v := by
  rw [tokenize, Result.map_eq_ok] at h
  obtain ⟨raw, hraw, rfl⟩ := h
  obtain ⟨chunks, hlaid⟩ := laid_of_scanAll hraw (Nat.lt_succ_self _) []
  have hstands : ∀ t ∈ raw, t.StandsIn ([] ++ sql.toList) := hlaid.standsIn rfl
  have hempty : Arranged sql.toList (Joining.done {}) := ⟨List.forall_mem_nil _, .nil, .nil⟩
  obtain ⟨harranged, hcover⟩ := hempty.foldl (fun t ht => ⟨hstands t ht, hlaid.text_ne_nil t ht⟩) hlaid.pairwise
    (List.forall_mem_nil _)
  refine ⟨by rwa [List.reverse_reverse], raw, chunks, hlaid, fun u hu => ?_⟩
  obtain ⟨v, hv, hwithin⟩ := hcover u (.inl hu)
  exact ⟨v, List.mem_reverse.mpr hv, hwithin⟩

theorem Joining.push_closed {kind : TokenKind} {closing : List Char} (h : (kind, closing) ∈ closings) (source : List Char)
    (s : Joining) (text : String) (offset : Nat) :
    s.push source ⟨kind, text, offset⟩ = { s with done := ⟨kind, text, offset⟩ :: s.done } := by
  simp only [closings, List.mem_cons, Prod.mk.injEq, List.not_mem_nil, or_false] at h
  rcases h with ⟨rfl, -⟩ | ⟨rfl, -⟩ | ⟨rfl, -⟩ | ⟨rfl, -⟩ <;> rfl

/-- Tokens account for the whole text: they stand in it in their order, each as the slice at its offset; every character
    outside of them is a blank; and two of them share characters only where the first one is a keyword of two words and
    the other one a comment between these. Where there are no tokens, the error is at the start of one that ends only
    with a closing mark that the text lacks. -/
theorem tokenize_accounts (sql : String) :
    (∀ ts, tokenize sql = .ok ts →
      (ts.Pairwise fun t u => t.offset < u.offset) ∧
      (∀ t ∈ ts, t.StandsIn sql.toList) ∧
      (∀ front c back, sql.toList = front ++ c :: back → Text.isBlank c = false →
        ∃ t ∈ ts, t.offset ≤ byteLength front ∧ byteLength front < t.stop) ∧
      ts.Pairwise Token.Clears) ∧
    ∀ err, tokenize sql = .error err →
      ∃ front body kind closing ts, sql.toList = front ++ body ∧ (kind, closing) ∈ closings ∧
        err = .lex (byteLength front) (unclosedReason body) ∧
        tokenize (String.ofList (sql.toList ++ closing)) =
          .ok (ts ++ [⟨kind, String.ofList (body ++ closing), byteLength front⟩]) := by
  refine ⟨fun ts hts => ?_, fun err herr => ?_⟩
  · obtain ⟨harranged, raw, chunks, hlaid, hwithin⟩ := arranged_of_tokenize hts
    refine ⟨List.pairwise_reverse.mp harranged.increasing, fun t ht => harranged.stands t (List.mem_reverse.mpr ht), ?_,
      List.pairwise_reverse.mp harranged.clear⟩
    intro front c back hsource hc
    obtain ⟨u, hu, hstart, hstop⟩ := hlaid.covers hsource hc
    obtain ⟨t, ht, hstart', hstop'⟩ := hwithin u hu
    rw [Nat.zero_add] at hstart hstop
    exact ⟨t, ht, hstart'.trans hstart, Nat.lt_of_lt_of_le hstop hstop'⟩
  · have hscan : scanAll (sql.toList.length + 1) 0 sql.toList = .error err := by
      rw [tokenize] at herr
      cases hraw : scanAll (sql.toList.length + 1) 0 sql.toList with
      | error err' =>
        rw [hraw] at herr
        cases herr
        rfl
      | ok raw =>
        rw [hraw] at herr
        cases herr
    obtain ⟨front, body, kind, closing, hsource, -, hclosing, rfl, ts, chunks, hlaid⟩ :=
      exists_closing hscan (Nat.lt_succ_self _) []
    rw [Nat.zero_add] at hlaid ⊢
    refine ⟨front, body, kind, closing, (ts.foldl (Joining.push (sql.toList ++ closing)) {}).done.reverse, hsource,
      hclosing,
      rfl, ?_⟩
    rw [tokenize, String.toList_ofList, hlaid.scanAll (Nat.lt_succ_self _), Except.map, List.foldl_append,
      List.foldl_cons, List.foldl_nil, Joining.push_closed hclosing, List.reverse_cons]

theorem tokenize_accounts_isNot :
    (∃ ts, tokenize "é is /* */ not" = .ok ts ∧ ts.map Token.offset = [0, 3, 6] ∧ ts.Pairwise Token.Clears) ∧
    ∃ front body kind closing ts, "a is [b".toList = front ++ body ∧ (kind, closing) ∈ closings ∧
      tokenize (String.ofList ("a is [b".toList ++ closing)) =
        .ok (ts ++ [⟨kind, String.ofList (body ++ closing), byteLength front⟩]) := by
  have hclosed : (tokenize "é is /* */ not").toOption =
      some [⟨.identifier, "é", 0⟩, ⟨.keyword .isNot, "is /* */ not", 3⟩, ⟨.comment, "/* */", 6⟩] := by decide +kernel
  have hopen : (tokenize "a is [b").toOption = none := by decide +kernel
  refine ⟨⟨_, Result.toOption_eq_some.mp hclosed, rfl,
    ((tokenize_accounts _).1 _ (Result.toOption_eq_some.mp hclosed)).2.2.2⟩, ?_⟩
  cases herr : tokenize "a is [b" with
  | ok ts =>
    rw [herr] at hopen
    cases hopen
  | error err =>
    obtain ⟨front, body, kind, closing, ts, hsource, hclosing, -, hts⟩ := (tokenize_accounts _).2 err herr
    exact ⟨front, body, kind, closing, ts, hsource, hclosing, hts⟩

end ItemQuery.Sql
