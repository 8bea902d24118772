import ItemQuery.Proofs.Sql.Places

/-! Joining without places and comments. What the tokens of a text say, apart from comments, follows from its chunks:
    their kinds and texts decide which words are joined, and a joined word takes the gap between its halves. -/

namespace ItemQuery.Sql

variable {source cs gap before : List Char} {offset : Nat} {t : Token} {ts done done' : List Token} {chunks : List Chunk}
  {word : Keyword} {s : Joining}

/-! ### Tokens without places -/

/-- The token at no place. -/
def Token.unplaced (t : Token) : Token :=
  { t with offset := 0 }

/-- The tokens that are no comments, at no place. -/
def spoken (ts : List Token) : List Token :=
  (ts.filter (!·.isComment)).map Token.unplaced

theorem spoken_reverse (ts : List Token) : spoken ts.reverse = (spoken ts).reverse := by
  rw [spoken, List.filter_reverse, List.map_reverse, spoken]

theorem spoken_cons (h : t.kind ≠ .comment) (ts : List Token) : spoken (t :: ts) = t.unplaced :: spoken ts := by
  rw [spoken, List.filter_cons_of_pos (by simpa [Token.isComment] using h), List.map_cons, spoken]

theorem spoken_comment (h : t.kind = .comment) (ts : List Token) : spoken (t :: ts) = spoken ts := by
  rw [spoken, List.filter_cons_of_neg (by simp [Token.isComment, h]), spoken]

theorem filter_spoken (ts : List Token) : (spoken ts).filter (!·.isComment) = spoken ts := by
  rw [spoken, List.filter_map, List.filter_filter]
  congr 1
  exact List.filter_congr fun t _ => Bool.and_self _

/-! ### Joining -/

/-- Takes a token that is no comment; a word may come with the tokens that it leaves when it joins another one. -/
def Joining.enter (s : Joining) (t : Token) (joined : Option (List Token)) : Joining :=
  match t.kind with
  | .operator =>
    if t.text = "(" then { s with done := t :: s.done, depth := s.depth + 1 }
    else if t.text = ")" then
      { done := t :: s.done, depth := s.depth - 1, pending := s.pending.filter (· < s.depth) }
    else { s with done := t :: s.done }
  | .keyword word =>
    let pending := if word = .between then s.depth :: s.pending else s.pending
    match joined with
    | some done => { s with done, pending }
    | none =>
      if word = .and ∧ pending.head? = some s.depth then
        { s with done := { t with kind := .keyword .betweenAnd } :: s.done, pending := pending.tail }
      else { s with done := t :: s.done, pending }
  | _ => { s with done := t :: s.done }

/-- Lets the word of a chunk join the last token. -/
def joinChunk? (word : Keyword) (c : Chunk) : List Token → Option (List Token)
  | [] => none
  | last :: before =>
    match last.kind with
    | .keyword other =>
      (compound? other word).map fun joined =>
        { last with kind := .keyword joined, text := String.ofList (last.text.toList ++ c.gap ++ c.shown) } :: before
    | _ => none

/-- The word that a token is. -/
def TokenKind.word? : TokenKind → Option Keyword
  | .keyword word => some word
  | _ => none

/-- The token of a chunk, at no place. -/
def Chunk.token (c : Chunk) : Token :=
  ⟨c.kind, String.ofList c.shown, 0⟩

/-- Takes a chunk. -/
def Joining.take (s : Joining) (c : Chunk) : Joining :=
  s.enter c.token (c.kind.word?.bind (joinChunk? · c s.done))

theorem Joining.push_eq_enter (h : t.kind ≠ .comment) (source : List Char) (s : Joining) :
    s.push source t = s.enter t (t.kind.word?.bind (joinLast? source · t s.done)) := by
  obtain ⟨kind, text, offset⟩ := t
  cases kind with
  | comment => exact absurd rfl h
  | _ => rfl

/-- The state with the spoken tokens. -/
def Joining.spoken (s : Joining) : Joining :=
  { s with done := Sql.spoken s.done }

theorem Joining.spoken_enter (h : t.kind ≠ .comment) (s : Joining) (joined : Option (List Token)) :
    (s.enter t joined).spoken = s.spoken.enter t.unplaced (joined.map Sql.spoken) := by
  obtain ⟨kind, text, offset⟩ := t
  have hcons : ∀ {kind : TokenKind}, kind ≠ .comment →
      Sql.spoken (⟨kind, text, offset⟩ :: s.done) = ⟨kind, text, 0⟩ :: Sql.spoken s.done := fun h => spoken_cons h _
  have hput : ∀ (kind : TokenKind) (depth : Int) (pending : List Int), kind ≠ .comment →
      Joining.spoken ⟨⟨kind, text, offset⟩ :: s.done, depth, pending⟩ =
        ⟨⟨kind, text, 0⟩ :: s.spoken.done, depth, pending⟩ := by
    intro kind depth pending hkind
    simp only [Joining.spoken, hcons hkind]
  cases kind with
  | comment => exact absurd rfl h
  | keyword word =>
    cases joined with
    | some done => rfl
    | none =>
      simp only [enter, Token.unplaced, Option.map_none]
      by_cases hand : word = .and ∧
          (if word = .between then s.depth :: s.pending else s.pending).head? = some s.depth
      · rw [if_pos hand, hput (.keyword .betweenAnd) _ _ nofun]
        exact (if_pos hand).symm
      · rw [if_neg hand, hput (.keyword word) _ _ nofun]
        exact (if_neg hand).symm
  | operator =>
    have hsymbol := fun depth pending => hput .operator depth pending nofun
    simp only [enter, Token.unplaced]
    by_cases hopen : text = "("
    · rw [if_pos hopen, hsymbol]
      exact (if_pos hopen).symm
    · by_cases hclose : text = ")"
      · rw [if_neg hopen, if_pos hclose, hsymbol]
        exact ((if_neg hopen).trans (if_pos hclose)).symm
      · rw [if_neg hopen, if_neg hclose, hsymbol]
        exact ((if_neg hopen).trans (if_neg hclose)).symm
  | identifier => exact hput _ _ _ nofun
  | number => exact hput _ _ _ nofun
  | string => exact hput _ _ _ nofun

/-- The token comes last, unless it joins another one. -/
theorem Joining.enter_done (h : t.kind ≠ .comment) (s : Joining) (joined : Option (List Token)) :
    (∃ kind, kind ≠ .comment ∧ (s.enter t joined).done = { t with kind } :: s.done) ∨
      joined = some (s.enter t joined).done := by
  obtain ⟨kind, text, offset⟩ := t
  cases kind with
  | comment => exact absurd rfl h
  | keyword word =>
    cases joined with
    | some done => exact .inr rfl
    | none =>
      refine .inl ?_
      simp only [enter]
      generalize (if word = .between then s.depth :: s.pending else s.pending) = pending
      split
      · exact ⟨.keyword .betweenAnd, nofun, rfl⟩
      · exact ⟨.keyword word, nofun, rfl⟩
  | operator =>
    refine .inl ⟨.operator, nofun, ?_⟩
    simp only [enter]
    split
    · rfl
    · split <;> rfl
  | identifier => exact .inl ⟨_, h, rfl⟩
  | number => exact .inl ⟨_, h, rfl⟩
  | string => exact .inl ⟨_, h, rfl⟩

/-! ### Texts and their chunks -/

/-- The last token that is no comment ends `gap` before the end of the text so far. -/
def Joining.EndsAt (before gap : List Char) (s : Joining) : Prop :=
  ∀ last, (s.done.filter (!·.isComment)).head? = some last →
    ∃ front, before = front ++ (last.text.toList ++ gap) ∧ byteLength front = last.offset

theorem filter_comments {remarks : List Token} (h : ∀ u ∈ remarks, u.kind = .comment) (ts : List Token) :
    (remarks ++ ts).filter (!·.isComment) = ts.filter (!·.isComment) := by
  have hnil : remarks.filter (!·.isComment) = [] := by
    simpa [List.filter_eq_nil_iff, Token.isComment] using h
  rw [List.filter_append, hnil, List.nil_append]

theorem joinLast?_comments {remarks : List Token} (h : ∀ u ∈ remarks, u.kind = .comment) (ts : List Token) :
    joinLast? source word t (remarks ++ ts) = (joinLast? source word t ts).map (remarks ++ ·) := by
  induction remarks with
  | nil => simp
  | cons u remarks ih =>
    rw [List.forall_mem_cons] at h
    rw [List.cons_append, joinLast?, h.1, ih h.2, Option.map_map]
    rfl

/-- A token of the source after what was read so far. -/
structure Comes (source before : List Char) (c : Chunk) (t : Token) : Prop where
  kind : c.kind ≠ .comment
  token : t = ⟨c.kind, String.ofList c.shown, byteLength before⟩
  source : ∃ back, source = before ++ (c.shown ++ back)

/-- A joined word takes the text of both words and the gap between them. -/
theorem Joining.EndsAt.slice {c : Chunk} (h : s.EndsAt before c.gap) (ht : Comes source before c t) {last : Token}
    (hlast : (s.done.filter (!·.isComment)).head? = some last) :
    ∃ front, before = front ++ (last.text.toList ++ c.gap) ∧ byteLength front = last.offset ∧
      sourceSlice last.offset (t.offset + byteLength t.text.toList) 0 source = last.text.toList ++ c.gap ++ c.shown := by
  obtain ⟨front, hbefore, hfront⟩ := h last hlast
  obtain ⟨back, hsource⟩ := ht.source
  refine ⟨front, hbefore, hfront, ?_⟩
  have hsplit : source = front ++ (last.text.toList ++ c.gap ++ c.shown ++ back) := by
    rw [hsource, hbefore]
    simp
  rw [hsplit]
  refine sourceSlice_append (by rw [Nat.zero_add, hfront]) ?_
  rw [ht.token, hbefore, String.toList_ofList]
  simp only [byteLength_append]
  omega

/-- A word joins the same token whether or not there are comments between them. -/
theorem joinLast?_spoken {c : Chunk} (h : s.EndsAt before c.gap) (ht : Comes source before c t) :
    (joinLast? source word t s.done).map spoken = joinChunk? word c (spoken s.done) := by
  cases hfilter : s.done.filter (!·.isComment) with
  | nil =>
    have hremarks : ∀ u ∈ s.done, u.kind = .comment := by
      simpa [List.filter_eq_nil_iff, Token.isComment] using hfilter
    have hjoin : joinLast? source word t (s.done ++ []) = _ := joinLast?_comments hremarks []
    rw [List.append_nil] at hjoin
    rw [hjoin, spoken, hfilter]
    rfl
  | cons last rest =>
    obtain ⟨-, -, -, hslice⟩ := h.slice ht (by rw [hfilter]; rfl)
    obtain ⟨remarks, earlier, hdone, hcomment, hlast, -⟩ := List.filter_eq_cons_iff.mp hfilter
    have hremarks : ∀ u ∈ remarks, u.kind = .comment := by simpa [Token.isComment] using hcomment
    have hkind : last.kind ≠ .comment := by simpa [Token.isComment] using hlast
    have hjoined : ∀ joined text, spoken (remarks ++ ⟨.keyword joined, text, last.offset⟩ :: earlier) =
        ⟨.keyword joined, text, 0⟩ :: spoken earlier := by
      intro joined text
      rw [spoken, filter_comments hremarks]
      rfl
    have hspoken : spoken (remarks ++ last :: earlier) = last.unplaced :: spoken earlier := by
      rw [spoken, filter_comments hremarks]
      exact spoken_cons hkind earlier
    rw [hdone, joinLast?_comments hremarks, hspoken]
    simp only [joinLast?, joinChunk?, Token.unplaced, hslice]
    cases hlast : last.kind with
    | keyword other =>
      simp only [Option.map_map]
      congr 1
      funext joined
      exact hjoined joined _
    | comment => exact absurd hlast hkind
    | _ => rfl

theorem Joining.EndsAt.push {c : Chunk} (h : s.EndsAt before c.gap) (ht : Comes source before c t) :
    (s.push source t).EndsAt (before ++ c.shown) [] := by
  have hkind : t.kind ≠ .comment := by
    rw [ht.token]
    exact ht.kind
  rw [push_eq_enter hkind]
  intro last hlast
  rcases enter_done hkind s (t.kind.word?.bind (joinLast? source · t s.done)) with ⟨kind, hk, hdone⟩ | hjoin
  · rw [hdone, List.filter_cons_of_pos (by simpa [Token.isComment] using hk)] at hlast
    cases hlast
    refine ⟨before, ?_, by rw [ht.token]⟩
    rw [ht.token, String.toList_ofList, List.append_nil]
  · obtain ⟨word, -, hjoin⟩ := Option.bind_eq_some_iff.mp hjoin
    obtain ⟨remarks, last', earlier, k, joined, hdone, hremarks, hk, hjoined, hdone'⟩ := exists_of_joinLast? hjoin
    have hhead : (s.done.filter (!·.isComment)).head? = some last' := by
      rw [hdone, filter_comments hremarks, List.filter_cons_of_pos (by simp [Token.isComment, hk])]
      rfl
    obtain ⟨front, hbefore, hfront, hslice⟩ := h.slice ht hhead
    rw [hdone', filter_comments hremarks, List.filter_cons_of_pos (by simp [Token.isComment])] at hlast
    cases hlast
    refine ⟨front, ?_, hfront⟩
    rw [Token.stop, hslice, String.toList_ofList, hbefore, List.append_nil]
    simp

/-- One more token, and what it says. -/
theorem Joining.spoken_push {c : Chunk} (h : s.EndsAt before c.gap) (ht : Comes source before c t) :
    (s.push source t).spoken = s.spoken.take c := by
  have hkind : t.kind ≠ .comment := by
    rw [ht.token]
    exact ht.kind
  have hjoin : (t.kind.word?.bind (joinLast? source · t s.done)).map Sql.spoken =
      c.kind.word?.bind (joinChunk? · c (Sql.spoken s.done)) := by
    have htk : t.kind = c.kind := by rw [ht.token]
    rw [htk, Option.map_bind]
    congr 1
    funext word
    exact joinLast?_spoken h ht
  rw [push_eq_enter hkind, spoken_enter hkind, hjoin, take]
  congr 1
  rw [ht.token]
  rfl

/-- What the tokens of a text say follows from its chunks. -/
theorem Laid.spoken_foldl (h : Laid offset gap cs ts chunks) (hs : s.EndsAt before gap)
    (hbefore : byteLength before = offset) (hsource : source = before ++ cs) :
    (ts.foldl (Joining.push source) s).spoken = chunks.foldl Joining.take s.spoken := by
  induction h generalizing before s with
  | nil => rfl
  | @blank offset gap cs ts chunks c hc _ ih =>
    have hsource' : source = before ++ [c] ++ cs := by
      rw [hsource, List.append_assoc]
      rfl
    refine ih (fun last hlast => ?_) ?_ hsource'
    · obtain ⟨front, hfront, hoffset⟩ := hs last hlast
      exact ⟨front, by rw [hfront]; simp, hoffset⟩
    · rw [byteLength_append, hbefore]
      rfl
  | @comment offset gap shown rest ts chunks hremark _ ih =>
    have hpush : ∀ offset, (s.push source ⟨.comment, String.ofList shown, offset⟩).spoken = s.spoken := by
      intro offset
      rw [Joining.spoken, Joining.spoken]
      congr 1
    rw [List.foldl_cons, ← hpush offset]
    have hsource' : source = before ++ shown ++ rest := by rw [hsource, List.append_assoc]
    refine ih (fun last hlast => ?_) ?_ hsource'
    · obtain ⟨front, hfront, hoffset⟩ := hs last hlast
      exact ⟨front, by rw [hfront]; simp, hoffset⟩
    · rw [byteLength_append, hbefore]
  | @token offset gap shown rest ts chunks kind hkind hblank hne hscan _ ih =>
    have hcomes : Comes source before ⟨gap, kind, shown⟩ ⟨kind, String.ofList shown, offset⟩ :=
      ⟨hkind, by rw [hbefore], rest, hsource⟩
    rw [List.foldl_cons, List.foldl_cons, ← Joining.spoken_push hs hcomes]
    have hsource' : source = before ++ shown ++ rest := by rw [hsource, List.append_assoc]
    refine ih (hs.push hcomes) ?_ hsource'
    rw [byteLength_append, hbefore]

theorem Laid.spoken_tokens (h : Laid 0 [] source ts chunks) :
    spoken (ts.foldl (Joining.push source) {}).done.reverse = (chunks.foldl Joining.take {}).done.reverse := by
  have hempty : Joining.EndsAt [] [] {} := nofun
  have hspoken := h.spoken_foldl hempty rfl rfl
  rw [spoken_reverse]
  exact congrArg (fun s => s.done.reverse) hspoken

/-- The tokens of a text, as far as they are spoken, and its chunks. -/
theorem exists_chunks_of_tokenize {sql : String} (h : tokenize sql = .ok ts) :
    ∃ raw chunks, Laid 0 [] sql.toList raw chunks ∧ spoken ts = (chunks.foldl Joining.take {}).done.reverse := by
  rw [tokenize, Result.map_eq_ok] at h
  obtain ⟨raw, hraw, rfl⟩ := h
  obtain ⟨chunks, hlaid⟩ := laid_of_scanAll hraw (Nat.lt_succ_self _) []
  exact ⟨raw, chunks, hlaid, hlaid.spoken_tokens⟩

theorem tokenize_of_laid {sql : String} (h : Laid 0 [] sql.toList ts chunks) :
    ∃ us, tokenize sql = .ok us ∧ spoken us = (chunks.foldl Joining.take {}).done.reverse := by
  refine ⟨_, ?_, h.spoken_tokens⟩
  rw [tokenize, h.scanAll (Nat.lt_succ_self _), Except.map]

end ItemQuery.Sql
