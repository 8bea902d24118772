import Mathlib.Data.String.Basic
import ItemQuery.Proofs.Sql.Respacing
import ItemQuery.Proofs.Sql.Weights

/-! Which `and` goes with which `between`. What stands in front of a text changes the marks in it only if a `between` is
    open there: then the first `and` outside of parentheses that no `between` of the text takes is the `and` of a range. -/

namespace ItemQuery.Sql

/-- One more chunk. -/
inductive Joining.Takes (s : Joining) (c : Chunk) : Joining → Prop
  | opens (h : c.token.isOp "(" = true) : Takes s c ⟨c.token :: s.done, s.depth + 1, s.pending⟩
  | closes (h : c.token.isOp ")" = true) : Takes s c ⟨c.token :: s.done, s.depth - 1, s.pending.filter (· < s.depth)⟩
  | between (h : c.kind = .keyword .between) : Takes s c ⟨c.token :: s.done, s.depth, s.depth :: s.pending⟩
  | range {later : List Int} (h : c.kind = .keyword .and) (hpending : s.pending = s.depth :: later) :
      Takes s c ⟨{ c.token with kind := .keyword .betweenAnd } :: s.done, s.depth, later⟩
  | connective (h : c.kind = .keyword .and) (hpending : s.pending.head? ≠ some s.depth) :
      Takes s c ⟨c.token :: s.done, s.depth, s.pending⟩
  | joins {last : Token} {before : List Token} {other word joined : Keyword} {text : String}
      (hdone : s.done = last :: before) (hlast : last.kind = .keyword other) (h : c.kind = .keyword word)
      (hjoined : compound? other word = some joined) :
      Takes s c ⟨{ last with kind := .keyword joined, text } :: before, s.depth,
        if word = .between then s.depth :: s.pending else s.pending⟩
  | other (hturn : c.token.turn = 0) (hweight : c.token.weight = 0) (h : c.kind ≠ .keyword .and) :
      Takes s c ⟨c.token :: s.done, s.depth, s.pending⟩

variable {s s' : Joining} {c : Chunk} {chunks : List Chunk} {k : Keyword} {word : String} {front done : List Token}
  {t : Token} {ts : List Token} {f : Token → Int} {q : List Int}

theorem plain_of_ofWord? (h : Keyword.ofWord? word = some k) : k ≠ .betweenAnd ∧ k ≠ .notBetween := by
  unfold Keyword.ofWord? at h
  split at h <;>
  · cases h <;> decide

theorem Chunk.Sound.plain (hc : c.Sound) (h : c.kind = .keyword k) : k ≠ .betweenAnd ∧ k ≠ .notBetween := by
  have hscan := hc.again [] nofun
  rw [h] at hscan
  obtain ⟨-, hname, -⟩ := identifier_of_keyword hscan
  exact plain_of_ofWord? (nameKind_eq_keyword_iff.mp hname)

theorem Joining.takes (hc : c.Sound) (s : Joining) : s.Takes c (s.take c) := by
  obtain ⟨gap, kind, shown⟩ := c
  cases kind with
  | comment => exact absurd rfl hc.kind
  | identifier => exact .other rfl rfl (by rintro ⟨⟩)
  | number => exact .other rfl rfl (by rintro ⟨⟩)
  | string => exact .other rfl rfl (by rintro ⟨⟩)
  | operator =>
    change s.Takes _ (if String.ofList shown = "(" then _ else if String.ofList shown = ")" then _ else _)
    split
    next hopen => exact .opens (by simp [Token.isOp, Chunk.token, hopen])
    next hopen =>
      split
      next hclose => exact .closes (by simp [Token.isOp, Chunk.token, hclose])
      next hclose => exact .other (by simp [Token.turn, Token.isOp, Chunk.token, hopen, hclose]) rfl (by rintro ⟨⟩)
  | keyword word =>
    obtain ⟨hand, hnot⟩ := hc.plain rfl
    simp only [take, TokenKind.word?, Option.bind_some]
    cases hjoin : joinChunk? word ⟨gap, .keyword word, shown⟩ s.done with
    | some done =>
      cases hdone : s.done with
      | nil =>
        rw [hdone] at hjoin
        cases hjoin
      | cons last before =>
        rw [hdone, joinChunk?] at hjoin
        split at hjoin
        next other hlast =>
          obtain ⟨joined, hjoined, rfl⟩ := Option.map_eq_some_iff.mp hjoin
          exact .joins hdone hlast rfl hjoined
        next => cases hjoin
    | none =>
      simp only [enter, Chunk.token]
      by_cases hbetween : word = .between
      · subst hbetween
        rw [if_pos rfl, if_neg (by simp)]
        exact .between rfl
      · rw [if_neg hbetween]
        by_cases hword : word = .and
        · subst hword
          by_cases hpending : s.pending.head? = some s.depth
          · obtain ⟨later, hlater⟩ := List.head?_eq_some_iff.mp hpending
            rw [if_pos ⟨rfl, hpending⟩, hlater]
            exact .range rfl hlater
          · rw [if_neg fun h => hpending h.2]
            exact .connective rfl hpending
        · rw [if_neg fun h => hword h.1]
          refine .other rfl ?_ fun h => hword (TokenKind.keyword.inj h)
          cases word with
          | between => exact absurd rfl hbetween
          | betweenAnd => exact absurd rfl hand
          | notBetween => exact absurd rfl hnot
          | _ => rfl

/-! ### Accounts of a text -/

theorem total_reverse (f : Token → Int) (ts : List Token) : total f ts.reverse = total f ts := by
  rw [total, List.map_reverse, List.sum_reverse, total]

theorem solvent_concat {n : Int} : Solvent f n (ts ++ [t]) ↔ Solvent f n ts ∧ 0 ≤ n + total f ts + f t := by
  rw [solvent_append, solvent_cons, solvent_nil]
  refine ⟨fun h => ⟨h.1, h.2.2⟩, fun h => ⟨h.1, ?_, h.2⟩⟩
  exact h.1 ts (List.prefix_refl ts)

theorem turn_of_keyword (h : t.kind = .keyword k) : t.turn = 0 := by
  simp [Token.turn, Token.isOp, h]

theorem weight_of_isOp {symbol : String} (h : t.isOp symbol = true) : t.weight = 0 := by
  rw [Token.weight, kind_of_isOp h]

/-- A joined word is no `and`, and it asks for bounds if its second half does. -/
theorem compound?_cases {other word joined : Keyword} (h : compound? other word = some joined) (text text' : String)
    (offset : Nat) : joined ≠ .and ∧ Token.weight ⟨.keyword other, text, offset⟩ = 0 ∧
      Token.weight ⟨.keyword joined, text', offset⟩ = if word = .between then 1 else 0 := by
  cases other with
  | not =>
    cases word with
    | like =>
      cases h
      exact ⟨nofun, rfl, rfl⟩
    | inList =>
      cases h
      exact ⟨nofun, rfl, rfl⟩
    | between =>
      cases h
      exact ⟨nofun, rfl, rfl⟩
    | _ => cases h
  | is =>
    cases word with
    | not =>
      cases h
      exact ⟨nofun, rfl, rfl⟩
    | _ => cases h
  | _ => cases h

theorem Joining.Takes.turns (h : s.Takes c s') :
    s'.depth = s.depth + c.token.turn ∧ total Token.turn s'.done = total Token.turn s.done + c.token.turn := by
  have hsame : ∀ {depth : Int} {t : Token}, t.turn = c.token.turn → depth = s.depth + c.token.turn →
      depth = s.depth + c.token.turn ∧ total Token.turn (t :: s.done) = total Token.turn s.done + c.token.turn := by
    intro depth t ht hdepth
    exact ⟨hdepth, by rw [total_cons, ht, Int.add_comm]⟩
  have hkeyword : ∀ {k : Keyword}, c.kind = .keyword k → s.depth = s.depth + c.token.turn := by
    intro k hk
    rw [turn_of_keyword (t := c.token) hk, Int.add_zero]
  cases h with
  | opens h => exact hsame rfl (by rw [Token.turn, if_pos h])
  | closes h => exact hsame rfl (by rw [turn_of_isOp_close h, Int.sub_eq_add_neg])
  | between h => exact hsame rfl (hkeyword h)
  | range h => exact hsame ((turn_of_keyword rfl).trans (turn_of_keyword h).symm) (hkeyword h)
  | connective h => exact hsame rfl (hkeyword h)
  | other hturn => exact hsame rfl (by rw [hturn, Int.add_zero])
  | joins hdone hlast h =>
    refine ⟨hkeyword h, ?_⟩
    rw [hdone, total_cons, total_cons, turn_of_keyword hlast, turn_of_keyword rfl, turn_of_keyword (t := c.token) h,
      Int.add_zero]

/-- Parentheses that are never closed too early in the end never were. -/
theorem Joining.Takes.solvent (h : s.Takes c s') (hs : Solvent Token.turn 0 s'.done.reverse) :
    Solvent Token.turn 0 s.done.reverse := by
  have hcons : ∀ {t : Token}, Solvent Token.turn 0 (t :: s.done).reverse → Solvent Token.turn 0 s.done.reverse := by
    intro t ht
    rw [List.reverse_cons, solvent_concat] at ht
    exact ht.1
  cases h with
  | joins hdone hlast =>
    rw [List.reverse_cons, solvent_concat, turn_of_keyword rfl] at hs
    rw [hdone, List.reverse_cons, solvent_concat, turn_of_keyword hlast]
    exact hs
  | _ => exact hcons hs

/-- Each `and` of a range has its `between`. -/
structure Joining.Paired (s : Joining) : Prop where
  solvent : Solvent Token.weight 0 s.done.reverse
  pending : s.pending.length ≤ total Token.weight s.done

theorem Joining.Takes.paired (h : s.Takes c s') (hs : s.Paired) : s'.Paired := by
  have hcons : ∀ {t : Token} {depth : Int} {pending : List Int}, pending.length ≤ t.weight + total Token.weight s.done →
      Joining.Paired ⟨t :: s.done, depth, pending⟩ := by
    intro t depth pending hle
    refine ⟨?_, by rwa [total_cons]⟩
    rw [List.reverse_cons, solvent_concat, total_reverse]
    exact ⟨hs.solvent, by omega⟩
  have hpending := hs.pending
  cases h with
  | opens h => exact hcons (by rw [weight_of_isOp h, Int.zero_add]; exact hpending)
  | closes h =>
    refine hcons ?_
    rw [weight_of_isOp h, Int.zero_add]
    exact (Int.ofNat_le.mpr (List.length_filter_le _ _)).trans hpending
  | between h =>
    refine hcons ?_
    have hweight : c.token.weight = 1 := by rw [Token.weight, Chunk.token, h]
    rw [hweight, List.length_cons]
    omega
  | range h hlater =>
    refine hcons ?_
    rw [hlater, List.length_cons] at hpending
    have hweight : Token.weight { c.token with kind := .keyword .betweenAnd } = -1 := rfl
    rw [hweight]
    omega
  | connective h =>
    refine hcons ?_
    have hweight : c.token.weight = 0 := by rw [Token.weight, Chunk.token, h]
    rw [hweight, Int.zero_add]
    exact hpending
  | other _ hweight => exact hcons (by rw [hweight, Int.zero_add]; exact hpending)
  | @joins last before other word joined text hdone hlast _ hjoined =>
    obtain ⟨kind, text', offset⟩ := last
    cases hlast
    obtain ⟨-, hother, hweight⟩ := compound?_cases hjoined text' text offset
    have hsolvent := hs.solvent
    rw [hdone, total_cons, hother, Int.zero_add] at hpending
    rw [hdone, List.reverse_cons, solvent_concat, hother] at hsolvent
    have hle : ((if word = .between then s.depth :: s.pending else s.pending).length : Int) ≤
        (if word = .between then 1 else 0) + total Token.weight before := by
      split
      · rw [List.length_cons]
        omega
      · omega
    refine ⟨?_, by rwa [total_cons, hweight]⟩
    rw [List.reverse_cons, solvent_concat, total_reverse, hweight]
    exact ⟨hsolvent.1, by omega⟩

theorem paired_foldl (hsound : ∀ c ∈ chunks, c.Sound) (hs : s.Paired) : (chunks.foldl Joining.take s).Paired := by
  induction chunks generalizing s with
  | nil => exact hs
  | cons c chunks ih =>
    rw [List.forall_mem_cons] at hsound
    exact ih hsound.2 ((Joining.takes hsound.1 s).paired hs)

/-! ### The first `and` outside of parentheses -/

variable {d : Int}

theorem splitAtAnd?_cons : splitAtAnd? d (t :: ts) = if d = 0 ∧ t.kind = .keyword .and then some ([], t, ts) else
    (splitAtAnd? (d + t.turn) ts).map fun halves => (t :: halves.1, halves.2) := by
  rw [splitAtAnd?]
  have hturn : (if t.isOp "(" = true then d + 1 else if t.isOp ")" = true then d - 1 else d) = d + t.turn := by
    rw [Token.turn]
    split
    · rfl
    · split
      · exact Int.sub_eq_add_neg
      · exact (Int.add_zero d).symm
  split
  · rfl
  · rw [hturn]

theorem splitAtAnd?_append {us : List Token} (h : splitAtAnd? d ts = none) : splitAtAnd? d (ts ++ us) =
    (splitAtAnd? (d + total Token.turn ts) us).map fun halves => (ts ++ halves.1, halves.2) := by
  induction ts generalizing d with
  | nil => simp
  | cons t ts ih =>
    rw [splitAtAnd?_cons] at h
    split at h
    next => cases h
    next hand =>
      rw [List.cons_append, splitAtAnd?_cons, if_neg hand, ih (Option.map_eq_none_iff.mp h), Option.map_map, total_cons,
        Int.add_assoc]
      rfl

theorem splitAtAnd?_of_append {us : List Token} (h : splitAtAnd? d (ts ++ us) = none) : splitAtAnd? d ts = none := by
  induction ts generalizing d with
  | nil => rfl
  | cons t ts ih =>
    rw [List.cons_append, splitAtAnd?_cons] at h
    split at h
    next => cases h
    next hand => rw [splitAtAnd?_cons, if_neg hand, ih (Option.map_eq_none_iff.mp h), Option.map_none]

theorem splitAtAnd?_concat (h : splitAtAnd? d ts = none) (ht : t.kind = .keyword .and → d + total Token.turn ts ≠ 0) :
    splitAtAnd? d (ts ++ [t]) = none := by
  rw [splitAtAnd?_append h, splitAtAnd?_cons, if_neg fun hand => ht hand.2 hand.1]
  rfl

/-- A text whose parentheses are not closed too early, and that has no `and` outside of them but those of its ranges. -/
structure Joining.Waiting (s : Joining) : Prop where
  depth : s.depth = total Token.turn s.done
  pending : ∀ d ∈ s.pending, 0 ≤ d ∧ d ≤ s.depth
  unsplit : splitAtAnd? 0 s.done.reverse = none

theorem Joining.Takes.waiting (h : s.Takes c s') (hs : s.Waiting) (hdepth : 0 ≤ s'.depth)
    (hand : c.kind = .keyword .and → s.pending = [] → s.depth ≠ 0) : s'.Waiting where
  depth := by rw [h.turns.1, h.turns.2, hs.depth]
  pending := by
    intro d hd
    cases h with
    | opens => exact ⟨(hs.pending d hd).1, Int.le_add_one (hs.pending d hd).2⟩
    | closes =>
      obtain ⟨hd, hlt⟩ := List.mem_filter.mp hd
      exact ⟨(hs.pending d hd).1, Int.le_sub_one_of_lt (of_decide_eq_true hlt)⟩
    | between =>
      rcases List.mem_cons.mp hd with rfl | hd
      · exact ⟨hdepth, Int.le_refl _⟩
      · exact hs.pending d hd
    | range _ hlater => exact hs.pending d (hlater ▸ List.mem_cons_of_mem _ hd)
    | connective => exact hs.pending d hd
    | other => exact hs.pending d hd
    | joins =>
      dsimp only at hd
      split at hd
      · rcases List.mem_cons.mp hd with rfl | hd
        · exact ⟨hdepth, Int.le_refl _⟩
        · exact hs.pending d hd
      · exact hs.pending d hd
  unsplit := by
    have hcons : ∀ {t : Token}, (t.kind = .keyword .and → s.depth ≠ 0) → splitAtAnd? 0 (t :: s.done).reverse = none := by
      intro t ht
      rw [List.reverse_cons]
      refine splitAtAnd?_concat hs.unsplit ?_
      rwa [total_reverse, Int.zero_add, ← hs.depth]
    have hkind : ∀ {kind : TokenKind}, c.kind = kind → kind ≠ .keyword .and →
        splitAtAnd? 0 (c.token :: s.done).reverse = none := by
      intro kind hc hne
      exact hcons fun h => absurd (hc.symm.trans h) hne
    cases h with
    | opens h => exact hkind (kind_of_isOp h) nofun
    | closes h => exact hkind (kind_of_isOp h) nofun
    | between h => exact hkind h nofun
    | range => exact hcons nofun
    | other _ _ h => exact hkind rfl h
    | connective h hpending =>
      refine hcons fun _ hzero => ?_
      cases hp : s.pending with
      | nil => exact hand h hp hzero
      | cons d later =>
        obtain ⟨hnonneg, hle⟩ := hs.pending d (hp ▸ List.mem_cons_self)
        rw [hp] at hpending
        exact hpending (congrArg some (by omega))
    | @joins last before other word joined text hdone hlast _ hjoined =>
      have hunsplit := hs.unsplit
      rw [hdone, List.reverse_cons] at hunsplit
      rw [List.reverse_cons]
      refine splitAtAnd?_concat (splitAtAnd?_of_append hunsplit) fun h => ?_
      exact absurd (TokenKind.keyword.inj h) (compound?_cases hjoined "" "" 0).1

/-! ### Behind other tokens -/

/-- The state behind other tokens, where parentheses and a `between` may be open. -/
def Joining.behind (s : Joining) (front : List Token) (depth : Int) (pending : List Int) : Joining where
  done := s.done ++ front
  depth := s.depth + depth
  pending := s.pending.map (· + depth) ++ pending

theorem joinChunk?_append (hfront : joinChunk? k c front = none) (done : List Token) :
    joinChunk? k c (done ++ front) = (joinChunk? k c done).map (· ++ front) := by
  cases done with
  | nil => exact hfront
  | cons last before =>
    rw [List.cons_append, joinChunk?, joinChunk?]
    cases last.kind with
    | keyword other =>
      rw [Option.map_map]
      rfl
    | _ => rfl

/-- No word joins an `and`. -/
theorem joinChunk?_and (ht : t.kind = .keyword .and ∨ t.kind = .keyword .betweenAnd) : joinChunk? k c (t :: ts) = none := by
  rw [joinChunk?]
  rcases ht with ht | ht <;>
  · rw [ht]
    rfl

theorem take_behind (hc : c.kind ≠ .comment) (hfront : ∀ k, joinChunk? k c front = none)
    (hclose : c.token.isOp ")" = true → ∀ e ∈ q, e < s.depth + d)
    (hand : c.kind = .keyword .and → s.pending = [] → q.head? ≠ some (s.depth + d)) :
    (s.behind front d q).take c = (s.take c).behind front d q := by
  obtain ⟨gap, kind, shown⟩ := c
  cases kind with
  | comment => exact absurd rfl hc
  | identifier => rfl
  | number => rfl
  | string => rfl
  | operator =>
    change (if String.ofList shown = "(" then _ else if String.ofList shown = ")" then _ else _) =
      Joining.behind (if String.ofList shown = "(" then _ else if String.ofList shown = ")" then _ else _) front d q
    split
    next => simp [Joining.behind, Int.add_right_comm]
    next =>
      split
      next hshown =>
        have hkept : q.filter (· < s.depth + d) = q :=
          List.filter_eq_self.mpr fun e he => decide_eq_true (hclose (by simp [Token.isOp, Chunk.token, hshown]) e he)
        have hshift : (s.pending.map (· + d)).filter (· < s.depth + d) = (s.pending.filter (· < s.depth)).map (· + d) := by
          rw [List.filter_map]
          congr 1
          refine List.filter_congr fun e _ => ?_
          exact decide_eq_decide.mpr (Int.add_lt_add_iff_right d)
        have hdepth : s.depth + d - 1 = s.depth - 1 + d := by omega
        change Joining.mk _ (s.depth + d - 1) ((s.pending.map (· + d) ++ q).filter (· < s.depth + d)) = _
        rw [List.filter_append, hkept, hshift, hdepth]
        rfl
      next => rfl
  | keyword word =>
    simp only [Joining.take, TokenKind.word?, Option.bind_some]
    rw [show (s.behind front d q).done = s.done ++ front from rfl, joinChunk?_append (hfront word)]
    cases joinChunk? word ⟨gap, .keyword word, shown⟩ s.done with
    | some done =>
      simp only [Joining.enter, Chunk.token, Option.map_some, Joining.behind]
      split <;> rfl
    | none =>
      simp only [Joining.enter, Chunk.token, Option.map_none]
      by_cases hbetween : word = .between
      · subst hbetween
        rw [if_pos rfl, if_pos rfl, if_neg (by simp), if_neg (by simp)]
        rfl
      · rw [if_neg hbetween, if_neg hbetween]
        have hhead : word = .and → ((s.behind front d q).pending.head? = some (s.behind front d q).depth ↔
            s.pending.head? = some s.depth) := by
          rintro rfl
          simp only [Joining.behind]
          cases hpending : s.pending with
          | nil =>
            simp [hand rfl hpending]
          | cons e later => simp
        by_cases hrange : word = .and ∧ s.pending.head? = some s.depth
        · obtain ⟨rfl, hpending⟩ := hrange
          rw [if_pos ⟨rfl, (hhead rfl).mpr hpending⟩, if_pos ⟨rfl, hpending⟩]
          obtain ⟨later, hlater⟩ := List.head?_eq_some_iff.mp hpending
          simp [Joining.behind, hlater]
        · rw [if_neg hrange, if_neg fun h => hrange ⟨h.1, (hhead h.1).mp h.2⟩]
          rfl

theorem foldl_behind (hsound : ∀ c ∈ chunks, c.Sound) (hfront : ∀ k c, joinChunk? k c front = none) (s : Joining) :
    chunks.foldl Joining.take (s.behind front d []) = (chunks.foldl Joining.take s).behind front d [] := by
  induction chunks generalizing s with
  | nil => rfl
  | cons c chunks ih =>
    rw [List.forall_mem_cons] at hsound
    have htake : (s.behind front d []).take c = (s.take c).behind front d [] :=
      take_behind hsound.1.kind (hfront · c) (fun _ => List.forall_mem_nil _) fun _ _ => nofun
    rw [List.foldl_cons, htake, ih hsound.2]
    rfl

/-- An `and` is the one of a range or a connective. -/
theorem Joining.Takes.of_and (h : s.Takes c s') (hc : c.kind = .keyword .and) :
    (∃ later, s.pending = s.depth :: later ∧
      s' = ⟨{ c.token with kind := .keyword .betweenAnd } :: s.done, s.depth, later⟩) ∨
    s.pending.head? ≠ some s.depth ∧ s' = ⟨c.token :: s.done, s.depth, s.pending⟩ := by
  cases h with
  | range _ hpending => exact .inl ⟨_, hpending, rfl⟩
  | connective _ hpending => exact .inr ⟨hpending, rfl⟩
  | opens h => cases (kind_of_isOp h).symm.trans hc
  | closes h => cases (kind_of_isOp h).symm.trans hc
  | between h => cases h.symm.trans hc
  | other _ _ h => exact absurd hc h
  | @joins _ _ other _ _ _ _ _ h hjoined =>
    cases h.symm.trans hc
    cases other <;> cases hjoined

/-- Where the text behind an open `between` has its first `and` outside of parentheses that no other `between` takes. -/
theorem foldl_behind_between (hsound : ∀ c ∈ chunks, c.Sound) (hfront : ∀ k c, joinChunk? k c front = none)
    (hturn : total Token.turn front = 0)
    (hsolvent : Solvent Token.turn 0 (chunks.foldl Joining.take (Joining.behind {} front 0 [0])).done.reverse) :
    ((chunks.foldl Joining.take {}).Waiting ∧
      chunks.foldl Joining.take (Joining.behind {} front 0 [0]) = (chunks.foldl Joining.take {}).behind front 0 [0]) ∨
    ∃ before c after, chunks = before ++ c :: after ∧ c.kind = .keyword .and ∧ (before.foldl Joining.take {}).Waiting ∧
      (before.foldl Joining.take {}).depth = 0 ∧ (before.foldl Joining.take {}).pending = [] ∧
      before.foldl Joining.take (Joining.behind {} front 0 [0]) = (before.foldl Joining.take {}).behind front 0 [0] := by
  induction chunks using List.reverseRecOn with
  | nil => exact .inl ⟨⟨rfl, List.forall_mem_nil _, rfl⟩, rfl⟩
  | append_singleton chunks c ih =>
    rw [List.forall_mem_append, List.forall_mem_singleton] at hsound
    obtain ⟨hsound, hc⟩ := hsound
    rw [List.foldl_append, List.foldl_cons, List.foldl_nil] at hsolvent
    have htakes := Joining.takes hc (chunks.foldl Joining.take (Joining.behind {} front 0 [0]))
    rcases ih hsound (htakes.solvent hsolvent) with ⟨hwaiting, hbehind⟩ | ⟨before, c', after, rfl, hbefore⟩
    · rw [List.foldl_append, List.foldl_cons, List.foldl_nil, List.foldl_append, List.foldl_cons, List.foldl_nil, hbehind]
      rw [hbehind] at hsolvent htakes
      generalize hs : chunks.foldl Joining.take {} = s at hwaiting hbehind hsolvent htakes ⊢
      by_cases hand : c.kind = .keyword .and ∧ s.pending = [] ∧ s.depth = 0
      · obtain ⟨hand, hpending, hdepth⟩ := hand
        subst hs
        exact .inr ⟨chunks, c, [], rfl, hand, hwaiting, hdepth, hpending, hbehind⟩
      · have hnonneg : 0 ≤ s.depth + c.token.turn := by
          have hall := hsolvent _ (List.prefix_refl _)
          rw [total_reverse, htakes.turns.2, Int.zero_add] at hall
          rwa [show (s.behind front 0 [0]).done = s.done ++ front from rfl, total_append, hturn, Int.add_zero,
            ← hwaiting.depth] at hall
        have hplain : c.kind = .keyword .and → s.pending = [] → s.depth ≠ 0 := fun h hp hd => hand ⟨h, hp, hd⟩
        have htake := Joining.takes hc s
        refine .inl ⟨htake.waiting hwaiting (htake.turns.1 ▸ hnonneg) hplain, ?_⟩
        refine take_behind hc.kind (hfront · c) (fun hclose => List.forall_mem_singleton.mpr ?_) fun h hp => ?_
        · rw [turn_of_isOp_close hclose] at hnonneg
          omega
        · have hdepth := hplain h hp
          rw [List.head?_cons, Int.add_zero]
          exact fun heq => hdepth (Option.some.inj heq).symm
    · refine .inr ⟨before, c', after ++ [c], by simp, hbefore⟩

/-- The text behind a `between`, and the same text alone. -/
theorem exists_halves (hsound : ∀ c ∈ chunks, c.Sound) (hfront : ∀ k c, joinChunk? k c front = none)
    (hturn : total Token.turn front = 0)
    (hsolvent : Solvent Token.turn 0 (chunks.foldl Joining.take (Joining.behind {} front 0 [0])).done.reverse) :
    (∃ low, (chunks.foldl Joining.take (Joining.behind {} front 0 [0])).done.reverse = front.reverse ++ low ∧
      Solvent Token.weight 0 low) ∨
    ∃ low mark mark' high, splitAtAnd? 0 (chunks.foldl Joining.take {}).done.reverse = some (low, mark', high) ∧
      (chunks.foldl Joining.take (Joining.behind {} front 0 [0])).done.reverse = front.reverse ++ (low ++ mark :: high) ∧
      mark.kind = .keyword .betweenAnd ∧ total Token.turn low = 0 ∧ Solvent Token.weight 0 low ∧
        Solvent Token.weight 0 high := by
  have hempty : Joining.Paired {} := ⟨solvent_nil.mpr (Int.le_refl 0), Int.le_refl 0⟩
  rcases foldl_behind_between hsound hfront hturn hsolvent with
    ⟨-, hbehind⟩ | ⟨before, c, after, rfl, hand, hwaiting, hdepth, hpending, hbehind⟩
  · refine .inl ⟨_, ?_, (paired_foldl hsound hempty).solvent⟩
    rw [hbehind, ← List.reverse_append]
    rfl
  · rw [List.forall_mem_append, List.forall_mem_cons] at hsound
    obtain ⟨hbefore, hc, hafter⟩ := hsound
    have hlow := paired_foldl hbefore hempty
    have hhigh := paired_foldl hafter hempty
    rw [List.foldl_append, List.foldl_cons, List.foldl_append, List.foldl_cons, hbehind]
    generalize before.foldl Joining.take {} = s at hwaiting hdepth hpending hlow ⊢
    have halone : s.take c = Joining.behind {} (c.token :: s.done) 0 [] := by
      rcases (Joining.takes hc s).of_and hand with ⟨later, hlater, -⟩ | ⟨-, htake⟩
      · rw [hpending] at hlater
        cases hlater
      · rw [htake, hdepth, hpending]
        rfl
    have hinline : (s.behind front 0 [0]).take c =
        Joining.behind {} ({ c.token with kind := .keyword .betweenAnd } :: (s.done ++ front)) 0 [] := by
      have hopen : (s.behind front 0 [0]).pending.head? = some (s.behind front 0 [0]).depth := by
        simp [Joining.behind, hpending, hdepth]
      rcases (Joining.takes hc (s.behind front 0 [0])).of_and hand with ⟨later, hlater, htake⟩ | ⟨hnot, -⟩
      · simp only [Joining.behind, hpending, hdepth, List.map_nil, List.nil_append, Int.add_zero] at hlater
        rw [htake]
        cases hlater
        simp [Joining.behind, hdepth]
      · exact absurd hopen hnot
    have hkind : c.token.kind = .keyword .and := hand
    rw [halone, hinline, foldl_behind hafter fun k c' => joinChunk?_and (.inl hkind),
      foldl_behind hafter fun k c' => joinChunk?_and (.inr rfl)]
    refine .inr ⟨s.done.reverse, { c.token with kind := .keyword .betweenAnd }, c.token,
      (after.foldl Joining.take {}).done.reverse, ?_, ?_, rfl, ?_, hlow.solvent, hhigh.solvent⟩
    · rw [Joining.behind, List.reverse_append, List.reverse_cons, List.append_assoc, splitAtAnd?_append hwaiting.unsplit,
        total_reverse, ← hwaiting.depth, hdepth, List.singleton_append, splitAtAnd?_cons, if_pos ⟨rfl, hkind⟩]
      simp
    · simp [Joining.behind]
    · rw [total_reverse, ← hwaiting.depth, hdepth]

end ItemQuery.Sql
