import ItemQuery.Proofs.Sql.Scanning

/-! Pairs of words become one token, and the `and` of a `between` is told from a connective by the depth of
    parentheses. `Spoken` is the grammar of the phrases that expressions are written with; joining gives back
    exactly these phrases. -/

namespace ItemQuery.Sql

/-! ### Single words -/

/-- The phrases that a phrase is scanned as, before words are joined. -/
def Phrase.split : Phrase → List Phrase
  | word .notLike => [word .not, word .like]
  | word .notIn => [word .not, word .inList]
  | word .notBetween => [word .not, word .between]
  | word .isNot => [word .is, word .not]
  | word .betweenAnd => [word .and]
  | p => [p]

/-- Whether an operand can end with the phrase. -/
def Phrase.closes : Phrase → Bool
  | name _ | number _ | string _ | word .null => true
  | symbol shown => shown == ")"
  | _ => false

/-- Whether the last phrase ends an operand. -/
def Closed (ps : List Phrase) : Prop :=
  ∃ p, ps.getLast? = some p ∧ p.closes = true

theorem Closed.append (ps : List Phrase) {qs : List Phrase} (h : Closed qs) : Closed (ps ++ qs) := by
  obtain ⟨p, hp, hc⟩ := h
  exact ⟨p, by rw [List.getLast?_append, hp, Option.some_or], hc⟩

theorem Closed.cons (p : Phrase) {qs : List Phrase} (h : Closed qs) : Closed (p :: qs) :=
  h.append [p]

theorem closed_singleton {p : Phrase} (h : p.closes = true) : Closed [p] :=
  ⟨p, rfl, h⟩

/-- Phrases with commas between them. -/
def commaList : List (List Phrase) → List Phrase
  | [] => []
  | [ps] => ps
  | ps :: qs :: rest => ps ++ .symbol "," :: commaList (qs :: rest)

/-! ### Grammar -/

/-- Connectives and comparisons in words that stand between two operands. -/
def Keyword.isInfix : Keyword → Bool
  | .and | .or | .like | .notLike => true
  | _ => false

/-- The phrases of an operand. A quiet one has no connective `and` outside of parentheses. -/
inductive Spoken : Bool → List Phrase → Prop
  | loud {ps : List Phrase} (h : Spoken true ps) : Spoken false ps
  | atom {p : Phrase} (hp : p.closes = true) (hsymbol : ∀ s, p ≠ .symbol s) (hword : ∀ k, p ≠ .word k) : Spoken true [p]
  | enclosed {ps : List Phrase} (h : Spoken false ps) : Spoken true (.symbol "(" :: (ps ++ [.symbol ")"]))
  | minus {quiet : Bool} {ps : List Phrase} (h : Spoken quiet ps) : Spoken quiet (.symbol "-" :: ps)
  | not {quiet : Bool} {ps : List Phrase} (h : Spoken quiet ps) : Spoken quiet (.word .not :: ps)
  | symbol {quiet : Bool} {s : String} {ps qs : List Phrase} (hs : s ≠ "(" ∧ s ≠ ")") (hl : Spoken quiet ps)
      (hr : Spoken quiet qs) : Spoken quiet (ps ++ .symbol s :: qs)
  | word {quiet : Bool} {k : Keyword} {ps qs : List Phrase} (hk : k.isInfix = true) (hand : k = .and → quiet = false)
      (hl : Spoken quiet ps) (hr : Spoken quiet qs) : Spoken quiet (ps ++ .word k :: qs)
  | between {quiet : Bool} {k : Keyword} {ps low high : List Phrase} (hk : k = .between ∨ k = .notBetween)
      (h : Spoken quiet ps) (hlow : Spoken true low) (hhigh : Spoken quiet high) :
      Spoken quiet (ps ++ .word k :: (low ++ .word .betweenAnd :: high))
  | null {quiet : Bool} {k : Keyword} {ps : List Phrase} (hk : k = .is ∨ k = .isNot) (h : Spoken quiet ps) :
      Spoken quiet (ps ++ [.word k, .word .null])
  | inList {quiet : Bool} {k : Keyword} {ps : List Phrase} {items : List (List Phrase)}
      (hk : k = .inList ∨ k = .notIn) (h : Spoken quiet ps) (hne : items ≠ [])
      (hitems : ∀ item ∈ items, Spoken false item) :
      Spoken quiet (ps ++ .word k :: .symbol "(" :: (commaList items ++ [.symbol ")"]))

theorem Spoken.closed {quiet : Bool} {ps : List Phrase} (h : Spoken quiet ps) : Closed ps := by
  induction h with
  | loud _ ih => exact ih
  | atom hp => exact closed_singleton hp
  | enclosed _ _ => exact ((closed_singleton rfl).append _).cons _
  | minus _ ih => exact ih.cons _
  | not _ ih => exact ih.cons _
  | symbol _ _ _ _ ih => exact (ih.cons _).append _
  | word _ _ _ _ _ ih => exact (ih.cons _).append _
  | between _ _ _ _ _ _ ih => exact (((ih.cons _).append _).cons _).append _
  | null _ _ _ => exact ((closed_singleton rfl).cons _).append _
  | inList _ _ _ _ _ _ => exact ((((closed_singleton rfl).append _).cons _).cons _).append _

/-- Texts with commas and blanks between them. -/
theorem prints_commaList {texts : List String} {items : List (List Phrase)} (hne : items ≠ [])
    (h : List.Forall₂ (fun text ps => Prints text.toList (ps.flatMap Phrase.split)) texts items) :
    Prints (", ".intercalate texts).toList ((commaList items).flatMap Phrase.split) := by
  induction h with
  | nil => exact absurd rfl hne
  | @cons text item texts items hitem hrest ih =>
    cases hrest with
    | nil =>
      rw [String.intercalate_singleton]
      exact hitem
    | @cons next other texts items hnext hrest =>
      have hmore := ih nofun
      intro rest qs hdelimited hqs
      have hblank : Scanned (' ' :: ((", ".intercalate (next :: texts)).toList ++ rest)) _ :=
        .blank rfl (hmore rest qs hdelimited hqs)
      have hall := hitem _ _ (delimited_cons (Or.inr (Or.inr rfl)) _) (.mark (Or.inr (Or.inr rfl)) hblank)
      have hlist : (", ".intercalate (text :: next :: texts)).toList
          = text.toList ++ ',' :: ' ' :: (", ".intercalate (next :: texts)).toList := by
        rw [String.intercalate_cons_cons]
        simp
      have hcomma : String.singleton ',' = "," := rfl
      rw [hcomma] at hall
      rw [hlist]
      simpa only [commaList, List.flatMap_append, List.flatMap_cons, Phrase.split, List.append_assoc,
        List.cons_append, List.nil_append] using hall

theorem comment_notMem_commaList {items : List (List Phrase)} (h : ∀ item ∈ items, Phrase.comment ∉ item) :
    Phrase.comment ∉ commaList items := by
  induction items with
  | nil => exact List.not_mem_nil
  | cons item items ih =>
    have hitem := h item List.mem_cons_self
    cases items with
    | nil => exact hitem
    | cons next items =>
      have hrest := ih fun other hother => h other (List.mem_cons_of_mem item hother)
      simp only [commaList, List.mem_append, List.mem_cons, reduceCtorEq, false_or, not_or]
      exact ⟨hitem, hrest⟩

theorem Spoken.comment_notMem {quiet : Bool} {ps : List Phrase} (h : Spoken quiet ps) : Phrase.comment ∉ ps := by
  induction h with
  | loud _ ih => exact ih
  | atom hp =>
    intro hmem
    rw [← List.mem_singleton.mp hmem] at hp
    cases hp
  | inList _ _ _ _ ih ihitems =>
    have hlist := comment_notMem_commaList ihitems
    simp only [List.mem_append, List.mem_cons, reduceCtorEq, List.not_mem_nil, false_or, or_false, not_or]
    exact ⟨ih, hlist⟩
  | _ => simp_all

/-! ### Steps -/

section
variable {source : List Char} {s : Joining} {t : Token}

/-- The last token does not wait for a second word. -/
def Joining.Settled (s : Joining) : Prop :=
  ∀ last, s.done.head? = some last → last.phrase.closes = true

/-- The last token may stand before an operand. -/
def Joining.Ready (s : Joining) : Prop :=
  ∀ last, s.done.head? = some last → last.phrase ≠ .word .is ∧ last.phrase ≠ .comment

theorem Token.kind_of_word {k : Keyword} (h : t.phrase = .word k) : t.kind = .keyword k := by
  obtain ⟨kind, shown, offset⟩ := t
  cases kind <;> simp_all [Token.phrase, Phrase.of]

theorem Token.kind_of_symbol {shown : String} (h : t.phrase = .symbol shown) : t.kind = .operator ∧ t.text = shown := by
  obtain ⟨kind, shown', offset⟩ := t
  cases kind <;> simp_all [Token.phrase, Phrase.of]

/-- A word does not join the end of an operand. -/
theorem Joining.Settled.joinLast? (h : s.Settled) (k : Keyword) : joinLast? source k t s.done = none := by
  cases hd : s.done with
  | nil => rfl
  | cons last before =>
    have hlast := h last (by rw [hd]; rfl)
    obtain ⟨kind, shown, offset⟩ := last
    rw [Sql.joinLast?]
    cases kind with
    | keyword other => cases other <;> simp_all [Token.phrase, Phrase.of, Phrase.closes, compound?]
    | comment => simp [Token.phrase, Phrase.of, Phrase.closes] at hlast
    | _ => rfl

theorem Joining.Ready.joinLast? (h : s.Ready) : Sql.joinLast? source .not t s.done = none := by
  cases hd : s.done with
  | nil => rfl
  | cons last before =>
    have hlast := h last (by rw [hd]; rfl)
    obtain ⟨kind, shown, offset⟩ := last
    rw [Sql.joinLast?]
    cases kind with
    | keyword other => cases other <;> simp_all [Token.phrase, Phrase.of, compound?]
    | comment => simp [Token.phrase, Phrase.of] at hlast
    | _ => rfl

theorem Joining.push_symbol {shown : String} (ht : t.phrase = .symbol shown) (hs : shown ≠ "(" ∧ shown ≠ ")") :
    s.push source t = { s with done := t :: s.done } := by
  obtain ⟨hkind, htext⟩ := t.kind_of_symbol ht
  simp only [Joining.push, hkind, htext, hs.1, hs.2, if_false]

theorem Joining.push_open (ht : t.phrase = .symbol "(") :
    s.push source t = { s with done := t :: s.done, depth := s.depth + 1 } := by
  obtain ⟨hkind, htext⟩ := t.kind_of_symbol ht
  simp only [Joining.push, hkind, htext, if_true]

theorem Joining.push_close (ht : t.phrase = .symbol ")") :
    s.push source t
      = { done := t :: s.done, depth := s.depth - 1, pending := s.pending.filter (· < s.depth) } := by
  obtain ⟨hkind, htext⟩ := t.kind_of_symbol ht
  simp only [Joining.push, hkind, htext, String.reduceEq, if_false, if_true]

theorem Joining.push_word {k : Keyword} (ht : t.phrase = .word k) (hjoin : Sql.joinLast? source k t s.done = none)
    (hand : k = .and → s.pending.head? ≠ some s.depth) :
    s.push source t
      = { s with done := t :: s.done, pending := if k = .between then s.depth :: s.pending else s.pending } := by
  have hkind := t.kind_of_word ht
  simp only [Joining.push, hkind, hjoin]
  rw [if_neg]
  rintro ⟨rfl, hpending⟩
  exact hand rfl hpending

/-- The `and` that a `between` waits for. -/
theorem Joining.push_betweenAnd {pending : List Int} (ht : t.phrase = .word .and) (hs : s.Settled)
    (hpending : s.pending = s.depth :: pending) :
    s.push source t
      = { s with done := { t with kind := .keyword .betweenAnd } :: s.done, pending := pending } := by
  have hkind := t.kind_of_word ht
  simp only [Joining.push, hkind, hs.joinLast?, reduceCtorEq, if_false, hpending, List.head?_cons, List.tail_cons,
    and_self, if_true]

/-- Two words that make one. -/
theorem Joining.push_compound (source : List Char) {k other joined : Keyword} {last : Token} {before : List Token}
    (ht : t.phrase = .word k) (hdone : s.done = last :: before) (hlast : last.phrase = .word other)
    (hjoined : compound? other k = some joined) :
    ∃ u, u.phrase = .word joined ∧ s.push source t
      = { s with done := u :: before, pending := if k = .between then s.depth :: s.pending else s.pending } := by
  have hkind := t.kind_of_word ht
  have hother := last.kind_of_word hlast
  obtain ⟨u, hu, hjoin⟩ : ∃ u : Token, u.phrase = .word joined ∧ Sql.joinLast? source k t s.done = some (u :: before) := by
    simp only [hdone, Sql.joinLast?, hother, hjoined, Option.map_some]
    exact ⟨_, rfl, rfl⟩
  exact ⟨u, hu, by simp only [Joining.push, hkind, hjoin]⟩

/-! ### Runs -/

/-- Joining the words of `ts` puts tokens that say `ps` on top. -/
def Takes (source : List Char) (s : Joining) (ts : List Token) (ps : List Phrase) (s' : Joining) : Prop :=
  ts.foldl (Joining.push source) s = s' ∧ ∃ us : List Token, us.map Token.phrase = ps ∧ s'.done = us.reverse ++ s.done

theorem Takes.trans {s s' s'' : Joining} {ts ts' : List Token} {ps qs : List Phrase} (h : Takes source s ts ps s')
    (h' : Takes source s' ts' qs s'') : Takes source s (ts ++ ts') (ps ++ qs) s'' := by
  obtain ⟨hrun, us, hus, hdone⟩ := h
  obtain ⟨hrun', us', hus', hdone'⟩ := h'
  refine ⟨by rw [List.foldl_append, hrun, hrun'], us ++ us', by rw [List.map_append, hus, hus'], ?_⟩
  rw [hdone', hdone, List.reverse_append, List.append_assoc]

/-- The token on top after a run says the last phrase. -/
theorem Takes.head? {s s' : Joining} {ts : List Token} {ps : List Phrase} (h : Takes source s ts ps s') {p : Phrase}
    (hp : ps.getLast? = some p) {last : Token} (hlast : s'.done.head? = some last) : last.phrase = p := by
  obtain ⟨-, us, hus, hdone⟩ := h
  rw [← hus, List.getLast?_map] at hp
  obtain ⟨u, hu, rfl⟩ := Option.map_eq_some_iff.mp hp
  rw [hdone, List.head?_append, List.head?_reverse, hu, Option.some_or, Option.some.injEq] at hlast
  rw [hlast]

theorem Takes.settled {s s' : Joining} {ts : List Token} {ps : List Phrase} (h : Takes source s ts ps s')
    (hps : Closed ps) : s'.Settled := by
  obtain ⟨p, hp, hclosed⟩ := hps
  intro last hlast
  rw [h.head? hp hlast, hclosed]

theorem Takes.ready {s s' : Joining} {ts : List Token} {ps : List Phrase} (h : Takes source s ts ps s') {p : Phrase}
    (hp : ps.getLast? = some p) (hready : p ≠ .word .is ∧ p ≠ .comment) : s'.Ready := by
  intro last hlast
  rw [h.head? hp hlast]
  exact hready

/-- A word of one phrase after an operand. -/
theorem takes_word {k : Keyword} (hs : s.Settled) (hand : k = .and → s.pending.head? ≠ some s.depth) {ts : List Token}
    (hts : ts.map Token.phrase = [.word k]) :
    ∃ s', Takes source s ts [.word k] s' ∧ s'.depth = s.depth ∧
      s'.pending = if k = .between then s.depth :: s.pending else s.pending := by
  obtain ⟨t, rfl, ht⟩ := List.map_eq_singleton_iff.mp hts
  have hpush : s.push source t = _ := Joining.push_word ht (hs.joinLast? k) hand
  exact ⟨_, ⟨hpush, [t], hts, rfl⟩, rfl, rfl⟩

/-- A word of two phrases after an operand. -/
theorem takes_compound {first second k : Keyword} (hk : compound? first second = some k) (hs : s.Settled)
    (hfirst : first ≠ .and ∧ first ≠ .between) {ts : List Token}
    (hts : ts.map Token.phrase = [.word first, .word second]) :
    ∃ s', Takes source s ts [.word k] s' ∧ s'.depth = s.depth ∧
      s'.pending = if second = .between then s.depth :: s.pending else s.pending := by
  obtain ⟨t, ts, rfl, ht, hts⟩ := List.map_eq_cons_iff.mp hts
  obtain ⟨t', rfl, ht'⟩ := List.map_eq_singleton_iff.mp hts
  have hpush : s.push source t = _ := Joining.push_word ht (hs.joinLast? first) (absurd · hfirst.1)
  rw [if_neg hfirst.2] at hpush
  obtain ⟨u, hu, hjoin⟩ := Joining.push_compound source (s := { s with done := t :: s.done }) ht' rfl ht hk
  have hrun : [t, t'].foldl (Joining.push source) s = Joining.push source { s with done := t :: s.done } t' := by
    rw [List.foldl_cons, List.foldl_cons, List.foldl_nil, hpush]
  exact ⟨_, ⟨hrun.trans hjoin, [u], by rw [List.map_singleton, hu], rfl⟩, rfl, rfl⟩

/-! ### Operands -/

/-- Phrases come back from their single words, wherever they may stand, with depth and open `between`s as before. -/
def Joins (quiet : Bool) (ps : List Phrase) : Prop :=
  ∀ (source : List Char) (ts : List Token) (s : Joining), ts.map Token.phrase = ps.flatMap Phrase.split → s.Ready →
    (∀ d ∈ s.pending, d ≤ s.depth) → (quiet = true ∨ s.pending.head? ≠ some s.depth) →
    ∃ s', Takes source s ts ps s' ∧ s'.depth = s.depth ∧ s'.pending = s.pending

end

theorem joins_atom {p : Phrase} (hsplit : p.split = [p]) (hsymbol : ∀ s, p ≠ .symbol s) (hword : ∀ k, p ≠ .word k) :
    Joins true [p] := by
  intro source ts s hts _ _ _
  rw [List.flatMap_singleton, hsplit] at hts
  obtain ⟨t, rfl, rfl⟩ := List.map_eq_singleton_iff.mp hts
  have hpush : s.push source t = { s with done := t :: s.done } := by
    obtain ⟨kind, shown, offset⟩ := t
    cases kind with
    | operator => exact absurd rfl (hsymbol shown)
    | keyword k => exact absurd rfl (hword k)
    | _ => rfl
  exact ⟨_, ⟨hpush, [t], rfl, rfl⟩, rfl, rfl⟩

/-- A mark or `not` before an operand. -/
theorem Joins.cons {quiet : Bool} {p : Phrase} {ps : List Phrase} (hsplit : p.split = [p])
    (hp : p ≠ .word .is ∧ p ≠ .comment)
    (hpush : ∀ source t (s : Joining), t.phrase = p → s.Ready → s.push source t = { s with done := t :: s.done })
    (h : Joins quiet ps) : Joins quiet (p :: ps) := by
  intro source ts s hts hready hpending hquiet
  rw [List.flatMap_cons, hsplit, List.singleton_append] at hts
  obtain ⟨t, ts, rfl, ht, hts⟩ := List.map_eq_cons_iff.mp hts
  have hfirst : Takes source s [t] [p] { s with done := t :: s.done } :=
    ⟨hpush source t s ht hready, [t], by rw [List.map_singleton, ht], rfl⟩
  obtain ⟨s', htakes, hdepth, hpend⟩ := h source ts _ hts (hfirst.ready rfl hp) hpending hquiet
  exact ⟨s', hfirst.trans htakes, hdepth, hpend⟩

/-- Parentheses keep what is open outside apart from what is inside. -/
theorem Joins.enclosed {ps : List Phrase} (h : Joins false ps) : Joins true (.symbol "(" :: (ps ++ [.symbol ")"])) := by
  intro source ts s hts hready hpending _
  simp only [List.flatMap_cons, List.flatMap_append, List.flatMap_nil, Phrase.split, List.singleton_append,
    List.append_nil] at hts
  obtain ⟨t, ts, rfl, ht, hts⟩ := List.map_eq_cons_iff.mp hts
  obtain ⟨inner, last, rfl, hinner, hlast⟩ := List.map_eq_append_iff.mp hts
  obtain ⟨t', rfl, ht'⟩ := List.map_eq_singleton_iff.mp hlast
  have hopen : Takes source s [t] [.symbol "("] { s with done := t :: s.done, depth := s.depth + 1 } :=
    ⟨Joining.push_open ht, [t], by rw [List.map_singleton, ht], rfl⟩
  obtain ⟨s', htakes, hdepth, hpend⟩ := h source inner _ hinner (hopen.ready rfl ⟨nofun, nofun⟩)
    (fun d hd => Int.le_of_lt (Int.lt_add_one_of_le (hpending d hd)))
    (Or.inr fun hhead => absurd (hpending _ (List.mem_of_mem_head? hhead)) (Int.not_le.mpr (Int.lt_succ s.depth)))
  have hclose : Takes source s' [t'] [.symbol ")"] (s'.push source t') :=
    ⟨rfl, [t'], by rw [List.map_singleton, ht'], by rw [Joining.push_close ht']; rfl⟩
  refine ⟨_, hopen.trans (htakes.trans hclose), ?_, ?_⟩
  · rw [Joining.push_close ht', hdepth]
    exact Int.add_sub_cancel s.depth 1
  · rw [Joining.push_close ht', hpend, List.filter_eq_self, hdepth]
    intro d hd
    exact decide_eq_true (Int.lt_add_one_of_le (hpending d hd))

theorem Joins.mono {ps : List Phrase} (h : Joins true ps) (quiet : Bool) : Joins quiet ps :=
  fun source ts s hts hready hpending _ => h source ts s hts hready hpending (Or.inl rfl)

/-- A phrase that is taken after an operand and leaves depth and open `between`s as they are. -/
def Connects (quiet : Bool) (p : Phrase) : Prop :=
  ∀ (source : List Char) (ts : List Token) (s : Joining), ts.map Token.phrase = p.split → s.Settled →
    (quiet = true ∨ s.pending.head? ≠ some s.depth) →
    ∃ s', Takes source s ts [p] s' ∧ s'.depth = s.depth ∧ s'.pending = s.pending

theorem Joins.connected {quiet : Bool} {ps qs : List Phrase} {p : Phrase} (hl : Joins quiet ps) (hclosed : Closed ps)
    (hp : Connects quiet p) (hready : p ≠ .word .is ∧ p ≠ .comment) (hr : Joins quiet qs) :
    Joins quiet (ps ++ p :: qs) := by
  intro source ts s hts hs hpending hquiet
  rw [List.flatMap_append, List.flatMap_cons] at hts
  obtain ⟨left, ts, rfl, hleft, hts⟩ := List.map_eq_append_iff.mp hts
  obtain ⟨middle, right, rfl, hmiddle, hright⟩ := List.map_eq_append_iff.mp hts
  obtain ⟨s₁, htakes₁, hdepth₁, hpend₁⟩ := hl source left s hleft hs hpending hquiet
  rw [← hdepth₁, ← hpend₁] at hpending hquiet
  obtain ⟨s₂, htakes₂, hdepth₂, hpend₂⟩ := hp source middle s₁ hmiddle (htakes₁.settled hclosed) hquiet
  rw [← hdepth₂, ← hpend₂] at hpending hquiet
  obtain ⟨s₃, htakes₃, hdepth₃, hpend₃⟩ := hr source right s₂ hright (htakes₂.ready rfl hready) hpending hquiet
  refine ⟨s₃, htakes₁.trans (htakes₂.trans htakes₃), ?_, ?_⟩
  · rw [hdepth₃, hdepth₂, hdepth₁]
  · rw [hpend₃, hpend₂, hpend₁]

theorem connects_symbol {shown : String} (hs : shown ≠ "(" ∧ shown ≠ ")") (quiet : Bool) :
    Connects quiet (.symbol shown) := by
  intro source ts s hts _ _
  obtain ⟨t, rfl, ht⟩ := List.map_eq_singleton_iff.mp hts
  exact ⟨_, ⟨Joining.push_symbol ht hs, [t], hts, rfl⟩, rfl, rfl⟩

theorem connects_word {k : Keyword} {quiet : Bool} (hsplit : (Phrase.word k).split = [.word k]) (hk : k ≠ .between)
    (hand : k = .and → quiet = false) : Connects quiet (.word k) := by
  intro source ts s hts hs hquiet
  rw [hsplit] at hts
  have hfree : k = .and → s.pending.head? ≠ some s.depth := by
    intro hkand
    rcases hquiet with hquiet | hquiet
    · rw [hand hkand] at hquiet
      cases hquiet
    · exact hquiet
  obtain ⟨s', htakes, hdepth, hpend⟩ := takes_word hs hfree hts
  exact ⟨s', htakes, hdepth, by rw [hpend, if_neg hk]⟩

theorem connects_compound {first second k : Keyword} {quiet : Bool} (hk : compound? first second = some k)
    (hsplit : (Phrase.word k).split = [.word first, .word second]) (hfirst : first ≠ .and ∧ first ≠ .between)
    (hsecond : second ≠ .between) : Connects quiet (.word k) := by
  intro source ts s hts hs _
  rw [hsplit] at hts
  obtain ⟨s', htakes, hdepth, hpend⟩ := takes_compound hk hs hfirst hts
  exact ⟨s', htakes, hdepth, by rw [hpend, if_neg hsecond]⟩

/-- Operands with commas between them. -/
theorem joins_commaList {items : List (List Phrase)} (hne : items ≠ [])
    (h : ∀ item ∈ items, Joins false item ∧ Closed item) : Joins false (commaList items) := by
  induction items with
  | nil => exact absurd rfl hne
  | cons item items ih =>
    cases items with
    | nil => exact (h item List.mem_cons_self).1
    | cons next items =>
      obtain ⟨hitem, hclosed⟩ := h item List.mem_cons_self
      have hrest := ih nofun fun other hother => h other (List.mem_cons_of_mem _ hother)
      exact hitem.connected hclosed (connects_symbol ⟨by decide, by decide⟩ false) ⟨nofun, nofun⟩ hrest

/-- The bounds of a `between`: the first `and` after it at the same depth is its own. -/
theorem Joins.between {quiet : Bool} {k : Keyword} {ps low high : List Phrase} (hk : k = .between ∨ k = .notBetween)
    (h : Joins quiet ps) (hclosed : Closed ps) (hlow : Joins true low) (hlowClosed : Closed low)
    (hhigh : Joins quiet high) : Joins quiet (ps ++ .word k :: (low ++ .word .betweenAnd :: high)) := by
  intro source ts s hts hs hpending hquiet
  simp only [List.flatMap_append, List.flatMap_cons] at hts
  obtain ⟨left, ts, rfl, hleft, hts⟩ := List.map_eq_append_iff.mp hts
  obtain ⟨middle, ts, rfl, hmiddle, hts⟩ := List.map_eq_append_iff.mp hts
  obtain ⟨first, ts, rfl, hfirst, hts⟩ := List.map_eq_append_iff.mp hts
  obtain ⟨mark, last, rfl, hmark, hlast⟩ := List.map_eq_append_iff.mp hts
  obtain ⟨s₁, htakes₁, hdepth₁, hpend₁⟩ := h source left s hleft hs hpending hquiet
  have hsettled₁ := htakes₁.settled hclosed
  obtain ⟨s₂, htakes₂, hdepth₂, hpend₂⟩ : ∃ s₂, Takes source s₁ middle [.word k] s₂ ∧ s₂.depth = s₁.depth ∧
      s₂.pending = s₁.depth :: s₁.pending := by
    rcases hk with rfl | rfl
    · exact takes_word (k := .between) hsettled₁ nofun hmiddle
    · have hnot : compound? .not .between = some .notBetween := rfl
      exact takes_compound hnot hsettled₁ ⟨nofun, nofun⟩ hmiddle
  have hready₂ : s₂.Ready := htakes₂.ready rfl ⟨by rcases hk with rfl | rfl <;> nofun, nofun⟩
  have hpending₂ : ∀ d ∈ s₂.pending, d ≤ s₂.depth := by
    rw [hpend₂, hdepth₂, hdepth₁, hpend₁]
    intro d hd
    rcases List.mem_cons.mp hd with rfl | hd
    · exact Int.le_refl _
    · exact hpending d hd
  obtain ⟨s₃, htakes₃, hdepth₃, hpend₃⟩ := hlow source first s₂ hfirst hready₂ hpending₂ (Or.inl rfl)
  obtain ⟨t, rfl, ht⟩ := List.map_eq_singleton_iff.mp hmark
  have hpend : s₃.pending = s₃.depth :: s.pending := by
    rw [hpend₃, hpend₂, hdepth₃, hdepth₂, hpend₁]
  have hand : Takes source s₃ [t] [.word .betweenAnd]
      { s₃ with done := { t with kind := .keyword .betweenAnd } :: s₃.done, pending := s.pending } :=
    ⟨Joining.push_betweenAnd ht (htakes₃.settled hlowClosed) hpend, [_], rfl, rfl⟩
  have hdepth : s₃.depth = s.depth := by
    rw [hdepth₃, hdepth₂, hdepth₁]
  rw [← hdepth] at hpending hquiet
  obtain ⟨s₄, htakes₄, hdepth₄, hpend₄⟩ := hhigh source last _ hlast (hand.ready rfl ⟨nofun, nofun⟩) hpending hquiet
  refine ⟨s₄, ?_, hdepth₄.trans hdepth, hpend₄⟩
  exact htakes₁.trans (htakes₂.trans (htakes₃.trans (hand.trans htakes₄)))

/-- A test for an absent value. -/
theorem Joins.null {quiet : Bool} {k : Keyword} {ps : List Phrase} (hk : k = .is ∨ k = .isNot) (h : Joins quiet ps)
    (hclosed : Closed ps) : Joins quiet (ps ++ [.word k, .word .null]) := by
  intro source ts s hts hs hpending hquiet
  simp only [List.flatMap_append, List.flatMap_cons, List.flatMap_nil, List.append_nil] at hts
  obtain ⟨left, ts, rfl, hleft, hts⟩ := List.map_eq_append_iff.mp hts
  obtain ⟨middle, last, rfl, hmiddle, hlast⟩ := List.map_eq_append_iff.mp hts
  obtain ⟨s₁, htakes₁, hdepth₁, hpend₁⟩ := h source left s hleft hs hpending hquiet
  have hsettled₁ := htakes₁.settled hclosed
  obtain ⟨s₂, htakes₂, hdepth₂, hpend₂⟩ : ∃ s₂, Takes source s₁ middle [.word k] s₂ ∧ s₂.depth = s₁.depth ∧
      s₂.pending = s₁.pending := by
    rcases hk with rfl | rfl
    · exact takes_word (k := .is) hsettled₁ nofun hmiddle
    · have hnot : compound? .is .not = some .isNot := rfl
      exact takes_compound hnot hsettled₁ ⟨nofun, nofun⟩ hmiddle
  obtain ⟨t, rfl, ht⟩ := List.map_eq_singleton_iff.mp hlast
  have hjoin : joinLast? source .null t s₂.done = none := by
    cases hd : s₂.done with
    | nil => rfl
    | cons last before =>
      have hlast := last.kind_of_word (htakes₂.head? rfl (by rw [hd]; rfl))
      rcases hk with rfl | rfl <;> simp only [joinLast?, hlast, compound?, Option.map_none]
  have hnull : Takes source s₂ [t] [.word .null] { s₂ with done := t :: s₂.done } :=
    ⟨Joining.push_word ht hjoin nofun, [t], by rw [List.map_singleton, ht], rfl⟩
  refine ⟨_, htakes₁.trans (htakes₂.trans hnull), ?_, ?_⟩
  · exact hdepth₂.trans hdepth₁
  · exact hpend₂.trans hpend₁

theorem Keyword.connects_of_isInfix {quiet : Bool} {k : Keyword} (hk : k.isInfix = true)
    (hand : k = .and → quiet = false) : Connects quiet (.word k) := by
  cases k <;> simp only [Keyword.isInfix, Bool.false_eq_true] at hk
  case and => exact connects_word rfl nofun hand
  case or => exact connects_word rfl nofun nofun
  case like => exact connects_word rfl nofun nofun
  case notLike =>
    have hnot : compound? .not .like = some .notLike := rfl
    exact connects_compound hnot rfl ⟨nofun, nofun⟩ nofun

/-- Joining gives back the phrases of every operand. -/
theorem Spoken.joins {quiet : Bool} {ps : List Phrase} (h : Spoken quiet ps) : Joins quiet ps := by
  induction h with
  | loud _ ih => exact ih.mono false
  | @atom p hp hsymbol hword =>
    refine joins_atom ?_ hsymbol hword
    cases p with
    | word k => exact absurd rfl (hword k)
    | _ => rfl
  | enclosed _ ih => exact ih.enclosed
  | minus _ ih =>
    refine ih.cons rfl ⟨nofun, nofun⟩ fun source t s ht _ => ?_
    exact Joining.push_symbol ht ⟨by decide, by decide⟩
  | not _ ih =>
    refine ih.cons rfl ⟨nofun, nofun⟩ fun source t s ht hready => ?_
    exact Joining.push_word ht hready.joinLast? nofun
  | symbol hs hl _ ihl ihr => exact ihl.connected hl.closed (connects_symbol hs _) ⟨nofun, nofun⟩ ihr
  | word hk hand hl _ ihl ihr =>
    refine ihl.connected hl.closed (Keyword.connects_of_isInfix hk hand) ⟨?_, nofun⟩ ihr
    rintro ⟨⟩
    cases hk
  | between hk h hlow _ ih ihlow ihhigh => exact ih.between hk h.closed ihlow hlow.closed ihhigh
  | null hk h ih => exact ih.null hk h.closed
  | inList hk h hne hitems ih ihitems =>
    have hlist := joins_commaList hne fun item hitem => ⟨ihitems item hitem, (hitems item hitem).closed⟩
    rcases hk with rfl | rfl
    · exact ih.connected h.closed (connects_word rfl nofun nofun) ⟨nofun, nofun⟩ (hlist.enclosed.mono _)
    · have hnot : compound? .not .inList = some .notIn := rfl
      exact ih.connected h.closed (connects_compound hnot rfl ⟨nofun, nofun⟩ nofun) ⟨nofun, nofun⟩
        (hlist.enclosed.mono _)

/-- The tokens of a text that is scanned as the single words of `ps` say `ps`. -/
theorem tokenize_of_scanned {sql : String} {ps : List Phrase} (hscan : Scanned sql.toList (ps.flatMap Phrase.split))
    (hjoins : Joins false ps) : ∃ us, tokenize sql = .ok us ∧ us.map Token.phrase = ps := by
  obtain ⟨ts, hts, hphrases⟩ := hscan.scanAll 0 (Nat.lt_succ_self _)
  obtain ⟨s, ⟨hrun, us, hus, hdone⟩, -, -⟩ := hjoins sql.toList ts {} hphrases nofun nofun (Or.inr nofun)
  refine ⟨us, ?_, hus⟩
  simp only [tokenize, hts, Except.map, hrun, hdone, List.append_nil, List.reverse_reverse]

end ItemQuery.Sql
