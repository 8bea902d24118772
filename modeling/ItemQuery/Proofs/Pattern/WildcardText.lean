import Mathlib.Data.Char
import ItemQuery.Pattern.Wildcard
import ItemQuery.Proofs.Pattern.Canonical

/-! A pattern that was read from a wildcard text can be written in the same syntax, and the written text is read
    as the same pattern. Each unit has a text that is read as this unit wherever it stands; the pieces of the
    pattern are written unit by unit. -/

namespace ItemQuery.Pattern

/-! ### Syntaxes -/

/-- The special characters are told apart, and each of them can be made literal. -/
structure Clear (s : WildcardSyntax) : Prop where
  ne_nil : s.anyRun ≠ []
  run : ∀ c, s.anyRun.head? = some c → s.escape ≠ some c
  single : ∀ c, s.singleChar = some c → s.escape ≠ some c ∧ c ∉ s.anyRun
  digit : ∀ c, s.singleDigit = some c → s.escape ≠ some c ∧ c ∉ s.anyRun ∧ s.singleChar ≠ some c
  bracket : s.brackets = true →
    s.escape ≠ some '[' ∧ '[' ∉ s.anyRun ∧ s.singleChar ≠ some '[' ∧ s.singleDigit ≠ some '['
  escapable : s.escape = none → s.brackets = true ∧ s.isSpecial s.negation = false

theorem clear_sqlServer : Clear .sqlServer := by
  refine ⟨?_, ?_, ?_, ?_, ?_, ?_⟩ <;> simp [WildcardSyntax.sqlServer, WildcardSyntax.isSpecial]

theorem clear_aml : Clear .aml := by
  refine ⟨?_, ?_, ?_, ?_, ?_, ?_⟩ <;> simp [WildcardSyntax.aml, WildcardSyntax.isSpecial]

theorem clear_simpleSearch : Clear .simpleSearch := by
  refine ⟨?_, ?_, ?_, ?_, ?_, ?_⟩ <;> simp [WildcardSyntax.simpleSearch]

theorem clear_visualBasic : Clear .visualBasic := by
  refine ⟨?_, ?_, ?_, ?_, ?_, ?_⟩ <;> simp [WildcardSyntax.visualBasic, WildcardSyntax.isSpecial]

theorem clear_ansi : Clear .ansi := by
  refine ⟨?_, ?_, ?_, ?_, ?_, ?_⟩ <;> simp [WildcardSyntax.ansi]

/-- The syntaxes that patterns are written in. -/
def syntaxes : List WildcardSyntax :=
  [.sqlServer, .aml, .simpleSearch, .visualBasic, .ansi]

theorem clear_of_mem_syntaxes {s : WildcardSyntax} (h : s ∈ syntaxes) : Clear s := by
  simp only [syntaxes, List.mem_cons, List.not_mem_nil, or_false] at h
  rcases h with rfl | rfl | rfl | rfl | rfl
  · exact clear_sqlServer
  · exact clear_aml
  · exact clear_simpleSearch
  · exact clear_visualBasic
  · exact clear_ansi

/-! ### Spelling -/

/-- A text is read as these pieces, whatever follows it. -/
def Spells (s : WildcardSyntax) (cs : List Char) (ps : List Piece) : Prop :=
  ∀ rest qs, (∀ position, wildcardPieces s position rest = .ok qs) →
    ∀ position, wildcardPieces s position (cs ++ rest) = .ok (ps ++ qs)

theorem spells_nil (s : WildcardSyntax) : Spells s [] [] :=
  fun _ _ h => h

theorem Spells.append {s : WildcardSyntax} {cs ds : List Char} {ps qs : List Piece} (h : Spells s cs ps)
    (h' : Spells s ds qs) : Spells s (cs ++ ds) (ps ++ qs) := by
  intro rest rs hrest position
  rw [List.append_assoc, List.append_assoc]
  exact h _ _ (h' rest rs hrest) position

theorem Spells.wildcardPieces {s : WildcardSyntax} {cs : List Char} {ps : List Piece} (h : Spells s cs ps) :
    wildcardPieces s 0 cs = .ok ps := by
  have hall := h [] [] (fun position => by rw [Pattern.wildcardPieces]) 0
  rwa [List.append_nil, List.append_nil] at hall

theorem Spells.replicate {s : WildcardSyntax} {cs : List Char} {p : Piece} (h : Spells s cs [p]) (n : Nat) :
    Spells s (List.replicate n cs).flatten (List.replicate n p) := by
  induction n with
  | zero => exact spells_nil s
  | succ n ih =>
    rw [List.replicate_succ, List.replicate_succ, List.flatten_cons]
    exact h.append ih

section
variable {s : WildcardSyntax}

theorem spells_literal {c : Char} (h : s.isSpecial c = false) : Spells s [c] [.literal c.toString] := by
  intro rest qs hrest position
  simp only [WildcardSyntax.isSpecial, Bool.or_eq_false_iff] at h
  obtain ⟨⟨⟨⟨hrun, hsingle⟩, hdigit⟩, hescape⟩, hbracket⟩ := h
  rw [List.singleton_append, wildcardPieces.eq_def]
  simp only [hescape, hrun, hsingle, hdigit, hbracket, Bool.false_eq_true, if_false, hrest, Except.map]
  rfl

theorem spells_escaped {escape : Char} (h : s.escape = some escape) (c : Char) :
    Spells s [escape, c] [.literal c.toString] := by
  intro rest qs hrest position
  rw [List.cons_append, List.singleton_append, wildcardPieces.eq_def]
  simp only [h, BEq.rfl, if_true, hrest, Except.map]
  rfl

theorem spells_run {c : Char} (h : s.anyRun.head? = some c) (hne : s.escape ≠ some c) : Spells s [c] [.anyRun] := by
  intro rest qs hrest position
  have hescape : (s.escape == some c) = false := beq_eq_false_iff_ne.mpr hne
  have hrun : s.anyRun.contains c = true := List.contains_iff_mem.mpr (List.mem_of_mem_head? h)
  rw [List.singleton_append, wildcardPieces.eq_def]
  simp only [hescape, hrun, Bool.false_eq_true, if_false, if_true, hrest, Except.map]
  rfl

theorem contains_eq_false {cs : List Char} {c : Char} (h : c ∉ cs) : cs.contains c = false := by
  rw [← Bool.not_eq_true, List.contains_iff_mem]
  exact h

theorem spells_single (hs : Clear s) {c : Char} (h : s.singleChar = some c) : Spells s [c] [.anyChar] := by
  intro rest qs hrest position
  obtain ⟨hescape, hrun⟩ := hs.single c h
  rw [← beq_eq_false_iff_ne] at hescape
  rw [List.singleton_append, wildcardPieces.eq_def]
  simp only [hescape, contains_eq_false hrun, h, BEq.rfl, Bool.false_eq_true, if_false, if_true, hrest, Except.map]
  rfl

theorem spells_digit (hs : Clear s) {c : Char} (h : s.singleDigit = some c) :
    Spells s [c] [.set (.ofClass .digit) .once] := by
  intro rest qs hrest position
  obtain ⟨hescape, hrun, hsingle⟩ := hs.digit c h
  rw [← beq_eq_false_iff_ne] at hescape hsingle
  rw [List.singleton_append, wildcardPieces.eq_def]
  simp only [hescape, contains_eq_false hrun, hsingle, h, BEq.rfl, Bool.false_eq_true, if_false, if_true, hrest,
    Except.map]
  rfl

/-- A set in brackets. -/
theorem spells_bracket (hs : Clear s) (hbrackets : s.brackets = true) {chars : CharSet} {body : List Char}
    (h : ∀ rest, set? s.negation (body ++ rest) = some (chars, rest)) :
    Spells s ('[' :: body) [.set chars .once] := by
  intro rest qs hrest position
  obtain ⟨hescape, hrun, hsingle, hdigit⟩ := hs.bracket hbrackets
  rw [← beq_eq_false_iff_ne] at hescape hsingle hdigit
  rw [List.cons_append, wildcardPieces.eq_def]
  simp only [hescape, contains_eq_false hrun, hsingle, hdigit, hbrackets, BEq.rfl, Bool.and_self, Bool.false_eq_true,
    if_false, if_true]
  split
  · rename_i chars' more hset
    rw [h rest, Option.some.injEq, Prod.mk.injEq] at hset
    rw [← hset.1, ← hset.2, hrest]
    rfl
  · rename_i hset
    rw [h rest] at hset
    cases hset

end

/-! ### Sets in brackets -/

theorem setItems?_close (rest : List Char) : setItems? false (']' :: rest) = some ([], rest) := by
  cases rest with
  | nil => rfl
  | cons d rest =>
    cases rest with
    | nil => rfl
    | cons e rest => simp [setItems?]

/-- An entry of one character, if what follows does not make it a range. -/
theorem setItems?_char {first : Bool} {c d : Char} (hc : ¬(c = ']' ∧ first = false)) {more : List Char}
    (hd : d = '-' → more.head? = some ']') :
    setItems? first (c :: d :: more) = (setItems? false (d :: more)).map fun r => (.char c :: r.1, r.2) := by
  cases more with
  | nil => simp only [setItems?, hc, if_false]
  | cons e more =>
    have hrange : ¬(d = '-' ∧ e ≠ ']') := by
      rintro ⟨hdash, he⟩
      exact he (Option.some.inj (hd hdash))
    simp only [setItems?, hc, hrange, if_false]

theorem setItems?_range {first : Bool} {c e : Char} (hc : ¬(c = ']' ∧ first = false)) (he : e ≠ ']') (more : List Char) :
    setItems? first (c :: '-' :: e :: more) = (setItems? false more).map fun r => (.range c e :: r.1, r.2) := by
  simp only [setItems?, hc, he, if_false, ne_eq, not_false_eq_true, and_self, if_true]

theorem setText_cons_ok {item : SetItem} {items : List SetItem} {shown body : List Char}
    (hitem : ∀ rest, setText (item :: rest) = (setText rest).map (shown ++ ·)) (h : setText items = .ok body) :
    setText (item :: items) = .ok (shown ++ body) := by
  rw [hitem, h]
  rfl

theorem setText_char (c : Char) (rest : List SetItem) : setText (.char c :: rest) = (setText rest).map ([c] ++ ·) := by
  rw [setText]
  cases setText rest <;> rfl

theorem setText_range (a b : Char) (rest : List SetItem) :
    setText (.range a b :: rest) = (setText rest).map ([a, '-', b] ++ ·) := by
  rw [setText]
  cases setText rest <;> rfl

/-- The entries of a set are written as they were read, and read again whatever follows the bracket. -/
theorem setText_of_setItems? {first : Bool} {cs more : List Char} {items : List SetItem}
    (h : setItems? first cs = some (items, more)) :
    ∃ body, setText items = .ok body ∧ cs = body ++ ']' :: more ∧
      ∀ rest, setItems? first (body ++ ']' :: rest) = some (items, rest) := by
  fun_induction setItems? first cs generalizing items more with
  | case1 => cases h
  | case2 first c hc =>
    obtain ⟨rfl, rfl⟩ := hc
    cases h
    exact ⟨[], rfl, rfl, setItems?_close⟩
  | case3 => cases h
  | case4 first c d hc =>
    obtain ⟨rfl, rfl⟩ := hc
    cases h
    exact ⟨[], rfl, rfl, setItems?_close⟩
  | case5 first c d hc ih =>
    obtain ⟨⟨items', more'⟩, hr, heq⟩ := Option.map_eq_some_iff.mp h
    cases heq
    obtain ⟨body, htext, hcs, hread⟩ := ih hr
    have hnil : body = [] := by
      have hlength := congrArg List.length hcs
      simp only [List.length_append, List.length_cons, List.length_nil] at hlength
      exact List.eq_nil_of_length_eq_zero (by omega)
    subst hnil
    refine ⟨[c], setText_cons_ok (setText_char c) htext, by rw [hcs]; rfl, fun rest => ?_⟩
    rw [List.cons_append, List.nil_append, setItems?_char hc (absurd · (by decide))]
    have hclose := hread rest
    rw [List.nil_append] at hclose
    rw [hclose]
    rfl
  | case6 first c d e rest hc =>
    obtain ⟨rfl, rfl⟩ := hc
    cases h
    exact ⟨[], rfl, rfl, setItems?_close⟩
  | case7 first c d e rest hc hrange ih =>
    obtain ⟨rfl, he⟩ := hrange
    obtain ⟨⟨items', more'⟩, hr, heq⟩ := Option.map_eq_some_iff.mp h
    cases heq
    obtain ⟨body, htext, hcs, hread⟩ := ih hr
    refine ⟨[c, '-', e] ++ body, setText_cons_ok (setText_range c e) htext, by rw [hcs]; rfl, fun rest => ?_⟩
    simp only [List.cons_append, List.nil_append]
    rw [setItems?_range hc he, hread rest]
    rfl
  | case8 first c d e rest hc hrange ih =>
    obtain ⟨⟨items', more'⟩, hr, heq⟩ := Option.map_eq_some_iff.mp h
    cases heq
    obtain ⟨body, htext, hcs, hread⟩ := ih hr
    refine ⟨c :: body, setText_cons_ok (setText_char c) htext, by rw [hcs]; rfl, fun tail => ?_⟩
    have hclosed := hread tail
    cases body with
    | nil =>
      rw [List.nil_append] at hclosed
      rw [List.cons_append, List.nil_append, setItems?_char hc (absurd · (by decide)), hclosed]
      rfl
    | cons d' body =>
      rw [List.cons_append] at hcs hclosed
      obtain ⟨rfl, htail⟩ := List.cons.inj hcs
      have hnext : d = '-' → (body ++ ']' :: tail).head? = some ']' := by
        intro hdash
        have he : e = ']' := Decidable.byContradiction fun he => hrange ⟨hdash, he⟩
        cases body with
        | nil => rfl
        | cons e' body =>
          rw [List.cons_append] at htail
          rw [List.cons_append, List.head?_cons, ← (List.cons.inj htail).1, he]
      rw [List.cons_append, List.cons_append, setItems?_char hc hnext, hclosed]
      rfl

/-- A set is written in brackets as it was read. -/
theorem setText_of_set? {negation : Char} {cs more : List Char} {chars : CharSet}
    (h : set? negation cs = some (chars, more)) :
    ∃ body, setText chars.items = .ok body ∧ ∀ rest,
      set? negation ((if chars.inverted then [negation] else []) ++ body ++ ']' :: rest) = some (chars, rest) := by
  cases cs with
  | nil => cases h
  | cons c cs =>
    rw [set?] at h
    split at h
    · rename_i hc
      obtain ⟨⟨items, more'⟩, hr, heq⟩ := Option.map_eq_some_iff.mp h
      cases heq
      obtain ⟨body, htext, -, hread⟩ := setText_of_setItems? hr
      refine ⟨body, htext, fun rest => ?_⟩
      rw [if_pos rfl, List.singleton_append, List.cons_append, set?, if_pos rfl, hread rest]
      rfl
    · rename_i hc
      obtain ⟨⟨items, more'⟩, hr, heq⟩ := Option.map_eq_some_iff.mp h
      cases heq
      obtain ⟨body, htext, hcs, hread⟩ := setText_of_setItems? hr
      have hbody : ∃ body', body = c :: body' := by
        cases body with
        | nil =>
          -- A bracket in first place is an entry, so the set is not empty.
          have hempty := hread []
          rw [List.nil_append] at hempty
          cases hempty
        | cons d body' => exact ⟨body', by rw [List.cons_append] at hcs; rw [(List.cons.inj hcs).1]⟩
      obtain ⟨body', rfl⟩ := hbody
      refine ⟨c :: body', htext, fun rest => ?_⟩
      have hall := hread rest
      rw [List.cons_append] at hall
      rw [if_neg Bool.false_ne_true, List.nil_append, List.cons_append, set?, if_neg hc, hall]
      rfl

/-! ### Units -/

section
variable {s : WildcardSyntax} {run : Char}

/-- A set whose text, once, is read as this set. -/
def Writable (s : WildcardSyntax) (run : Char) (chars : CharSet) : Prop :=
  chars.singleChar? = none ∧
    ∃ shown, pieceText s run (.set chars .once) = .ok shown ∧ Spells s shown [.set chars .once]

theorem repeated_closed (unit : List Char) (n : UInt32) (greedy : Bool) (run : Option Char) :
    repeated unit ⟨n, some n, greedy⟩ run = .ok (List.replicate n.toNat unit).flatten := by
  simp only [repeated, if_true, copies]

theorem repeated_once (unit : List Char) (run : Option Char) : repeated unit .once run = .ok unit := by
  rw [Repetition.once, repeated_closed]
  simp

theorem writable_any (hs : Clear s) {c : Char} (h : s.singleChar = some c) : Writable s run (.ofClass .any) := by
  refine ⟨rfl, [c], ?_, spells_single hs h⟩
  have hany : (CharSet.ofClass .any).isClass .any = true := rfl
  have hone : (Repetition.once).isAny = false := rfl
  simp only [pieceText, hany, hone, h, if_true, Bool.false_eq_true, if_false, repeated_once]

theorem pieceText_set_once {chars : CharSet} (h : chars.isClass .any = false) :
    pieceText s run (.set chars .once) = charSetText s chars := by
  simp only [pieceText, h, Bool.false_eq_true, if_false]
  cases charSetText s chars with
  | error e => rfl
  | ok shown => exact repeated_once shown none

theorem writable_digit (hs : Clear s) {c : Char} (h : s.singleDigit = some c) :
    Writable s run (.ofClass .digit) := by
  refine ⟨rfl, [c], ?_, spells_digit hs h⟩
  have hdigit : (CharSet.ofClass .digit).isClass .digit = true := rfl
  rw [pieceText_set_once rfl]
  simp only [charSetText, h, hdigit, if_true]

/-- The entries of a set in brackets are no classes. -/
theorem cls_notMem_setItems? {first : Bool} {cs more : List Char} {items : List SetItem}
    (h : setItems? first cs = some (items, more)) (kind : ClassKind) : .cls kind ∉ items := by
  fun_induction setItems? first cs generalizing items more <;> grind [Option.map_eq_some_iff]

theorem isClass_of_set? {negation : Char} {cs more : List Char} {chars : CharSet}
    (h : set? negation cs = some (chars, more)) (kind : ClassKind) : chars.isClass kind = false := by
  have hitems : .cls kind ∉ chars.items := by
    unfold set? at h
    split at h
    · split at h <;> obtain ⟨r, hr, heq⟩ := Option.map_eq_some_iff.mp h <;> cases heq <;>
        exact cls_notMem_setItems? hr kind
    · cases h
  rw [CharSet.isClass, Bool.and_eq_false_iff]
  right
  rw [beq_eq_false_iff_ne]
  intro heq
  exact hitems (heq ▸ List.mem_singleton_self _)

theorem writable_of_set? (hs : Clear s) (hbrackets : s.brackets = true) {cs more : List Char} {chars : CharSet}
    (h : set? s.negation cs = some (chars, more)) (hsingle : chars.singleChar? = none) : Writable s run chars := by
  obtain ⟨body, htext, hread⟩ := setText_of_set? h
  have hbracketed : charSetText s chars
      = .ok ('[' :: ((if chars.inverted then [s.negation] else []) ++ body ++ [']'])) := by
    have hplain : charSetText.bracketed s chars
        = .ok ('[' :: ((if chars.inverted then [s.negation] else []) ++ body ++ [']'])) := by
      simp only [charSetText.bracketed, hbrackets, if_true, htext, Except.map]
    unfold charSetText
    split
    · rw [isClass_of_set? h, if_neg Bool.false_ne_true]
      exact hplain
    · exact hplain
  refine ⟨hsingle, _, (pieceText_set_once (isClass_of_set? h .any)).trans hbracketed, ?_⟩
  refine spells_bracket hs hbrackets fun rest => ?_
  rw [List.append_assoc, List.singleton_append]
  exact hread rest

theorem simplified_set {chars : CharSet} (h : chars.singleChar? = none) (r : Repetition) :
    (Piece.set chars r).simplified = [.set chars r] := by
  simp only [Piece.simplified, h]

theorem simplified_literal (c : Char) : (Piece.literal c.toString).simplified = [.literal c.toString] := by
  simp [Piece.literal, Piece.simplified]

/-- What is read is made of units that can be written. -/
theorem isUnit_of_wildcardPieces (hs : Clear s) (run : Char) {position : Nat} {cs : List Char} {ps : List Piece}
    (h : wildcardPieces s position cs = .ok ps) :
    ∀ u ∈ ps.flatMap Piece.simplified, Piece.IsUnit (Writable s run) u := by
  have hcons : ∀ {r : Result (List Piece)} {p : Piece} {ps : List Piece}, r.map (p :: ·) = .ok ps →
      (∀ qs, r = .ok qs → ∀ u ∈ qs.flatMap Piece.simplified, Piece.IsUnit (Writable s run) u) →
      (∀ u ∈ p.simplified, Piece.IsUnit (Writable s run) u) →
      ∀ u ∈ ps.flatMap Piece.simplified, Piece.IsUnit (Writable s run) u := by
    intro r p ps hr hrest hp u hu
    cases r with
    | error e => cases hr
    | ok qs =>
      cases hr
      rw [List.flatMap_cons, List.mem_append] at hu
      rcases hu with hu | hu
      · exact hp u hu
      · exact hrest qs rfl u hu
  have hliteral : ∀ c : Char, ∀ u ∈ (Piece.literal c.toString).simplified, Piece.IsUnit (Writable s run) u := by
    intro c u hu
    rw [simplified_literal, List.mem_singleton] at hu
    rw [hu]
    exact .char c
  have hset : ∀ chars : CharSet, Writable s run chars → ∀ u ∈ (Piece.set chars .once).simplified,
      Piece.IsUnit (Writable s run) u := by
    intro chars hchars u hu
    rw [simplified_set hchars.1, List.mem_singleton] at hu
    rw [hu]
    exact .set hchars
  fun_induction wildcardPieces s position cs generalizing ps with
  | case1 =>
    cases h
    nofun
  | case2 position c hescape next more ih => exact hcons h (fun qs hqs => ih hqs) (hliteral next)
  | case3 position c hescape =>
    cases h
    rw [List.flatMap_singleton]
    exact hliteral c
  | case4 position c rest _ hrun ih =>
    refine hcons h (fun qs hqs => ih hqs) fun u hu => ?_
    rw [Piece.anyRun, simplified_set rfl, List.mem_singleton] at hu
    rw [hu]
    exact .run
  | case5 position c rest _ _ hsingle ih =>
    exact hcons h (fun qs hqs => ih hqs) (hset _ (writable_any hs (beq_iff_eq.mp hsingle)))
  | case6 position c rest _ _ _ hdigit ih =>
    exact hcons h (fun qs hqs => ih hqs) (hset _ (writable_digit hs (beq_iff_eq.mp hdigit)))
  | case7 position c rest _ _ _ _ hbracket chars more hread ih =>
    refine hcons h (fun qs hqs => ih hqs) ?_
    cases hchar : chars.singleChar? with
    | some d =>
      intro u hu
      simp only [Piece.simplified, hchar, List.mem_singleton] at hu
      rw [hu]
      exact .char d
    | none =>
      rw [Bool.and_eq_true] at hbracket
      exact hset chars (writable_of_set? hs hbracket.1 hread hchar)
  | case8 => cases h
  | case9 position c rest _ _ _ _ _ ih => exact hcons h (fun qs hqs => ih hqs) (hliteral c)

/-! ### Pieces -/

/-- A special character is made literal. -/
theorem spells_special (hs : Clear s) {c : Char} (hc : s.isSpecial c = true) (hescape : s.escape = none) :
    Spells s ['[', c, ']'] [.set ⟨[.char c], false⟩ .once] := by
  obtain ⟨hbrackets, hnegation⟩ := hs.escapable hescape
  have hne : c ≠ s.negation := by
    rintro rfl
    rw [hc] at hnegation
    cases hnegation
  have hentry : ¬(c = ']' ∧ true = false) := fun h => absurd h.2 (by decide)
  refine spells_bracket hs hbrackets fun rest => ?_
  rw [List.cons_append, List.singleton_append, set?, if_neg hne, setItems?_char hentry (absurd · (by decide)),
    setItems?_close]
  rfl

theorem escapeLiteral_spells (hs : Clear s) (cs : List Char) :
    ∃ shown ps, escapeLiteral s cs = .ok shown ∧ Spells s shown ps ∧
      ps.flatMap Piece.simplified = cs.map fun c => .literal c.toString := by
  induction cs with
  | nil => exact ⟨[], [], rfl, spells_nil s, rfl⟩
  | cons c cs ih =>
    obtain ⟨shown, ps, htext, hspells, hps⟩ := ih
    have hfirst : ∀ (first : List Char) (p : Piece), Spells s first [p] → p.simplified = [.literal c.toString] →
        ∃ ps', Spells s (first ++ shown) ps' ∧
          ps'.flatMap Piece.simplified = (c :: cs).map fun c => .literal c.toString := by
      intro first p hp hsimplified
      refine ⟨p :: ps, hp.append hspells, ?_⟩
      rw [List.flatMap_cons, hsimplified, hps]
      rfl
    cases hspecial : s.isSpecial c with
    | false =>
      obtain ⟨ps', hall, hunits⟩ := hfirst [c] _ (spells_literal hspecial) (simplified_literal c)
      refine ⟨[c] ++ shown, ps', ?_, hall, hunits⟩
      simp only [escapeLiteral, hspecial, Bool.not_false, if_true, htext]
      rfl
    | true =>
      cases hescape : s.escape with
      | some escape =>
        obtain ⟨ps', hall, hunits⟩ := hfirst [escape, c] _ (spells_escaped hescape c) (simplified_literal c)
        refine ⟨[escape, c] ++ shown, ps', ?_, hall, hunits⟩
        simp only [escapeLiteral, hspecial, Bool.not_true, Bool.false_eq_true, if_false, hescape, htext]
        rfl
      | none =>
        obtain ⟨ps', hall, hunits⟩ := hfirst ['[', c, ']'] _ (spells_special hs hspecial hescape) rfl
        refine ⟨['[', c, ']'] ++ shown, ps', ?_, hall, hunits⟩
        simp only [escapeLiteral, hspecial, Bool.not_true, Bool.false_eq_true, if_false, hescape,
          (hs.escapable hescape).1, htext]
        rfl

/-- The copies of a set. -/
theorem pieceText_closed {chars : CharSet} {shown : List Char} (h : pieceText s run (.set chars .once) = .ok shown)
    (n : UInt32) :
    pieceText s run (.set chars ⟨n, some n, true⟩) = .ok (List.replicate n.toNat shown).flatten := by
  cases hany : chars.isClass .any with
  | false =>
    rw [pieceText_set_once hany] at h
    simp only [pieceText, hany, Bool.false_eq_true, if_false, h]
    exact repeated_closed shown n true none
  | true =>
    have hone : (Repetition.once).isAny = false := rfl
    have hbound : (⟨n, some n, true⟩ : Repetition).isAny = false := by
      simp [Repetition.isAny]
    simp only [pieceText, hany, hone, hbound, if_true, Bool.false_eq_true, if_false] at h ⊢
    cases hsingle : s.singleChar with
    | none =>
      rw [hsingle] at h
      cases h
    | some c =>
      simp only [hsingle, repeated_once] at h
      cases h
      exact repeated_closed [c] n true (some run)

/-- The copies of any character before any run. -/
theorem pieceText_opened {shown : List Char} (h : pieceText s run (.set (.ofClass .any) .once) = .ok shown)
    (n : UInt32) (hn : n ≠ 0) :
    pieceText s run (.set (.ofClass .any) ⟨n, none, true⟩) = .ok ((List.replicate n.toNat shown).flatten ++ [run]) := by
  have hany : (CharSet.ofClass .any).isClass .any = true := rfl
  have hone : (Repetition.once).isAny = false := rfl
  have hbound : (⟨n, none, true⟩ : Repetition).isAny = false := by
    simp [Repetition.isAny, hn]
  simp only [pieceText, hany, hone, hbound, if_true, Bool.false_eq_true, if_false] at h ⊢
  cases hsingle : s.singleChar with
  | none =>
    rw [hsingle] at h
    cases h
  | some c =>
    simp only [hsingle, repeated_once] at h
    cases h
    simp only [repeated, copies]

theorem flatMap_simplified_replicate {chars : CharSet} (h : chars.singleChar? = none) (n : Nat) :
    (List.replicate n (Piece.set chars .once)).flatMap Piece.simplified = List.replicate n (.set chars .once) := by
  induction n with
  | zero => rfl
  | succ n ih =>
    rw [List.replicate_succ, List.flatMap_cons, simplified_set h, ih]
    rfl

/-- A merged piece is written as a text that is read as its units. -/
theorem pieceText_spells (hs : Clear s) (hrun : s.anyRun.head? = some run) {p : Piece}
    (hp : Piece.IsMerged (Writable s run) p) :
    ∃ shown ps, pieceText s run p = .ok shown ∧ Spells s shown ps ∧ ps.flatMap Piece.simplified = p.units := by
  cases hp with
  | @text value _ =>
    obtain ⟨shown, ps, htext, hspells, hps⟩ := escapeLiteral_spells hs value.toList
    refine ⟨shown, ps, ?_, hspells, hps⟩
    simp only [Piece.literal, pieceText, htext]
    exact repeated_once shown none
  | @closed chars n hchars hn =>
    obtain ⟨hsingle, shown, htext, hspells⟩ := hchars
    refine ⟨_, _, pieceText_closed htext n, hspells.replicate n.toNat, ?_⟩
    rw [flatMap_simplified_replicate hsingle]
    simp only [Piece.units, reduceCtorEq, if_false, List.append_nil]
  | @opened n hany =>
    have hlast : Piece.anyRun.simplified = [.anyRun] := rfl
    by_cases hn : n = 0
    · refine ⟨[run], [.anyRun], ?_, spells_run hrun (hs.run run hrun), ?_⟩
      · rw [hn]
        rfl
      · rw [hn]
        rfl
    · obtain ⟨hsingle, shown, htext, hspells⟩ := hany hn
      refine ⟨_, _, pieceText_opened htext n hn, (hspells.replicate n.toNat).append (spells_run hrun (hs.run run hrun)), ?_⟩
      rw [List.flatMap_append, flatMap_simplified_replicate hsingle, List.flatMap_singleton, hlast]
      simp only [Piece.units, if_true]
      rfl

theorem sequenceText_spells (hs : Clear s) (hrun : s.anyRun.head? = some run) {ps : List Piece}
    (hps : ∀ p ∈ ps, Piece.IsMerged (Writable s run) p) :
    ∃ shown qs, sequenceText s run ps = .ok shown ∧ Spells s shown qs ∧
      qs.flatMap Piece.simplified = ps.flatMap Piece.units := by
  induction ps with
  | nil => exact ⟨[], [], rfl, spells_nil s, rfl⟩
  | cons p ps ih =>
    obtain ⟨first, qs, htext, hspells, hqs⟩ := pieceText_spells hs hrun (hps p List.mem_cons_self)
    obtain ⟨rest, rs, htext', hspells', hrs⟩ := ih fun q hq => hps q (List.mem_cons_of_mem p hq)
    refine ⟨first ++ rest, qs ++ rs, ?_, hspells.append hspells', ?_⟩
    · simp only [sequenceText, htext, htext']
      rfl
    · rw [List.flatMap_append, List.flatMap_cons, hqs, hrs]

/-! ### Patterns -/

theorem ofWildcard_of_wildcardPieces {value : String} {ps : List Piece} (h : wildcardPieces s 0 value.toList = .ok ps) :
    ofWildcard s value = .ok (ofSequence (.at_ .start :: (ps ++ [.at_ .finish]))).simplify := by
  rw [ofWildcard, ofWildcardRaw, h]
  rfl

/-- The pattern of pieces that are made of units. -/
theorem ofWildcard_eq {P : CharSet → Prop} {value : String} {ps rev : List Piece}
    (h : wildcardPieces s 0 value.toList = .ok ps)
    (hrev : (ps.flatMap Piece.simplified).foldl Piece.pushMerged [.at_ .start] = rev)
    (hcanonical : Piece.Canonical P rev) :
    ofWildcard s value = .ok (ofSequence (rev.reverse ++ [.at_ .finish])) := by
  have hstart : (Piece.at_ .start).simplified = [.at_ .start] := rfl
  have hfinish : (Piece.at_ .finish).simplified = [.at_ .finish] := rfl
  have hseq : Piece.simplifiedSequence [] (.at_ .start :: (ps ++ [.at_ .finish])) = rev.reverse ++ [.at_ .finish] := by
    rw [Piece.simplifiedSequence_eq_foldl, List.flatMap_cons, hstart, List.flatMap_append, List.flatMap_singleton,
      hfinish, List.singleton_append, List.foldl_cons, List.foldl_append]
    have hfirst : Piece.pushMerged [] (.at_ .start) = [.at_ .start] := rfl
    rw [hfirst, hrev, List.foldl_cons, List.foldl_nil, hcanonical.pushMerged_finish, List.reverse_cons]
  simp only [ofWildcard_of_wildcardPieces h, simplify, ofSequence, Piece.simplifiedAlternatives, hseq]

/-- The text of an anchored sequence. -/
theorem toWildcard_anchored (hrun : s.anyRun.head? = some run) {body : List Piece} {shown : List Char}
    (h : sequenceText s run body = .ok shown) :
    toWildcard s (ofSequence (.at_ .start :: body ++ [.at_ .finish])) = .ok (String.ofList shown) := by
  obtain ⟨more, hmore⟩ := List.head?_eq_some_iff.mp hrun
  have hfirst : dropFirst (·.isAnchor .start) (Piece.at_ .start :: (body ++ [.at_ .finish]))
      = (true, body ++ [.at_ .finish]) := rfl
  have hlast : dropLast (·.isAnchor .finish) (body ++ [Piece.at_ .finish]) = (true, body) := by
    rw [dropLast, List.reverse_append]
    change (true, body.reverse.reverse) = _
    rw [List.reverse_reverse]
  simp only [toWildcard, ofSequence, hmore, List.cons_append, hfirst, hlast, h]
  simp [bind, Except.bind, pure, Except.pure]

/-- A pattern that was read can be written, and the text is read as the same pattern. -/
theorem exists_toWildcard (hs : Clear s) {value : String} {p : Pattern} (h : ofWildcard s value = .ok p) :
    ∃ shown, toWildcard s p = .ok shown ∧ ofWildcard s shown = .ok p := by
  obtain ⟨run, hrun⟩ := Option.ne_none_iff_exists'.mp fun hnone => hs.ne_nil (List.head?_eq_none_iff.mp hnone)
  obtain ⟨ps, hps⟩ : ∃ ps, wildcardPieces s 0 value.toList = .ok ps := by
    cases hps : wildcardPieces s 0 value.toList with
    | ok ps => exact ⟨ps, rfl⟩
    | error e =>
      simp only [ofWildcard, ofWildcardRaw, hps] at h
      cases h
  have hcanonical := Piece.Canonical.foldl_pushMerged (isUnit_of_wildcardPieces hs run hps) .start
  obtain ⟨body, hbody, hmerged⟩ := hcanonical.reverse_eq
  have hp := ofWildcard_eq hps rfl hcanonical
  obtain ⟨shown, qs, htext, hspells, hqs⟩ := sequenceText_spells hs hrun hmerged
  rw [h, hbody] at hp
  cases hp
  refine ⟨String.ofList shown, toWildcard_anchored hrun htext, ?_⟩
  -- The units of the pattern are merged to what the units of the text were merged to.
  have hagain : (qs.flatMap Piece.simplified).foldl Piece.pushMerged [.at_ .start]
      = (ps.flatMap Piece.simplified).foldl Piece.pushMerged [.at_ .start] := by
    have hunits := hcanonical.foldl_flatMap_units
    rw [hbody, List.flatMap_cons, ← hqs] at hunits
    exact hunits
  have hread : wildcardPieces s 0 (String.ofList shown).toList = .ok qs := by
    rw [String.toList_ofList]
    exact hspells.wildcardPieces
  rw [ofWildcard_eq hread hagain hcanonical, hbody]

end

/-- In every syntax, what was read can be written, and the text is read as the same pattern. -/
theorem exists_toWildcard_of_mem_syntaxes {s : WildcardSyntax} (hs : s ∈ syntaxes) {value : String} {p : Pattern}
    (h : ofWildcard s value = .ok p) : ∃ shown, toWildcard s p = .ok shown ∧ ofWildcard s shown = .ok p :=
  exists_toWildcard (clear_of_mem_syntaxes hs) h

/-- A run and a single character change places, a hash sign is quoted, and a bracket and a dash keep their places in
    their set. -/
theorem exists_toWildcard_visualBasic :
    let p : Pattern := ⟨[[.at_ .start, .set (.ofClass .any) ⟨1, none, true⟩, .literal "#",
      .set ⟨[.char ']', .char 'a', .char '-'], true⟩ .once, .literal "x", .at_ .finish]]⟩
    ofWildcard .visualBasic "*?[#][!]a-]x" = .ok p ∧
      ∃ shown, toWildcard .visualBasic p = .ok shown ∧ ofWildcard .visualBasic shown = .ok p := by
  intro p
  have hread : wildcardPieces .visualBasic 0 "*?[#][!]a-]x".toList = .ok [.anyRun, .anyChar,
      .set ⟨[.char '#'], false⟩ .once, .set ⟨[.char ']', .char 'a', .char '-'], true⟩ .once, .literal "x"] := by
    simp [wildcardPieces, WildcardSyntax.visualBasic, set?, setItems?, Except.map]
  have hp : ofWildcard .visualBasic "*?[#][!]a-]x" = .ok p := ofWildcard_of_wildcardPieces hread
  exact ⟨hp, exists_toWildcard_of_mem_syntaxes (by decide) hp⟩

end ItemQuery.Pattern
