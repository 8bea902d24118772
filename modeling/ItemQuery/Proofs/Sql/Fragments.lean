import Mathlib.Data.List.Forall2
import ItemQuery.Proofs.Sql.Atoms

/-! Value lists and ranges that stand alone, without an operand and the word before them. -/

namespace ItemQuery.Sql

/-! ### Value lists -/

/-- No text is no item. -/
theorem parseInList_empty (q : Query) (table : TableId) : parseInList q table "" = .ok [] :=
  rfl

/-- The items of a text with commas. -/
theorem parseInList_of_reads {q : Query} {table : TableId} {body : String} {said : List (List Phrase)} {es : List Expr}
    (hne : es ≠ []) (hscan : Scanned body.toList ((commaList said).flatMap Phrase.split))
    (hspoken : ∀ ps ∈ said, Spoken false ps)
    (hreads : List.Forall₂ (fun ps e => Reads (.ofTable q table) ps (.expr e) 0 0) said es) :
    parseInList q table body = .ok es := by
  have hsaid : said ≠ [] := by
    rintro rfl
    cases hreads
    exact hne rfl
  have hjoins := joins_commaList hsaid fun ps hps => ⟨(hspoken ps hps).joins, (hspoken ps hps).closed⟩
  obtain ⟨ts, hts, hphrases⟩ := tokenize_of_scanned hscan hjoins
  have hcomment : Phrase.comment ∉ ts.map Token.phrase := by
    rw [hphrases]
    exact comment_notMem_commaList fun ps hps => (hspoken ps hps).comment_notMem
  -- The machine starts as if the parenthesis before the list had just been opened.
  obtain ⟨A, B, hfeed, hB, happly⟩ := feed_commaList hne hreads ts [] [] ([] : List Operand).length 0 []
    hphrases nofun
  have hclose := closeBracket_inList hB happly body.utf8ByteSize
  rw [List.append_nil] at hfeed
  have hstart : Machine.openBracket {} .inList 0
      = ⟨[], [.opened .inList ([] : List Operand).length 0], true⟩ := rfl
  simp only [parseInList, hts, bind, Except.bind, filter_isComment hcomment, hstart, hfeed, Machine.feed, hclose]
  rfl

/-! ### Ranges -/

/-- The search for the `and` of a range passes over these tokens from this depth on. -/
def Passes (depth : Int) (ts : List Token) : Prop :=
  ∀ rest, splitAtAnd? depth (ts ++ rest) = (splitAtAnd? depth rest).map fun halves => (ts ++ halves.1, halves.2)

theorem passes_nil (depth : Int) : Passes depth [] := by
  intro rest
  simp

theorem Passes.append {depth : Int} {ts us : List Token} (hts : Passes depth ts) (hus : Passes depth us) :
    Passes depth (ts ++ us) := by
  intro rest
  rw [List.append_assoc, hts, hus, Option.map_map]
  simp only [Function.comp_def, List.append_assoc]

/-- A token that is no parenthesis, and not the `and` that is sought. -/
theorem passes_singleton {depth : Int} {t : Token} (hand : t.phrase = .word .and → depth ≠ 0)
    (hopened : t.phrase ≠ .symbol "(") (hclosed : t.phrase ≠ .symbol ")") : Passes depth [t] := by
  intro rest
  have hmark : ¬(depth = 0 ∧ t.kind = .keyword .and) := by
    rintro ⟨hdepth, hkind⟩
    exact hand (by rw [Token.phrase, hkind, Phrase.of]) hdepth
  have hopen : t.isOp "(" = false := by
    rw [← Bool.not_eq_true, isOp_of_phrase]
    exact hopened
  have hclose : t.isOp ")" = false := by
    rw [← Bool.not_eq_true, isOp_of_phrase]
    exact hclosed
  simp only [List.singleton_append, splitAtAnd?, hmark, hopen, hclose, Bool.false_eq_true, if_false]

theorem passes_word {depth : Int} {t : Token} {k : Keyword} (ht : t.phrase = .word k) (hand : k = .and → depth ≠ 0) :
    Passes depth [t] :=
  passes_singleton (fun h => hand (Phrase.word.inj (ht.symm.trans h))) (by simp [ht]) (by simp [ht])

theorem passes_symbol {depth : Int} {t : Token} {s : String} (ht : t.phrase = .symbol s) (hs : s ≠ "(" ∧ s ≠ ")") :
    Passes depth [t] :=
  passes_singleton (by simp [ht]) (by simp [ht, hs.1]) (by simp [ht, hs.2])

/-- Tokens in parentheses are passed over one level deeper. -/
theorem Passes.enclosed {depth : Int} {opening closing : Token} {ts : List Token} (h : Passes (depth + 1) ts)
    (hopening : opening.phrase = .symbol "(") (hclosing : closing.phrase = .symbol ")") :
    Passes depth (opening :: (ts ++ [closing])) := by
  intro rest
  have hopened := opening.kind_of_symbol hopening
  have hclosed := closing.kind_of_symbol hclosing
  have hopen : opening.isOp "(" = true := isOp_of_phrase.mpr hopening
  have hclose : closing.isOp ")" = true := isOp_of_phrase.mpr hclosing
  have hother : closing.isOp "(" = false := by
    rw [← Bool.not_eq_true, isOp_of_phrase, hclosing]
    decide
  simp only [List.cons_append, List.append_assoc, List.nil_append, splitAtAnd?, hopened.1, reduceCtorEq, and_false,
    if_false, hopen, if_true]
  rw [h]
  simp only [splitAtAnd?, hclosed.1, reduceCtorEq, and_false, if_false, hother, hclose, Bool.false_eq_true, if_true,
    Int.add_sub_cancel, Option.map_map, Function.comp_def]

theorem passes_commaList {depth : Int} {items : List (List Phrase)}
    (h : ∀ item ∈ items, ∀ ts : List Token, ts.map Token.phrase = item → Passes depth ts) {ts : List Token}
    (hts : ts.map Token.phrase = commaList items) : Passes depth ts := by
  induction items generalizing ts with
  | nil =>
    cases List.map_eq_nil_iff.mp hts
    exact passes_nil depth
  | cons item items ih =>
    obtain ⟨hitem, hitems⟩ := List.forall_mem_cons.mp h
    cases items with
    | nil => exact hitem ts hts
    | cons next items =>
      obtain ⟨first, ts, rfl, hfirst, hts⟩ := List.map_eq_append_iff.mp hts
      obtain ⟨comma, ts, rfl, hcomma, hts⟩ := List.map_eq_cons_iff.mp hts
      exact (hitem first hfirst).append ((passes_symbol hcomma (by decide)).append (ih hitems hts))

/-- An operand is passed over if it has no connective `and` outside of parentheses, or stands in parentheses itself. -/
theorem Spoken.passes {quiet : Bool} {ps : List Phrase} (h : Spoken quiet ps) {depth : Int} (hdepth : 0 ≤ depth)
    (hquiet : quiet = false → depth ≠ 0) {ts : List Token} (hts : ts.map Token.phrase = ps) : Passes depth ts := by
  induction h generalizing depth ts with
  | loud _ ih => exact ih hdepth nofun hts
  | atom _ hsymbol hword =>
    obtain ⟨t, rfl, ht⟩ := List.map_eq_singleton_iff.mp hts
    exact passes_singleton (fun hand => absurd (ht.symm.trans hand) (hword _)) (by simp [ht, hsymbol])
      (by simp [ht, hsymbol])
  | enclosed _ ih =>
    obtain ⟨opening, ts, rfl, hopening, hts⟩ := List.map_eq_cons_iff.mp hts
    obtain ⟨inner, last, rfl, hinner, hlast⟩ := List.map_eq_append_iff.mp hts
    obtain ⟨closing, rfl, hclosing⟩ := List.map_eq_singleton_iff.mp hlast
    exact (ih (by omega) (fun _ => by omega) hinner).enclosed hopening hclosing
  | minus _ ih =>
    obtain ⟨t, ts, rfl, ht, hts⟩ := List.map_eq_cons_iff.mp hts
    exact (passes_symbol ht (by decide)).append (ih hdepth hquiet hts)
  | not _ ih =>
    obtain ⟨t, ts, rfl, ht, hts⟩ := List.map_eq_cons_iff.mp hts
    exact (passes_word ht (by simp)).append (ih hdepth hquiet hts)
  | symbol hs _ _ ihl ihr =>
    obtain ⟨left, ts, rfl, hleft, hts⟩ := List.map_eq_append_iff.mp hts
    obtain ⟨t, ts, rfl, ht, hts⟩ := List.map_eq_cons_iff.mp hts
    exact (ihl hdepth hquiet hleft).append ((passes_symbol ht hs).append (ihr hdepth hquiet hts))
  | word _ hand _ _ ihl ihr =>
    obtain ⟨left, ts, rfl, hleft, hts⟩ := List.map_eq_append_iff.mp hts
    obtain ⟨t, ts, rfl, ht, hts⟩ := List.map_eq_cons_iff.mp hts
    exact (ihl hdepth hquiet hleft).append ((passes_word ht fun h => hquiet (hand h)).append (ihr hdepth hquiet hts))
  | between hk _ _ _ ih ihlow ihhigh =>
    obtain ⟨left, ts, rfl, hleft, hts⟩ := List.map_eq_append_iff.mp hts
    obtain ⟨t, ts, rfl, ht, hts⟩ := List.map_eq_cons_iff.mp hts
    obtain ⟨low, ts, rfl, hlow, hts⟩ := List.map_eq_append_iff.mp hts
    obtain ⟨u, ts, rfl, hu, hts⟩ := List.map_eq_cons_iff.mp hts
    have hmark : Passes depth [t] := passes_word ht (by rcases hk with rfl | rfl <;> simp)
    have hand : Passes depth [u] := passes_word hu (by simp)
    exact (ih hdepth hquiet hleft).append
      (hmark.append ((ihlow hdepth nofun hlow).append (hand.append (ihhigh hdepth hquiet hts))))
  | null hk _ ih =>
    obtain ⟨left, ts, rfl, hleft, hts⟩ := List.map_eq_append_iff.mp hts
    obtain ⟨t, ts, rfl, ht, hts⟩ := List.map_eq_cons_iff.mp hts
    obtain ⟨u, rfl, hu⟩ := List.map_eq_singleton_iff.mp hts
    have hmark : Passes depth [t] := passes_word ht (by rcases hk with rfl | rfl <;> simp)
    exact (ih hdepth hquiet hleft).append (hmark.append (passes_word hu (by simp)))
  | inList hk _ _ _ ih ihitems =>
    obtain ⟨left, ts, rfl, hleft, hts⟩ := List.map_eq_append_iff.mp hts
    obtain ⟨t, ts, rfl, ht, hts⟩ := List.map_eq_cons_iff.mp hts
    obtain ⟨opening, ts, rfl, hopening, hts⟩ := List.map_eq_cons_iff.mp hts
    obtain ⟨items, last, rfl, hitems, hlast⟩ := List.map_eq_append_iff.mp hts
    obtain ⟨closing, rfl, hclosing⟩ := List.map_eq_singleton_iff.mp hlast
    have hmark : Passes depth [t] := passes_word ht (by rcases hk with rfl | rfl <;> simp)
    have hinner : Passes (depth + 1) items :=
      passes_commaList (fun item hitem _ => ihitems item hitem (by omega) (fun _ => by omega)) hitems
    exact (ih hdepth hquiet hleft).append (hmark.append (hinner.enclosed hopening hclosing))

/-- The bounds of a text with `and` between two values. -/
theorem parseBetween_of_reads {q : Query} {table : TableId} {sql : String} {ps ps' : List Phrase} {low high : Expr}
    (hscan : Scanned sql.toList ((ps ++ .word .and :: ps').flatMap Phrase.split)) (hps : Spoken true ps)
    (hps' : Spoken true ps') (hlow : Reads (.ofTable q table) ps (.expr low) 0 0)
    (hhigh : Reads (.ofTable q table) ps' (.expr high) 0 0) : parseBetween q table sql = .ok (low, high) := by
  have hspoken : Spoken false (ps ++ .word .and :: ps') := .word rfl (fun _ => rfl) (.loud hps) (.loud hps')
  obtain ⟨ts, hts, hphrases⟩ := tokenize_of_scanned hscan hspoken.joins
  obtain ⟨before, rest, rfl, rfl, hrest⟩ := List.map_eq_append_iff.mp hphrases
  obtain ⟨mark, after, rfl, hmark, rfl⟩ := List.map_eq_cons_iff.mp hrest
  have hsplit : splitAtAnd? 0 (before ++ mark :: after) = some (before, mark, after) := by
    rw [hps.passes (Int.le_refl 0) nofun rfl]
    simp [splitAtAnd?, mark.kind_of_word hmark]
  have hfirst := hlow.parseTokens hps.comment_notMem mark.offset
  have hlast := hhigh.parseTokens hps'.comment_notMem sql.utf8ByteSize
  simp only [parseBetween, hts, bind, Except.bind, hsplit, hfirst, hlast]
  rfl

/-! ### Values -/

/-- A text that is read as the value `e`, wherever it stands in a list or a range. -/
def Legible (text : String) (e : Expr) : Prop :=
  ∃ ps, Spoken true ps ∧ Prints text.toList (ps.flatMap Phrase.split) ∧ ∀ scope, Reads scope ps (.expr e) 0 0

/-- A text of a single token. -/
theorem legible_atom {text : String} {e : Expr} {p : Phrase} (hcloses : p.closes = true) (hsymbol : ∀ s, p ≠ .symbol s)
    (hword : ∀ k, p ≠ .word k) (hprints : Prints text.toList p.split) (hreads : ∀ scope, Reads scope [p] (.expr e) 0 0) :
    Legible text e :=
  ⟨[p], .atom hcloses hsymbol hword, by rwa [List.flatMap_singleton], hreads⟩

theorem legible_quoted (s : String) : Legible (Text.quoted s) (.text s) :=
  legible_atom (p := .string (Text.quoted s)) rfl nofun nofun (prints_string s) fun _ => reads_string _ _ s

theorem legible_placeholder {name : String} (hname : IsPlain name) :
    Legible ("@" ++ name) (.parameter (.named name) none false) :=
  legible_atom (p := .name ("@" ++ name)) rfl nofun nofun (prints_placeholder hname) fun scope =>
    reads_name _ _ fun _ => scope.value_placeholder

/-- The text of a value list is read as its items. -/
theorem parseInList_legible (q : Query) (table : TableId) {texts : List String} {es : List Expr}
    (h : List.Forall₂ Legible texts es) : parseInList q table (", ".intercalate texts) = .ok es := by
  by_cases hne : es = []
  · subst hne
    cases h
    exact parseInList_empty q table
  · obtain ⟨said, hspoken, hprints, hreads⟩ : ∃ said : List (List Phrase), (∀ ps ∈ said, Spoken true ps) ∧
        List.Forall₂ (fun text ps => Prints text.toList (ps.flatMap Phrase.split)) texts said ∧
        List.Forall₂ (fun ps e => ∀ scope, Reads scope ps (.expr e) 0 0) said es := by
      clear hne
      induction h with
      | nil => exact ⟨[], nofun, .nil, .nil⟩
      | cons hfirst _ ih =>
        obtain ⟨ps, hps, hprint, hread⟩ := hfirst
        obtain ⟨said, hspoken, hprints, hreads⟩ := ih
        exact ⟨ps :: said, List.forall_mem_cons.mpr ⟨hps, hspoken⟩, .cons hprint hprints, .cons hread hreads⟩
    have hsaid : said ≠ [] := by
      rintro rfl
      cases hreads
      exact hne rfl
    exact parseInList_of_reads hne (prints_commaList hsaid hprints).scanned (fun ps hps => .loud (hspoken ps hps))
      (hreads.imp fun _ _ hread => hread _)

/-- The text of a range is read as its bounds. -/
theorem parseBetween_legible (q : Query) (table : TableId) {first last : String} {low high : Expr}
    (hlow : Legible first low) (hhigh : Legible last high) :
    parseBetween q table (first ++ " and " ++ last) = .ok (low, high) := by
  obtain ⟨ps, hps, hfirst, hreads⟩ := hlow
  obtain ⟨ps', hps', hlast, hreads'⟩ := hhigh
  have hand : Prints "and".toList [.word .and] := prints_word (by decide)
  have hprints := hfirst.spaced (hand.spaced hlast)
  have hlist : (first ++ " and " ++ last).toList = first.toList ++ ' ' :: ("and".toList ++ ' ' :: last.toList) := by
    simp
  have hsplit : (ps ++ .word .and :: ps').flatMap Phrase.split
      = ps.flatMap Phrase.split ++ ([.word .and] ++ ps'.flatMap Phrase.split) := by
    rw [List.flatMap_append, List.flatMap_cons]
    rfl
  rw [← hlist, ← hsplit] at hprints
  exact parseBetween_of_reads hprints.scanned hps hps' (hreads _) (hreads' _)

end ItemQuery.Sql
