import ItemQuery.Proofs.Pattern.RegexText
import ItemQuery.Proofs.Pattern.Translation

/-! What a written regular expression matches. A piece is read as pieces that lead from where to where it leads, a
    text with a repetition as a group of its characters, and the ends that are left out say nothing. A class is read
    back entry by entry, but for a range that ends in a character that is escaped there. -/

namespace ItemQuery

/-! ### Repetitions -/

theorem Span.repeated_written (r : Repetition) (R : Span) : repeated r.written R = repeated r R := by
  unfold Repetition.written
  split
  next h => rw [repeated_of_isOnce rfl, repeated_of_isOnce h]
  next => rfl

theorem Repetition.Ordered.written {r : Repetition} (h : r.Ordered) : r.written.Ordered := by
  unfold Repetition.written
  split
  next => exact ordered_of_isOnce rfl
  next => exact h

namespace Pattern

/-! ### Pieces -/

section
variable {cs ds : List Char} {R T : List Char → Span}

/-- A text that is read as pieces that lead like `R`. -/
def Restates (cs : List Char) (R : List Char → Span) : Prop :=
  ∃ ps, Reads cs ps ∧ SequenceOrdered ps ∧ ∀ s, sequenceSpan s ps = R s

/-- A text that is read, inside of a group, as alternatives that lead like `R`. -/
def RestatesGroup (cs : List Char) (R : List Char → Span) : Prop :=
  ∃ pss, ReadsGroup cs pss ∧ AlternativesOrdered pss ∧ ∀ s, alternativesSpan s pss = R s

theorem restates_piece {p : Piece} (h : Reads cs [p]) (hp : p.Ordered) (hR : ∀ s, p.span s = R s) : Restates cs R :=
  ⟨[p], h, ⟨hp, trivial⟩, fun s => (sequenceSpan_singleton p).trans (hR s)⟩

theorem Restates.append (h : Restates cs R) (h' : Restates ds T) :
    Restates (cs ++ ds) fun s => Span.comp (R s) (T s) := by
  obtain ⟨ps, hps, hordered, hR⟩ := h
  obtain ⟨qs, hqs, hordered', hT⟩ := h'
  refine ⟨ps ++ qs, hps.append hqs, sequenceOrdered_append.mpr ⟨hordered, hordered'⟩, fun s => ?_⟩
  rw [sequenceSpan_append, hR, hT]

theorem Restates.group (h : Restates cs R) : RestatesGroup cs R := by
  obtain ⟨ps, hps, hordered, hR⟩ := h
  refine ⟨[ps], hps.group, ⟨hordered, trivial⟩, fun s => ?_⟩
  simp only [alternativesSpan, or_false, hR]

theorem RestatesGroup.bar (h : Restates cs R) (h' : RestatesGroup ds T) :
    RestatesGroup (cs ++ '|' :: ds) fun s i j => R s i j ∨ T s i j := by
  obtain ⟨ps, hps, hordered, hR⟩ := h
  obtain ⟨pss, hpss, hordered', hT⟩ := h'
  refine ⟨ps :: pss, hpss.bar hps, ⟨hordered, hordered'⟩, fun s => ?_⟩
  simp only [alternativesSpan, hR, hT]

theorem RestatesGroup.restates (h : RestatesGroup cs R) {r : Repetition} (hr : r.Ordered) {mark : List Char}
    (hmark : mark = [] ∨ mark = ['?', ':']) :
    Restates ('(' :: mark ++ cs ++ ')' :: quantifierText r) fun s => Span.repeated r (R s) := by
  obtain ⟨pss, hpss, hordered, hR⟩ := h
  refine restates_piece (hpss.reads r hmark) ⟨hr.written, hordered⟩ fun s => ?_
  rw [Piece.span, Piece.count, Span.repeated_written, Piece.once, hR]

/-- The characters of a text, each once, lead over the text. -/
theorem sequenceSpan_charPieces (s cs : List Char) :
    sequenceSpan s (charPieces cs) = (Piece.text (String.ofList cs) .once).once s := by
  induction cs with
  | nil => exact (Piece.once_text_empty rfl .once).symm
  | cons c cs ih =>
    have htext : String.ofList (c :: cs) = c.toString ++ String.ofList cs := by
      rw [← String.toList_inj]
      simp
    have hpieces : charPieces (c :: cs) = .text c.toString .once :: charPieces cs := rfl
    rw [hpieces, sequenceSpan, ih, Piece.count, Span.repeated_of_isOnce rfl, htext,
      Piece.once_text_append c.toString (String.ofList cs) .once .once .once]

theorem sequenceOrdered_charPieces (cs : List Char) : SequenceOrdered (charPieces cs) := by
  induction cs with
  | nil => trivial
  | cons c cs ih => exact ⟨Repetition.ordered_of_isOnce rfl, ih⟩

theorem restates_regexLiteral (value : String) (r : Repetition) :
    Restates (regexLiteral value.toList) fun s => (Piece.text value r).once s := by
  refine ⟨_, reads_regexLiteral value.toList, sequenceOrdered_charPieces _, fun s => ?_⟩
  rw [sequenceSpan_charPieces, String.ofList_toList]
  rfl

theorem restates_text {value : String} (hvalue : value ≠ "") {r : Repetition} (hr : r.Ordered) :
    Restates (pieceRegex (.text value r)) fun s => (Piece.text value r).span s := by
  rw [pieceRegex]
  cases honce : r.isOnce with
  | true =>
    have hquantifier : quantifierText r = [] := by simp only [quantifierText, honce, if_true]
    simp only [Bool.not_true, Bool.false_and, Bool.false_eq_true, if_false, hquantifier, List.append_nil, Piece.span,
      Piece.count, Span.repeated_of_isOnce honce]
    exact restates_regexLiteral value r
  | false =>
    by_cases hlong : 1 < value.length
    · simp only [Bool.not_false, Bool.true_and, decide_eq_true hlong, if_true]
      have hgroup := (restates_regexLiteral value r).group.restates hr (.inr rfl)
      simpa only [Piece.span, Piece.count, List.append_assoc, List.cons_append, List.nil_append] using hgroup
    · obtain ⟨c, rfl⟩ : ∃ c : Char, value = c.toString := by
        have hne : value.toList ≠ [] := fun h => hvalue (String.toList_inj.mp h)
        obtain ⟨c, cs, hcs⟩ := List.exists_cons_of_ne_nil hne
        rw [← String.length_toList, hcs, List.length_cons] at hlong
        have hnil : cs = [] := List.length_eq_zero_iff.mp (by omega)
        exact ⟨c, String.toList_inj.mp (by simp [hcs, hnil])⟩
      simp only [Bool.not_false, Bool.true_and, decide_eq_false hlong, Bool.false_eq_true, if_false]
      rw [Char.toString_eq_singleton, String.toList_singleton]
      refine restates_piece (reads_char c r) hr.written fun s => ?_
      rw [Piece.span, Piece.count, Span.repeated_written]
      rfl

theorem restates_set {chars : CharSet} (hchars : setWritable chars = true) {r : Repetition} (hr : r.Ordered) :
    Restates (pieceRegex (.set chars r)) fun s => (Piece.set chars r).span s := by
  rw [pieceRegex]
  refine restates_piece (reads_set hchars r) hr.written fun s => ?_
  rw [Piece.span, Piece.count, Span.repeated_written]
  rfl

theorem restates_at (place : Anchor) : Restates (pieceRegex (.at_ place)) fun s => (Piece.at_ place).span s := by
  have hreads : Reads (pieceRegex (.at_ place)) [.at_ place] := by
    cases place with
    | start => exact reads_atom [] _ .once (by decide) (by decide) (fun _ _ => rfl) fun _ _ h => by cases h; rfl
    | finish => exact reads_atom [] _ .once (by decide) (by decide) (fun _ _ => rfl) fun _ _ h => by cases h; rfl
    | wordBoundary =>
      exact reads_atom ['b'] _ .once (by decide) (by decide) (fun _ _ => rfl) fun _ _ h => by cases h; rfl
  exact restates_piece hreads (Repetition.ordered_of_isOnce rfl) fun _ => rfl

end

/-! ### Legible pieces -/

/-- Whether a piece that is no group, or the group around its alternatives, is read as it is written. -/
def Legible : Piece → Prop
  | .anchor _ r => r = .once
  | .set chars _ => setWritable chars = true
  | .text value _ => value ≠ ""
  | .group alternatives _ => alternatives ≠ []

mutual

/-- A legible piece is read as pieces that lead where it leads. -/
theorem restates_pieceRegex : ∀ p : Piece, p.Everywhere Legible → p.Ordered →
    Restates (pieceRegex p) fun s => p.span s
  | .anchor place r, h, _ => by
    rw [Piece.Everywhere, Legible] at h
    rw [h]
    exact restates_at place
  | .set chars r, h, hr => restates_set h hr
  | .text value r, h, hr => restates_text h hr
  | .group alternatives r, h, hr => by
    have hgroup := (restates_alternativesRegex alternatives h.1 h.2 hr.2).restates hr.1 (.inl rfl)
    rw [pieceRegex]
    simpa only [Piece.span, Piece.count, Piece.once, List.cons_append, List.nil_append] using hgroup

theorem restates_sequenceRegex : ∀ ps : List Piece, SequenceEverywhere Legible ps → SequenceOrdered ps →
    Restates (sequenceRegex ps) fun s => sequenceSpan s ps
  | [], _, _ => ⟨[], reads_nil, trivial, fun _ => rfl⟩
  | p :: ps, h, hr => by
    rw [sequenceRegex]
    exact (restates_pieceRegex p h.1 hr.1).append (restates_sequenceRegex ps h.2 hr.2)

theorem restates_alternativesRegex : ∀ pss : List (List Piece), pss ≠ [] → AlternativesEverywhere Legible pss →
    AlternativesOrdered pss → RestatesGroup (alternativesRegex pss) fun s => alternativesSpan s pss
  | [], hne, _, _ => absurd rfl hne
  | [ps], _, h, hr => by
    simp only [alternativesRegex, alternativesSpan, or_false]
    exact (restates_sequenceRegex ps h.1 hr.1).group
  | ps :: qs :: pss, _, h, hr => by
    have hrest := restates_alternativesRegex (qs :: pss) nofun h.2 hr.2
    rw [alternativesRegex.eq_def]
    exact hrest.bar (restates_sequenceRegex ps h.1 hr.1)

end

/-! ### Ends -/

section
variable {s : List Char} {ps : List Piece}

theorem sequenceSpan_cons (p : Piece) (ps : List Piece) :
    sequenceSpan s (p :: ps) = Span.comp (p.span s) (sequenceSpan s ps) :=
  rfl

theorem eq_at_of_isAnchor {place : Anchor} {p : Piece} (h : p.isAnchor place = true) (hp : p.Everywhere Legible) :
    p = .at_ place := by
  obtain ⟨r, rfl⟩ := eq_anchor_of_isAnchor h
  rw [Piece.Everywhere, Legible] at hp
  rw [hp]
  rfl

/-- A run behind the start is a start anywhere. -/
theorem exists_start_run_iff {X : Span} {j : Nat} :
    (∃ i, i ≤ s.length ∧ Span.comp ((Piece.at_ .start).span s) (Span.comp (Piece.anyRun.span s) X) i j) ↔
      ∃ i, i ≤ s.length ∧ X i j := by
  rw [exists_from_iff (X := X)]
  constructor
  · rintro ⟨i, -, k, hk, hX⟩
    obtain ⟨rfl, hstart⟩ := span_at.mp hk
    rwa [show i = 0 from hstart] at hX
  · intro hX
    exact ⟨0, Nat.zero_le _, 0, span_at.mpr ⟨rfl, rfl⟩, hX⟩

/-- A run up to the end is an end anywhere. -/
theorem exists_run_finish_iff {X : Span} (hX : Span.Inside s.length X) {i : Nat} (hi : i ≤ s.length) :
    (∃ j, Span.comp X (Span.comp (Piece.anyRun.span s) ((Piece.at_ .finish).span s)) i j) ↔ ∃ j, X i j := by
  constructor
  · rintro ⟨j, k, hk, -⟩
    exact ⟨k, hk⟩
  · rintro ⟨k, hk⟩
    have hle := hX i k hi hk
    exact ⟨s.length, k, hk, s.length, span_anyRun.mpr ⟨hle, fun _ => Nat.le_refl _⟩, span_at.mpr ⟨rfl, rfl⟩⟩

/-- A sequence without `.*$` at its end. -/
def openFinish (body : List Piece) : List Piece :=
  match body.reverse with
  | a :: b :: rest => if a.isAnchor .finish && b.isAnyRun then rest.reverse else body
  | _ => body

theorem exists_openFinish (h : SequenceEverywhere Legible ps) : ∃ back, ps = openFinish ps ++ back ∧
    (back = [] ∨ ∃ run : Piece, run.isAnyRun = true ∧ back = [run, .at_ .finish]) := by
  unfold openFinish
  split
  next a b rest hbody =>
    cases hends : a.isAnchor .finish && b.isAnyRun with
    | false => exact ⟨[], by simp, .inl rfl⟩
    | true =>
      rw [Bool.and_eq_true] at hends
      have hreverse : ps = rest.reverse ++ [b, a] := by
        rw [← List.reverse_reverse ps, hbody]
        simp
      rw [hreverse, sequenceEverywhere_append] at h
      refine ⟨[b, a], by simp [hreverse], .inr ⟨b, hends.2, ?_⟩⟩
      rw [eq_at_of_isAnchor hends.1 h.2.2.1]
  next => exact ⟨[], by simp, .inl rfl⟩

/-- What is left out is a run behind the start and a run up to the end. -/
theorem exists_openEnds (h : SequenceEverywhere Legible ps) : ∃ front back, ps = front ++ (openEnds ps ++ back) ∧
    (front = [] ∨ ∃ run : Piece, run.isAnyRun = true ∧ front = [.at_ .start, run]) ∧
    (back = [] ∨ ∃ run : Piece, run.isAnyRun = true ∧ back = [run, .at_ .finish]) := by
  have hstart : ∃ front body, ps = front ++ body ∧
      (front = [] ∨ ∃ run : Piece, run.isAnyRun = true ∧ front = [.at_ .start, run]) ∧ openEnds ps = openFinish body := by
    unfold openEnds
    split
    next a b rest =>
      cases hends : a.isAnchor .start && b.isAnyRun with
      | false => exact ⟨[], _, rfl, .inl rfl, rfl⟩
      | true =>
        rw [Bool.and_eq_true] at hends
        rw [eq_at_of_isAnchor hends.1 h.1]
        exact ⟨_, rest, rfl, .inr ⟨b, hends.2, rfl⟩, rfl⟩
    next => exact ⟨[], _, rfl, .inl rfl, rfl⟩
  obtain ⟨front, body, rfl, hfront, hopen⟩ := hstart
  obtain ⟨back, hback, hfinish⟩ := exists_openFinish ((sequenceEverywhere_append.mp h).2)
  exact ⟨front, back, by rw [hopen, ← hback], hfront, hfinish⟩

/-- The ends that are left out say nothing. -/
theorem exists_openEnds_iff (h : SequenceEverywhere Legible ps) :
    (∃ i j, i ≤ s.length ∧ sequenceSpan s (openEnds ps) i j) ↔ ∃ i j, i ≤ s.length ∧ sequenceSpan s ps i j := by
  obtain ⟨front, back, hps, hfront, hback⟩ := exists_openEnds h
  have hinside := inside_sequenceSpan s (openEnds ps)
  -- First the end, for a start anywhere, and then the start, for an end anywhere.
  have hfinish : (∃ i j, i ≤ s.length ∧ sequenceSpan s (openEnds ps ++ back) i j) ↔
      ∃ i j, i ≤ s.length ∧ sequenceSpan s (openEnds ps) i j := by
    rcases hback with rfl | ⟨run, hrun, rfl⟩
    · rw [List.append_nil]
    · have hnil : sequenceSpan s [] = Eq := rfl
      simp only [sequenceSpan_append, sequenceSpan_cons, hnil, Span.comp_eq, span_of_isAnyRun hrun, exists_and_left]
      exact exists_congr fun i => and_congr_right fun hi => exists_run_finish_iff hinside hi
  rw [← hfinish, congrArg (sequenceSpan s) hps]
  rcases hfront with rfl | ⟨run, hrun, rfl⟩
  · rfl
  · rw [exists_comm, exists_comm (p := fun i j => i ≤ s.length ∧ sequenceSpan s _ i j)]
    simp only [List.cons_append, List.nil_append, sequenceSpan_cons, span_of_isAnyRun hrun, exists_start_run_iff]

end

theorem exists_map_openEnds_iff {s : List Char} {pss : List (List Piece)} (h : AlternativesEverywhere Legible pss) :
    (∃ i j, i ≤ s.length ∧ alternativesSpan s (pss.map openEnds) i j) ↔
      ∃ i j, i ≤ s.length ∧ alternativesSpan s pss i j := by
  induction pss with
  | nil => rfl
  | cons ps pss ih =>
    simp only [List.map_cons, alternativesSpan, and_or_left, exists_or]
    exact or_congr (exists_openEnds_iff h.1) (ih h.2)

/-- What is left is legible and in order as before. -/
theorem map_openEnds {pss : List (List Piece)} (h : AlternativesEverywhere Legible pss)
    (hr : AlternativesOrdered pss) :
    AlternativesEverywhere Legible (pss.map openEnds) ∧ AlternativesOrdered (pss.map openEnds) := by
  induction pss with
  | nil => exact ⟨trivial, trivial⟩
  | cons ps pss ih =>
    obtain ⟨hpss, hrpss⟩ := ih h.2 hr.2
    obtain ⟨front, back, hsplit, -⟩ := exists_openEnds h.1
    have hps := h.1
    have hrps := hr.1
    rw [hsplit, sequenceEverywhere_append, sequenceEverywhere_append] at hps
    rw [hsplit, sequenceOrdered_append, sequenceOrdered_append] at hrps
    exact ⟨⟨hps.2.1, hpss⟩, hrps.2.1, hrpss⟩

/-- Reading what is written gives a pattern that is found in the same texts. -/
theorem exists_ofRegex_of_legible {p : Pattern} (hne : p.alternatives ≠ [])
    (hp : AlternativesEverywhere Legible p.alternatives) (hordered : p.Ordered) :
    ∃ q, ofRegex p.toRegex = .ok q ∧ ∀ s, q.Finds s ↔ p.Finds s := by
  obtain ⟨hopen, hopenOrdered⟩ := map_openEnds hp hordered
  obtain ⟨pss, hreads, hpss, hspan⟩ :=
    restates_alternativesRegex _ (fun h => hne (List.map_eq_nil_iff.mp h)) hopen hopenOrdered
  have hraw : ofRegexRaw p.toRegex = .ok ⟨pss⟩ := by
    obtain ⟨g, hread, hg⟩ := hreads.read p.toRegex.toList.length 0 [] [] calm_nil
    rw [List.append_nil, readRegex.eq_def _ g] at hread
    simp only [hg, List.reverse_nil, List.nil_append] at hread
    rw [ofRegexRaw, ← hread]
    exact congrArg _ String.toList_ofList
  refine ⟨_, by rw [ofRegex, hraw]; rfl, fun s => ?_⟩
  rw [finds_simplify hpss]
  simp only [Finds, hspan]
  exact exists_map_openEnds_iff hp

/-! ### Patterns that are read -/

/-- Whether an entry is read from a class: a class of its own, or a range that does not end in a bracket. -/
def Enclosed : SetItem → Prop
  | .char _ => True
  | .range _ high => high ≠ ']'
  | .cls kind => kind ≠ .any

theorem enclosed_rangeFrom (low : Char) (cs : List Char) : Enclosed (rangeFrom low cs).1 := by
  unfold rangeFrom
  split
  next =>
    split
    next => trivial
    next h => exact h
  next => trivial

theorem enclosed_of_entry {cs rest : List Char} {item : SetItem} (h : classEntry? cs = some (item, rest)) :
    Enclosed item := by
  unfold classEntry? at h
  split at h
  case h_1 => cases h
  case h_2 => cases h
  case h_3 =>
    cases h
    exact nofun
  case h_4 =>
    cases h
    exact nofun
  case h_5 =>
    cases h
    exact nofun
  case h_6 c rest _ _ _ =>
    have hread := enclosed_rangeFrom c rest
    rwa [Option.some.inj h] at hread
  case h_7 c rest _ _ _ _ _ =>
    have hread := enclosed_rangeFrom c rest
    rwa [Option.some.inj h] at hread

theorem enclosed_of_classItems? {first : Bool} {cs rest : List Char} {items : List SetItem}
    (h : classItems? first cs = some (items, rest)) :
    (first = true → items ≠ []) ∧ ∀ item ∈ items, Enclosed item := by
  fun_induction classItems? first cs generalizing items rest with
  | case1 => cases h
  | case2 first c cs hclose =>
    cases h
    exact ⟨fun heq => absurd hclose.2 (by simp [heq]), by simp⟩
  | case3 => cases h
  | case4 first c cs _ item more hentry ih =>
    obtain ⟨⟨items, rest⟩, hitems, heq⟩ := Option.map_eq_some_iff.mp h
    cases heq
    refine ⟨fun _ => by simp, ?_⟩
    simp only [List.mem_cons, forall_eq_or_imp]
    exact ⟨enclosed_of_entry hentry, (ih hitems).2⟩

/-- What reading makes of a piece: anchors are used once, texts and groups are not empty, and the entries of a set
    come from a class. -/
def Formed : Piece → Prop
  | .anchor _ r => r = .once
  | .set chars _ => chars.isClass .any = true ∨ chars.items ≠ [] ∧ ∀ item ∈ chars.items, Enclosed item
  | .text value _ => value ≠ ""
  | .group alternatives _ => alternatives ≠ []

theorem formed_of_atom? {position : Nat} {c : Char} {rest more : List Char} {piece : Repetition → Piece}
    (h : atom? position c rest = .ok (piece, more)) (r : Repetition)
    (hr : ∀ place q, piece r = .anchor place q → q = .once) : Formed (piece r) := by
  have hchar : ∀ c : Char, Formed (.text c.toString r) := fun c => by simp [Formed]
  have hclass : ∀ kind inverted, kind ≠ .any → Formed (.set ⟨[.cls kind], inverted⟩ r) := by
    intro kind inverted hkind
    exact .inr ⟨by simp, fun item hitem => by cases List.mem_singleton.mp hitem; exact hkind⟩
  unfold atom? at h
  split at h
  · split at h
    next chars more hread =>
      cases h
      refine .inr ?_
      unfold class? at hread
      split at hread <;> obtain ⟨⟨items, rest⟩, hitems, heq⟩ := Option.map_eq_some_iff.mp hread <;> cases heq <;>
        exact ⟨(enclosed_of_classItems? hitems).1 rfl, (enclosed_of_classItems? hitems).2⟩
    next => cases h
  · cases h
    exact .inl rfl
  · cases h
    exact hr _ _ rfl
  · cases h
    exact hr _ _ rfl
  · split at h <;> cases h
    unfold escaped at hr ⊢
    split
    next => exact hclass _ _ (by simp)
    next => exact hclass _ _ (by simp)
    next => exact hclass _ _ (by simp)
    next => exact hclass _ _ (by simp)
    next => exact hclass _ _ (by simp)
    next => exact hclass _ _ (by simp)
    next => exact hr _ _ rfl
    next => simp [Formed]
    next => simp [Formed]
    next => simp [Formed]
    next => exact hchar _
  · split at h <;> cases h
    exact hchar c

theorem lasting_formed : Lasting Formed where
  char c r := by simp [Formed]
  append {x y r q} hx _ := by
    simp only [Formed, ne_eq, ← String.toList_inj, String.toList_append, String.toList_empty,
      List.append_eq_nil_iff] at hx ⊢
    exact fun h => hx h.1
  withCount {p} r hp h := by
    cases p with
    | anchor place q => exact absurd rfl (hp place q)
    | set | text | group => exact h
  group {pss qss r} hlength h := by
    rw [Formed, ← List.length_pos_iff] at h ⊢
    exact hlength ▸ h

/-- No set of the pattern has a range that ends in a character that is escaped in a class. -/
def PlainRanges (p : Pattern) : Prop :=
  ∀ chars r, .set chars r ∈ p.leaves → ∀ low high, .range low high ∈ chars.items → high ∉ ['\\', '^', '-']

theorem setWritable_of_enclosed {chars : CharSet} (hne : chars.items ≠ []) (h : ∀ item ∈ chars.items, Enclosed item)
    (hplain : ∀ low high, .range low high ∈ chars.items → high ∉ ['\\', '^', '-']) : setWritable chars = true := by
  have hitems : chars.items.all classWritable = true := by
    rw [List.all_eq_true]
    intro item hitem
    cases item with
    | char => rfl
    | range low high =>
      have hbracket : high ≠ ']' := h _ hitem
      have hend := hplain low high hitem
      simp only [List.mem_cons, List.not_mem_nil, or_false, not_or] at hend
      simp [classWritable, classChar, hbracket, hend]
    | cls kind =>
      have hkind : kind ≠ .any := h _ hitem
      simpa [classWritable] using hkind
  simp [setWritable, hne, hitems]

theorem legible_of_ofRegex {value : String} {p : Pattern} (h : ofRegex value = .ok p) (hplain : p.PlainRanges) :
    p.alternatives ≠ [] ∧ AlternativesEverywhere Legible p.alternatives := by
  obtain ⟨hne, hformed⟩ := everywhere_of_ofRegex lasting_formed formed_of_atom? id h
  have hranges : AlternativesEverywhere (fun x => ∀ chars r, x = .set chars r → ∀ low high,
      .range low high ∈ chars.items → high ∉ ['\\', '^', '-']) p.alternatives := by
    rw [alternativesEverywhere_iff_leaves fun _ _ _ _ heq => nomatch heq]
    rintro _ hx chars r rfl
    exact hplain chars r hx
  refine ⟨hne, hformed.combine (fun x hx hends => ?_) hranges⟩
  cases x with
  | anchor | text | group => exact hx
  | set chars r =>
    rcases hx with hany | ⟨hne, henclosed⟩
    · simp [Legible, setWritable, hany]
    · exact setWritable_of_enclosed hne henclosed (hends chars r rfl)

/-- A regular expression that was read and is written again is found in the same texts, if its ranges end in
    characters that need no escape. -/
theorem exists_ofRegex_toRegex {value : String} {p : Pattern} (h : ofRegex value = .ok p) (hp : p.Ordered)
    (hplain : p.PlainRanges) : ∃ q, ofRegex p.toRegex = .ok q ∧ ∀ s, q.Finds s ↔ p.Finds s := by
  obtain ⟨hne, hlegible⟩ := legible_of_ofRegex h hplain
  exact exists_ofRegex_of_legible hne hlegible hp

/-- The open end is left out, and the text that repeats is written as a group. -/
theorem exists_ofRegex_toRegex_openEnd :
    let p : Pattern := ⟨[[.set ⟨[.range 'b' 'd', .char ']'], true⟩ ⟨2, some 3, false⟩,
      .group [[.literal "a"], [.literal "b", .anyRun]] ⟨1, none, true⟩, .group [[.literal "xy"]] .any, .anyRun,
      .at_ .finish]]⟩
    ofRegex "[^b-d\\]]\x7b2,3\x7d?(a|b.*)+(?:xy)*.*$" = .ok p ∧
      p.toRegex = "[^b-d\\]]\x7b2,3\x7d?(a|b.*)+(xy)*" ∧
      ∃ q, ofRegex p.toRegex = .ok q ∧ ∀ s, q.Finds s ↔ p.Finds s := by
  intro p
  have hclass : class? "^b-d\\]]\x7b2,3\x7d?(a|b.*)+(?:xy)*.*$".toList =
      some (⟨[.range 'b' 'd', .char ']'], true⟩, "\x7b2,3\x7d?(a|b.*)+(?:xy)*.*$".toList) := by decide +kernel
  have hraw : ofRegexRaw "[^b-d\\]]\x7b2,3\x7d?(a|b.*)+(?:xy)*.*$" =
      .ok ⟨[[.set ⟨[.range 'b' 'd', .char ']'], true⟩ ⟨2, some 3, false⟩,
        .group [[.literal "a"], [.literal "b", .anyRun]] ⟨1, none, true⟩, .group [[.literal "x", .literal "y"]] .any,
        .anyRun, .at_ .finish]]⟩ := by
    refine (readRegex_set hclass).trans ?_
    -- Atoms, and the parentheses and bars between them.
    iterate 12 first
      | refine (readRegex_atom (by decide) (fun _ => rfl) (by rintro _ _ ⟨⟩ <;> rfl)).trans ?_
      | refine (readRegex.eq_def ..).trans ?_
    exact readRegex.eq_def ..
  have hp : ofRegex "[^b-d\\]]\x7b2,3\x7d?(a|b.*)+(?:xy)*.*$" = .ok p := by
    rw [ofRegex, hraw]
    rfl
  refine ⟨hp, rfl, exists_ofRegex_toRegex hp ?_ ?_⟩
  · simp [p, Ordered, AlternativesOrdered, SequenceOrdered, Piece.Ordered, Repetition.Ordered, Piece.at_,
      Piece.anyRun, Piece.literal, Repetition.once, Repetition.any]
  · intro chars r hmem
    have hsets : chars = ⟨[.range 'b' 'd', .char ']'], true⟩ ∨ chars = .ofClass .any := by
      simp only [p, Piece.at_, Piece.anyRun, Piece.literal, leaves, alternativesLeaves, sequenceLeaves, Piece.leaves,
        List.append_nil, List.cons_append, List.nil_append, List.mem_cons, List.not_mem_nil, Piece.set.injEq,
        reduceCtorEq, or_false, false_or] at hmem
      rcases hmem with ⟨rfl, -⟩ | ⟨rfl, -⟩ | ⟨rfl, -⟩ <;> simp
    rcases hsets with rfl | rfl <;> simp [CharSet.ofClass]

/-- The end of a range is written with an escape that is not read there. -/
theorem exists_toRegex_unreadable :
    ∃ p, ofRegex "[!-\\]" = .ok p ∧ p.Ordered ∧ p.toRegex = "[!-\\\\]" ∧ ∀ q, ofRegex p.toRegex ≠ .ok q := by
  have hclass : class? "!-\\]".toList = some (⟨[.range '!' '\\'], false⟩, []) := by decide +kernel
  refine ⟨⟨[[.set ⟨[.range '!' '\\'], false⟩ .once]]⟩, ?_, ?_, rfl, fun q hq => ?_⟩
  · refine Eq.trans (congrArg (Except.map simplify) (readRegex_set hclass)) ?_
    exact congrArg (Except.map simplify) (readRegex.eq_def ..)
  · exact ⟨⟨Repetition.ordered_of_isOnce rfl, trivial⟩, trivial⟩
  · have hclass' : class? "!-\\\\]".toList = none := by decide +kernel
    cases (congrArg (Except.map simplify) (readRegex_unterminated hclass')).symm.trans hq

end Pattern
end ItemQuery
