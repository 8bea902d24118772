import ItemQuery.Proofs.Pattern.RegexText

/-! Translation into a bracket syntax. A pattern that was read, from a wildcard text or a regular expression, leaves out
    none of its anchors, so that an open end is a run in the written text and an anchored one is not; with sets that
    can be spelled, the written text matches what the pattern matches. -/

namespace ItemQuery

/-! ### Anchors -/

theorem mem_sequenceLeaves {x : Piece} {ps : List Piece} : x ∈ sequenceLeaves ps ↔ ∃ p ∈ ps, x ∈ p.leaves := by
  induction ps with
  | nil => simp [sequenceLeaves]
  | cons p ps ih => simp [sequenceLeaves, ih]

theorem mem_alternativesLeaves {x : Piece} {pss : List (List Piece)} :
    x ∈ alternativesLeaves pss ↔ ∃ ps ∈ pss, x ∈ sequenceLeaves ps := by
  induction pss with
  | nil => simp [alternativesLeaves]
  | cons ps pss ih => simp [alternativesLeaves, ih]

/-- The anchor may not be left out. -/
def Repetition.Holds (r : Repetition) : Prop :=
  r.least ≠ 0 ∧ r.Ordered

theorem Repetition.holds_once : once.Holds :=
  ⟨by decide, ordered_of_isOnce rfl⟩

/-- None of the anchors among some pieces may be left out. -/
def Fixed (ps : List Piece) : Prop :=
  ∀ place r, .anchor place r ∈ ps → r.Holds

theorem fixed_sequence {ps : List Piece} : Fixed (sequenceLeaves ps) ↔ ∀ p ∈ ps, Fixed p.leaves := by
  constructor
  · intro h p hp place r hmem
    exact h place r (mem_sequenceLeaves.mpr ⟨p, hp, hmem⟩)
  · intro h place r hmem
    obtain ⟨p, hp, hmem⟩ := mem_sequenceLeaves.mp hmem
    exact h p hp place r hmem

theorem fixed_alternatives {pss : List (List Piece)} :
    Fixed (alternativesLeaves pss) ↔ ∀ ps ∈ pss, Fixed (sequenceLeaves ps) := by
  constructor
  · intro h ps hps place r hmem
    exact h place r (mem_alternativesLeaves.mpr ⟨ps, hps, hmem⟩)
  · intro h place r hmem
    obtain ⟨ps, hps, hmem⟩ := mem_alternativesLeaves.mp hmem
    exact h ps hps place r hmem

/-- A piece that may not be left out if it is an anchor. -/
def FixedPiece : Piece → Prop
  | .anchor _ r => r.Holds
  | _ => True

theorem fixed_iff_everywhere {pss : List (List Piece)} :
    Fixed (alternativesLeaves pss) ↔ AlternativesEverywhere FixedPiece pss := by
  rw [alternativesEverywhere_iff_leaves fun _ _ => trivial]
  constructor
  · intro h x hx
    cases x with
    | anchor place r => exact h place r hx
    | set | text | group => trivial
  · exact fun h place r hx => h _ hx

theorem lasting_fixedPiece : Lasting FixedPiece where
  char _ _ := trivial
  append _ _ := trivial
  withCount {p} r hp _ := by
    cases p with
    | anchor place q => exact absurd rfl (hp place q)
    | set | text | group => trivial
  group _ _ := trivial

/-! ### Patterns that are read -/

namespace Pattern

/-- A pattern with at least one alternative, none of whose anchors may be left out. -/
structure Sound (p : Pattern) : Prop where
  ne_nil : p.alternatives ≠ []
  fixed : Fixed p.leaves

theorem Sound.simplify {p : Pattern} (h : p.Sound) : p.simplify.Sound where
  ne_nil := by
    obtain ⟨alternatives⟩ := p
    cases alternatives with
    | nil => exact absurd rfl h.ne_nil
    | cons ps pss => simp [Pattern.simplify, Piece.simplifiedAlternatives]
  fixed := by
    have hfixed := fixed_iff_everywhere.mp h.fixed
    exact fixed_iff_everywhere.mpr (lasting_fixedPiece.everywhere_simplifiedAlternatives p.alternatives hfixed)

theorem sound_of_ofRegex {value : String} {p : Pattern} (h : ofRegex value = .ok p) : p.Sound := by
  have hatom : ∀ p : Piece, (∀ place q, p = .anchor place q → q = .once) → FixedPiece p := by
    intro p hp
    cases p with
    | anchor place r => exact hp place r rfl ▸ Repetition.holds_once
    | set | text | group => trivial
  obtain ⟨hne, hfixed⟩ := everywhere_of_ofRegex lasting_fixedPiece (fun _ r => hatom _) (fun _ => trivial) h
  exact ⟨hne, fixed_iff_everywhere.mpr hfixed⟩

theorem fixed_of_wildcardPieces {s : WildcardSyntax} {position : Nat} {cs : List Char} {ps : List Piece}
    (h : wildcardPieces s position cs = .ok ps) : Fixed (sequenceLeaves ps) := by
  have hcons : ∀ {r : Result (List Piece)} {p : Piece} {ps : List Piece}, r.map (p :: ·) = .ok ps →
      (∀ qs, r = .ok qs → Fixed (sequenceLeaves qs)) → Fixed p.leaves → Fixed (sequenceLeaves ps) := by
    intro r p ps hr hrest hp
    obtain ⟨qs, hqs, rfl⟩ := Result.map_eq_ok.mp hr
    rw [fixed_sequence]
    simp only [List.mem_cons, forall_eq_or_imp]
    exact ⟨hp, fixed_sequence.mp (hrest qs hqs)⟩
  fun_induction wildcardPieces s position cs generalizing ps with
  | case1 | case3 =>
    cases h
    simp [sequenceLeaves, Piece.literal, Piece.leaves, Fixed]
  | case8 => cases h
  | case2 _ _ _ _ _ ih | case4 _ _ _ _ _ ih | case5 _ _ _ _ _ _ ih | case6 _ _ _ _ _ _ _ ih
  | case7 _ _ _ _ _ _ _ _ _ _ _ ih | case9 _ _ _ _ _ _ _ _ ih =>
    exact hcons h (fun qs hqs => ih hqs) (by simp [Piece.literal, Piece.anyRun, Piece.anyChar, Piece.leaves, Fixed])

theorem sound_of_ofWildcard {s : WildcardSyntax} {value : String} {p : Pattern} (h : ofWildcard s value = .ok p) :
    p.Sound := by
  obtain ⟨raw, hraw, rfl⟩ := Result.map_eq_ok.mp h
  obtain ⟨ps, hps, rfl⟩ := Result.map_eq_ok.mp hraw
  refine Sound.simplify ⟨by simp [ofSequence], ?_⟩
  have hbody := fixed_sequence.mp (fixed_of_wildcardPieces hps)
  have hat : ∀ place, Fixed (Piece.at_ place).leaves := by
    intro place place' r hmem
    cases List.mem_singleton.mp hmem
    exact Repetition.holds_once
  simp only [leaves, ofSequence, alternativesLeaves, List.append_nil, fixed_sequence]
  intro p hp
  rcases List.mem_cons.mp hp with rfl | hp
  · exact hat .start
  rcases List.mem_append.mp hp with hp | hp
  · exact hbody p hp
  · rw [List.mem_singleton.mp hp]
    exact hat .finish

/-! ### Ends -/

/-- Whether a run is needed in front of these pieces, which are anchored or not. -/
def leads (anchored : Bool) (ps : List Piece) : Bool :=
  !anchored && !ps.head?.any (·.isAnyRun)

/-- Whether a run is needed behind these pieces. -/
def trails (anchored : Bool) (ps : List Piece) : Bool :=
  !anchored && !ps.getLast?.any (·.isAnyRun)

theorem span_of_isAnyRun {p : Piece} (h : p.isAnyRun = true) (s : List Char) : p.span s = Piece.anyRun.span s := by
  cases p with
  | anchor | text | group => cases h
  | set chars r =>
    simp only [Piece.isAnyRun, Repetition.isAny, Bool.and_eq_true, beq_iff_eq] at h
    obtain ⟨hchars, hleast, hmost⟩ := h
    obtain ⟨least, most, greedy⟩ := r
    subst hleast hmost
    rw [CharSet.eq_of_isClass hchars]
    rfl

theorem span_at {s : List Char} {place : Anchor} {i j : Nat} : (Piece.at_ place).span s i j ↔ i = j ∧ place.holds s i := by
  rw [Piece.at_, Piece.span, Piece.count, Span.repeated_of_isOnce rfl, Piece.once]

/-- An anchor that may not be left out is as good as a single one. -/
theorem span_anchor {s : List Char} {place : Anchor} {r : Repetition} (hr : r.Holds) :
    (Piece.anchor place r).span s = (Piece.at_ place).span s := by
  funext i j
  rw [eq_iff_iff, span_at]
  constructor
  · exact holds_of_span_anchor hr.1
  · rintro ⟨rfl, hplace⟩
    exact span_anchor_of_holds hr.2 hplace

section
variable {s : List Char} {ps : List Piece} {i j : Nat}

/-- A search that starts anywhere unless it is anchored is a match from the start, behind a run where one is needed. -/
theorem exists_from_anchored_iff (anchored : Bool) :
    (∃ i, i ≤ s.length ∧ sequenceSpan s ((if anchored then [Piece.at_ .start] else []) ++ ps) i j) ↔
      sequenceSpan s ((if leads anchored ps then [Piece.anyRun] else []) ++ ps) 0 j := by
  simp only [sequenceSpan_append]
  cases anchored with
  | true =>
    simp only [if_true, leads, Bool.not_true, Bool.false_and, Bool.false_eq_true, if_false, sequenceSpan_singleton,
      sequenceSpan, Span.eq_comp]
    constructor
    · rintro ⟨i, -, k, hk, hps⟩
      obtain ⟨rfl, rfl⟩ := span_at.mp hk
      exact hps
    · intro hps
      exact ⟨0, Nat.zero_le _, 0, span_at.mpr ⟨rfl, rfl⟩, hps⟩
  | false =>
    cases hhead : ps.head?.any (·.isAnyRun) with
    | false =>
      simp only [leads, hhead, Bool.not_false, Bool.and_true, Bool.false_eq_true, if_false, if_true, sequenceSpan,
        Span.eq_comp, Span.comp_eq]
      exact exists_from_iff
    | true =>
      obtain ⟨p, hp, hrun⟩ := (Option.any_eq_true _ _).mp hhead
      obtain ⟨rest, rfl⟩ := List.head?_eq_some_iff.mp hp
      have hspan : sequenceSpan s (p :: rest) = Span.comp (Piece.anyRun.span s) (sequenceSpan s rest) :=
        congrArg (Span.comp · _) (span_of_isAnyRun hrun s)
      simp only [leads, hhead, Bool.not_true, Bool.and_false, Bool.false_eq_true, if_false, hspan]
      rw [sequenceSpan, Span.eq_comp]
      exact exists_from_run_iff

/-- A match that ends anywhere unless it is anchored ends at the end, with a run where one is needed. -/
theorem exists_to_anchored_iff (anchored : Bool) :
    (∃ j, sequenceSpan s (ps ++ if anchored then [Piece.at_ .finish] else []) 0 j) ↔
      sequenceSpan s (ps ++ if trails anchored ps then [Piece.anyRun] else []) 0 s.length := by
  simp only [sequenceSpan_append]
  cases anchored with
  | true =>
    simp only [if_true, trails, Bool.not_true, Bool.false_and, Bool.false_eq_true, if_false, sequenceSpan_singleton,
      sequenceSpan, Span.comp_eq]
    constructor
    · rintro ⟨j, k, hps, hk⟩
      obtain ⟨rfl, rfl⟩ := span_at.mp hk
      exact hps
    · intro hps
      exact ⟨s.length, s.length, hps, span_at.mpr ⟨rfl, rfl⟩⟩
  | false =>
    cases hlast : ps.getLast?.any (·.isAnyRun) with
    | false =>
      simp only [trails, hlast, Bool.not_false, Bool.and_true, Bool.false_eq_true, if_false, if_true, sequenceSpan,
        Span.comp_eq]
      exact exists_to_iff (inside_sequenceSpan s ps)
    | true =>
      obtain ⟨p, hp, hrun⟩ := (Option.any_eq_true _ _).mp hlast
      obtain ⟨rest, rfl⟩ := List.getLast?_eq_some_iff.mp hp
      have hspan : sequenceSpan s (rest ++ [p]) = Span.comp (sequenceSpan s rest) (Piece.anyRun.span s) := by
        rw [sequenceSpan_append, sequenceSpan_singleton, span_of_isAnyRun hrun]
      simp only [trails, hlast, Bool.not_true, Bool.and_false, Bool.false_eq_true, if_false, hspan]
      rw [sequenceSpan, Span.comp_eq]
      exact exists_to_run_iff (inside_sequenceSpan s rest)

/-- A sequence that leads where one between optional anchors leads is found where the latter, with runs for the missing
    anchors, leads from the start to the end. -/
theorem finds_ends_iff {first last : Bool} {pieces body : List Piece} {p : Pattern} (hp : p.alternatives = [pieces])
    {s : List Char} (h : sequenceSpan s pieces = sequenceSpan s
      ((if first then [Piece.at_ .start] else []) ++ (body ++ if last then [Piece.at_ .finish] else []))) :
    let front := if leads first body then [Piece.anyRun] else []
    p.Finds s ↔
      sequenceSpan s ((front ++ body) ++ if trails last (front ++ body) then [Piece.anyRun] else []) 0 s.length := by
  -- The anchor at the end is no run, so it does not matter whether it is there.
  have hleads : leads first (body ++ if last then [Piece.at_ .finish] else []) = leads first body := by
    cases body with
    | nil => cases last <;> rfl
    | cons => rfl
  simp only [Pattern.Finds, hp, alternativesSpan, or_false, h]
  rw [exists_comm]
  simp only [exists_from_anchored_iff, hleads]
  simp only [← List.append_assoc]
  exact exists_to_anchored_iff last

end

section
variable {s : List Char} {q : Piece → Bool} {X : Span} {ps rest : List Piece} {found : Bool}

/-- A piece that is taken off the start leads where all pieces of its kind lead. -/
theorem sequenceSpan_dropFirst (hX : ∀ p ∈ ps, q p = true → p.span s = X) (h : dropFirst q ps = (found, rest)) :
    sequenceSpan s ps = Span.comp (if found then X else Eq) (sequenceSpan s rest) ∧ rest.Sublist ps := by
  cases ps with
  | nil =>
    cases h
    exact ⟨(Span.eq_comp _).symm, .refl _⟩
  | cons p ps =>
    rw [dropFirst] at h
    split at h
    next hq =>
      cases h
      exact ⟨congrArg (Span.comp · _) (hX p List.mem_cons_self hq), List.sublist_cons_self _ _⟩
    next =>
      cases h
      exact ⟨(Span.eq_comp _).symm, .refl _⟩

theorem sequenceSpan_dropLast (hX : ∀ p ∈ ps, q p = true → p.span s = X) (h : dropLast q ps = (found, rest)) :
    sequenceSpan s ps = Span.comp (sequenceSpan s rest) (if found then X else Eq) ∧ rest.Sublist ps := by
  rw [dropLast] at h
  cases hreverse : ps.reverse with
  | nil =>
    rw [hreverse] at h
    cases h
    rw [List.reverse_eq_nil_iff.mp hreverse]
    exact ⟨(Span.comp_eq _).symm, .refl _⟩
  | cons p qs =>
    have hps : ps = qs.reverse ++ [p] := by
      rw [← List.reverse_reverse ps, hreverse, List.reverse_cons]
    rw [hreverse, dropFirst] at h
    cases hq : q p with
    | true =>
      rw [hq] at h
      cases h
      rw [hps, sequenceSpan_append, sequenceSpan_singleton, hX p (by simp [hps]) hq]
      exact ⟨rfl, List.sublist_append_left _ _⟩
    | false =>
      rw [hq] at h
      cases h
      rw [← hreverse, List.reverse_reverse]
      exact ⟨(Span.comp_eq _).symm, .refl _⟩

end

theorem Sound.span_of_isAnchor {p : Pattern} (h : p.Sound) {ps : List Piece} (hp : p.alternatives = [ps])
    {s : List Char} {place : Anchor} {x : Piece} (hx : x ∈ ps) (hplace : x.isAnchor place = true) :
    x.span s = (Piece.at_ place).span s := by
  obtain ⟨r, rfl⟩ := eq_anchor_of_isAnchor hplace
  refine span_anchor (h.fixed place r ?_)
  rw [leaves, hp, mem_alternativesLeaves]
  exact ⟨ps, List.mem_singleton_self _, mem_sequenceLeaves.mpr ⟨_, hx, List.mem_singleton_self _⟩⟩

/-! ### Translation -/

section
variable {S : WildcardSyntax} {p : Pattern} {shown : String}

/-- A run in front of nothing is a run at the end too. -/
theorem trails_front (lead last : Bool) (body : List Piece) :
    trails last ((if lead then [Piece.anyRun] else []) ++ body) =
      (!last && !body.getLast?.any (·.isAnyRun) && !(lead && body.isEmpty)) := by
  have hrun : Piece.anyRun.isAnyRun = true := rfl
  cases lead with
  | false => simp [trails]
  | true =>
    cases body with
    | nil => simp [trails, hrun]
    | cons p ps => simp [trails, List.getLast?_cons]

/-- What is written: the pieces between the anchors, and a run for each anchor that is missing. -/
theorem exists_of_toWildcard (hp : p.Sound) (h : toWildcard S p = .ok shown) :
    ∃ run pieces body text first last, S.anyRun.head? = some run ∧ sequenceText S run body = .ok text ∧
      p.alternatives = [pieces] ∧ body.Sublist pieces ∧
      (∀ s, sequenceSpan s pieces = sequenceSpan s
        ((if first then [Piece.at_ .start] else []) ++ (body ++ if last then [Piece.at_ .finish] else []))) ∧
      shown.toList = (if leads first body then [run] else []) ++ text ++
        if trails last ((if leads first body then [Piece.anyRun] else []) ++ body) then [run] else [] := by
  have hpieces : ∃ pieces run more, p.alternatives = [pieces] ∧ S.anyRun = run :: more := by
    unfold toWildcard at h
    split at h
    next hnil => exact absurd hnil hp.ne_nil
    next => cases h
    next => cases h
    next pieces run more hpieces hmore => exact ⟨pieces, run, more, hpieces, hmore⟩
  obtain ⟨pieces, run, more, hpieces, hmore⟩ := hpieces
  obtain ⟨first, rest, hfirst⟩ : ∃ b rest, dropFirst (·.isAnchor .start) pieces = (b, rest) := ⟨_, _, rfl⟩
  obtain ⟨last, body, hlast⟩ : ∃ b rest', dropLast (·.isAnchor .finish) rest = (b, rest') := ⟨_, _, rfl⟩
  simp only [toWildcard, hpieces, hmore, hfirst, hlast] at h
  obtain ⟨text, htext, h⟩ := Result.bind_eq_ok.mp h
  have hshown := Result.pure_eq_ok.mp h
  have hopened : ∀ {s : List Char} {place : Anchor} (b : Bool),
      sequenceSpan s (if b then [Piece.at_ place] else []) = if b then (Piece.at_ place).span s else Eq := by
    rintro s place (_ | _)
    · rfl
    · exact sequenceSpan_singleton _
  have hsub := (sequenceSpan_dropFirst (s := []) (fun x hx => hp.span_of_isAnchor hpieces hx) hfirst).2
  refine ⟨run, pieces, body, text, first, last, by rw [hmore]; rfl, htext, hpieces, ?_, fun s => ?_, ?_⟩
  · exact (sequenceSpan_dropLast (s := []) (fun x hx => hp.span_of_isAnchor hpieces (hsub.mem hx)) hlast).2.trans hsub
  · rw [(sequenceSpan_dropFirst (fun x hx => hp.span_of_isAnchor hpieces hx) hfirst).1,
      (sequenceSpan_dropLast (fun x hx => hp.span_of_isAnchor hpieces (hsub.mem hx)) hlast).1]
    simp only [sequenceSpan_append, hopened]
  · rw [← hshown, String.toList_ofList, trails_front]
    rfl

/-- A text that was read is found where its pieces lead from the start to the end. -/
theorem exists_ofWildcard_of_spells {ps : List Piece} (h : Spells S shown.toList ps) (hps : SequenceOrdered ps) :
    ∃ q, ofWildcard S shown = .ok q ∧ ∀ s, q.Finds s ↔ sequenceSpan s ps 0 s.length := by
  have hat : ∀ place, (Piece.at_ place).Ordered := fun _ => Repetition.ordered_of_isOnce rfl
  have hordered : (ofSequence (.at_ .start :: (ps ++ [.at_ .finish]))).Ordered :=
    ⟨⟨hat .start, sequenceOrdered_append.mpr ⟨hps, hat .finish, trivial⟩⟩, trivial⟩
  refine ⟨_, ofWildcard_of_wildcardPieces h.wildcardPieces, fun s => ?_⟩
  have hfinds := @finds_ends_iff true true _ ps (ofSequence (.at_ .start :: (ps ++ [.at_ .finish]))) rfl s rfl
  simp only [leads, trails, Bool.not_true, Bool.false_and, Bool.false_eq_true, if_false, List.nil_append,
    List.append_nil] at hfinds
  exact (finds_simplify hordered s).trans hfinds

/-- What is written is read as a pattern that is found in the same texts, if the sets can be spelled. -/
theorem exists_ofWildcard_finds (hs : Clear S) (hp : p.Sound) (hsets : Exact S p.leaves)
    (h : toWildcard S p = .ok shown) :
    ∃ q, ofWildcard S shown = .ok q ∧ ∀ s, q.Finds s ↔ p.Finds s := by
  obtain ⟨run, pieces, body, text, first, last, hrun, htext, hpieces, hsub, hends, hshown⟩ := exists_of_toWildcard hp h
  have hbody : Exact S (sequenceLeaves body) := by
    refine hsets.mono fun x hmem => ?_
    obtain ⟨q, hq, hmem⟩ := mem_sequenceLeaves.mp hmem
    rw [leaves, hpieces, mem_alternativesLeaves]
    exact ⟨pieces, List.mem_singleton_self _, mem_sequenceLeaves.mpr ⟨q, hsub.mem hq, hmem⟩⟩
  have hopened : ∀ b : Bool, Renders S (if b then [run] else []) fun s => sequenceSpan s (if b then [Piece.anyRun] else [])
    | true => by simpa only [if_true, sequenceSpan_singleton] using renders_run hs hrun
    | false => renders_nil S
  obtain ⟨ps, hspells, hordered, hspan⟩ := ((hopened (leads first body)).append
    (renders_sequenceText hs hrun body hbody htext)).append
    (hopened (trails last ((if leads first body then [Piece.anyRun] else []) ++ body)))
  rw [← hshown] at hspells
  obtain ⟨q, hq, hfinds⟩ := exists_ofWildcard_of_spells hspells hordered
  refine ⟨q, hq, fun s => ?_⟩
  have hsame := finds_ends_iff hpieces (hends s)
  simp only [sequenceSpan_append] at hsame
  rw [hfinds, hspan, hsame]

end

/-- The pattern was read, as a wildcard text or as a regular expression. -/
def IsRead (p : Pattern) : Prop :=
  (∃ s ∈ syntaxes, ∃ value, ofWildcard s value = .ok p) ∨ ∃ value, ofRegex value = .ok p

theorem IsRead.sound {p : Pattern} (h : p.IsRead) : p.Sound := by
  rcases h with ⟨s, -, value, h⟩ | ⟨value, h⟩
  · exact sound_of_ofWildcard h
  · exact sound_of_ofRegex h

/-- A pattern that was read, in whatever syntax, is found in the same texts after its translation into a syntax with
    brackets, if each of its sets can be spelled there. -/
theorem exists_ofWildcard_toWildcard {S : WildcardSyntax} (hS : S ∈ [.sqlServer, .aml, .visualBasic]) {p : Pattern}
    (hp : p.IsRead) (hsets : Spellable S p.leaves) {shown : String} (h : toWildcard S p = .ok shown) :
    ∃ q, ofWildcard S shown = .ok q ∧ ∀ s, q.Finds s ↔ p.Finds s := by
  simp only [List.mem_cons, List.not_mem_nil, or_false] at hS
  rcases hS with rfl | rfl | rfl
  · exact exists_ofWildcard_finds clear_sqlServer hp.sound (.inl ⟨rfl, hsets⟩) h
  · exact exists_ofWildcard_finds clear_aml hp.sound (.inl ⟨rfl, hsets⟩) h
  · exact exists_ofWildcard_finds clear_visualBasic hp.sound (.inl ⟨rfl, hsets⟩) h

/-- An open start becomes a run, digits their sign, a class is spelled out behind the sign for its negation, and the
    characters that are required are written before the run. -/
theorem exists_ofWildcard_toWildcard_digits :
    let p : Pattern := ⟨[[.set (.ofClass .digit) ⟨2, some 2, true⟩, .set ⟨[.cls .word], true⟩ .once,
      .set (.ofClass .any) ⟨2, none, true⟩, .at_ .finish]]⟩
    ofRegex "\\d{2}\\W..+$" = .ok p ∧ toWildcard .visualBasic p = .ok "*##[!a-zA-Z0-9_]??*" ∧
      ∃ q, ofWildcard .visualBasic "*##[!a-zA-Z0-9_]??*" = .ok q ∧ ∀ s, q.Finds s ↔ p.Finds s := by
  intro p
  have hraw : ofRegexRaw "\\d{2}\\W..+$" = .ok ⟨[[.set (.ofClass .digit) ⟨2, some 2, true⟩,
      .set ⟨[.cls .word], true⟩ .once, .anyChar, .set (.ofClass .any) ⟨1, none, true⟩, .at_ .finish]]⟩ := by
    iterate 5 refine (readRegex_atom (by decide) (fun _ => rfl) (by rintro _ _ ⟨⟩ <;> rfl)).trans ?_
    exact readRegex.eq_def ..
  have hp : ofRegex "\\d{2}\\W..+$" = .ok p := by
    rw [ofRegex, hraw]
    rfl
  have hshown : toWildcard .visualBasic p = .ok "*##[!a-zA-Z0-9_]??*" := by rfl
  refine ⟨hp, hshown, exists_ofWildcard_toWildcard (by decide) (.inr ⟨_, hp⟩) ?_ hshown⟩
  intro chars r hmem
  have hsets : (chars = .ofClass .digit ∨ chars = ⟨[.cls .word], true⟩) ∨ chars = .ofClass .any := by
    simp only [p, Piece.at_, leaves, alternativesLeaves, sequenceLeaves, Piece.leaves, List.append_nil,
      List.cons_append, List.nil_append, List.mem_cons, List.not_mem_nil, Piece.set.injEq, reduceCtorEq, or_false,
      or_assoc] at hmem ⊢
    exact hmem.imp And.left (Or.imp And.left And.left)
  rcases hsets with (rfl | rfl) | rfl <;> decide

/-- A set between anchors is found in the texts of one character that it holds. -/
theorem finds_set_iff {p : Pattern} {chars : CharSet}
    (h : p.alternatives = [[.at_ .start, .set chars .once, .at_ .finish]]) (c : Char) :
    p.Finds [c] ↔ chars.holds c = true := by
  have hspan := @finds_ends_iff true true _ [.set chars .once] p h [c] rfl
  simp only [leads, trails, Bool.not_true, Bool.false_and, Bool.false_eq_true, if_false, List.nil_append,
    List.append_nil, sequenceSpan_singleton, Piece.span, Piece.count] at hspan
  rw [hspan, Span.repeated_of_isOnce rfl]
  simp [Piece.once]

/-- A set that starts with the negation of the other syntax is read as its complement. -/
theorem exists_toWildcard_negation : ∃ p q, ofWildcard .visualBasic "[^a]" = .ok p ∧ p.Ordered ∧
    toWildcard .sqlServer p = .ok "[^a]" ∧ ofWildcard .sqlServer "[^a]" = .ok q ∧ p.Finds ['a'] ∧ ¬q.Finds ['a'] := by
  have honce : Repetition.once.Ordered := Repetition.ordered_of_isOnce rfl
  have hread : wildcardPieces .visualBasic 0 "[^a]".toList =
      .ok [.set ⟨[.char '^', .char 'a'], false⟩ .once] := by
    simp [wildcardPieces, WildcardSyntax.visualBasic, set?, setItems?, Except.map]
  have hagain : wildcardPieces .sqlServer 0 "[^a]".toList = .ok [.set ⟨[.char 'a'], true⟩ .once] := by
    simp [wildcardPieces, WildcardSyntax.sqlServer, set?, setItems?, Except.map]
  refine ⟨⟨[[.at_ .start, .set ⟨[.char '^', .char 'a'], false⟩ .once, .at_ .finish]]⟩,
    ⟨[[.at_ .start, .set ⟨[.char 'a'], true⟩ .once, .at_ .finish]]⟩, ofWildcard_of_wildcardPieces hread, ?_, rfl,
    ofWildcard_of_wildcardPieces hagain, ?_, ?_⟩
  · exact ⟨⟨honce, honce, honce, trivial⟩, trivial⟩
  · rw [finds_set_iff rfl]
    decide
  · rw [finds_set_iff rfl]
    decide

end Pattern

end ItemQuery
