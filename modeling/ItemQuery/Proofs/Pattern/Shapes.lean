import Mathlib.Data.List.Infix
import ItemQuery.Proofs.Pattern.RegexRendering

/-! Patterns that are string tests. Taking the anchors and the runs off both ends of a pattern leaves a literal text; an
    end is open if a run stood there or no anchor did. -/

namespace ItemQuery

/-! ### Ends -/

namespace Span

/-- What stands before the text of a string test. -/
def lead (s : List Char) (anchored run : Bool) : Span :=
  comp (if anchored then (Piece.at_ .start).span s else Eq) (if run then Piece.anyRun.span s else Eq)

/-- What stands behind the text of a string test. -/
def trail (s : List Char) (run anchored : Bool) : Span :=
  comp (if run then Piece.anyRun.span s else Eq) (if anchored then (Piece.at_ .finish).span s else Eq)

theorem exists_lead_iff {s : List Char} {anchored run : Bool} {k : Nat} :
    (∃ i, i ≤ s.length ∧ lead s anchored run i k) ↔ k ≤ s.length ∧ ((run || !anchored) = false → k = 0) := by
  have hstart : ∀ i j, (Piece.at_ .start).span s i j ↔ i = j ∧ i = 0 := fun i j => Pattern.span_at
  cases anchored with
  | false =>
    simp only [lead, Bool.false_eq_true, if_false, eq_comp, Bool.not_false, Bool.or_true, Bool.true_eq_false, false_imp_iff,
      and_true]
    cases run with
    | false => simp
    | true =>
      simp only [if_true, span_anyRun]
      constructor
      · rintro ⟨i, hi, hik, hk⟩
        omega
      · intro hk
        exact ⟨k, hk, Nat.le_refl k, fun hlt => absurd hlt (Nat.lt_irrefl k)⟩
  | true =>
    simp only [lead, if_true, comp, hstart, Bool.not_true, Bool.or_false]
    cases run with
    | false =>
      simp only [Bool.false_eq_true, if_false, true_imp_iff]
      constructor
      · rintro ⟨_, hi, _, ⟨rfl, rfl⟩, rfl⟩
        exact ⟨hi, rfl⟩
      · rintro ⟨hk, rfl⟩
        exact ⟨0, hk, 0, ⟨rfl, rfl⟩, rfl⟩
    | true =>
      simp only [if_true, span_anyRun, Bool.true_eq_false, false_imp_iff, and_true]
      constructor
      · rintro ⟨i, hi, _, ⟨rfl, rfl⟩, -, hk⟩
        omega
      · intro hk
        exact ⟨0, Nat.zero_le _, 0, ⟨rfl, rfl⟩, Nat.zero_le k, fun _ => hk⟩

theorem exists_trail_iff {s : List Char} {run anchored : Bool} {l : Nat} (hl : l ≤ s.length) :
    (∃ j, trail s run anchored l j) ↔ ((run || !anchored) = false → l = s.length) := by
  have hfinish : ∀ i j, (Piece.at_ .finish).span s i j ↔ i = j ∧ i = s.length := fun i j => Pattern.span_at
  cases run with
  | true =>
    simp only [Bool.true_or, Bool.true_eq_false, false_imp_iff, iff_true]
    have hrun : Piece.anyRun.span s l s.length := span_anyRun.mpr ⟨hl, fun _ => Nat.le_refl _⟩
    refine ⟨s.length, s.length, hrun, ?_⟩
    cases anchored with
    | false => rfl
    | true => exact (hfinish _ _).mpr ⟨rfl, rfl⟩
  | false =>
    cases anchored with
    | false => simp [trail]
    | true =>
      simp only [trail, Bool.false_eq_true, if_false, if_true, eq_comp, hfinish, Bool.or_self, Bool.not_true, true_imp_iff]
      constructor
      · rintro ⟨_, -, hl⟩
        exact hl
      · intro hl
        exact ⟨l, rfl, hl⟩

end Span

namespace Pattern

/-! ### String tests -/

/-- What a test of this shape asks of a text. -/
def Shaped (part s : List Char) : LikeShape → Prop
  | .equals => part = s
  | .startsWith => part <+: s
  | .endsWith => part <:+ s
  | .contains => part <:+: s

instance (part s : List Char) : DecidablePred (Shaped part s)
  | .equals => inferInstanceAs (Decidable (part = s))
  | .startsWith => inferInstanceAs (Decidable (part <+: s))
  | .endsWith => inferInstanceAs (Decidable (part <:+ s))
  | .contains => inferInstanceAs (Decidable (part <:+: s))

/-- The shape of a test whose ends are open or not. -/
def endsShape (openStart openEnd : Bool) : LikeShape :=
  if openStart then (if openEnd then .contains else .endsWith) else (if openEnd then .startsWith else .equals)

/-- A part stands somewhere in a text, at the start and the end of it where these are not open. -/
theorem shaped_endsShape {part s : List Char} {openStart openEnd : Bool} :
    Shaped part s (endsShape openStart openEnd) ↔ ∃ i j, i ≤ s.length ∧ (j = i + part.length ∧ part <+: s.drop i) ∧
      (openStart = false → i = 0) ∧ (openEnd = false → j = s.length) := by
  constructor
  · -- The part as it stands in the text.
    have hstands : ∀ front back, s = front ++ (part ++ back) → (openStart = false → front = []) →
        (openEnd = false → back = []) →
        ∃ i j, i ≤ s.length ∧ (j = i + part.length ∧ part <+: s.drop i) ∧
          (openStart = false → i = 0) ∧ (openEnd = false → j = s.length) := by
      rintro front back rfl hfront hback
      refine ⟨front.length, _, by simp, ⟨rfl, by simp⟩, fun h => by simp [hfront h], fun h => by simp [hback h]⟩
    intro h
    cases openStart <;> cases openEnd <;> simp only [endsShape, Shaped, if_true, Bool.false_eq_true, if_false] at h
    · exact hstands [] [] (by simpa using h.symm) (fun _ => rfl) fun _ => rfl
    · obtain ⟨back, rfl⟩ := h
      exact hstands [] back rfl (fun _ => rfl) nofun
    · obtain ⟨front, rfl⟩ := h
      exact hstands front [] (by simp) nofun fun _ => rfl
    · obtain ⟨front, back, rfl⟩ := h
      exact hstands front back (by simp) nofun nofun
  · rintro ⟨i, j, hi, ⟨rfl, back, hback⟩, hstart, hend⟩
    have hs : s = s.take i ++ (part ++ back) := by rw [hback, List.take_append_drop]
    have hnil : openEnd = false → back = [] := by
      intro hopen
      have hlength := congrArg List.length hs
      rw [List.length_append, List.length_append, List.length_take, Nat.min_eq_left hi, ← hend hopen] at hlength
      exact List.length_eq_zero_iff.mp (by omega)
    cases openStart <;> cases openEnd <;> simp only [endsShape, Shaped, if_true, Bool.false_eq_true, if_false]
    · rw [hstart rfl, hnil rfl] at hs
      simpa using hs.symm
    · rw [hstart rfl] at hs
      exact ⟨back, by simpa using hs.symm⟩
    · rw [hnil rfl] at hs
      exact ⟨s.take i, by simpa using hs.symm⟩
    · exact ⟨s.take i, back, by rw [List.append_assoc]; exact hs.symm⟩

/-- A literal text between such ends is found where the test holds. -/
theorem finds_of_ends {p : Pattern} {ps : List Piece} (hp : p.alternatives = [ps]) (anchored run run' anchored' : Bool)
    (value : String) {s : List Char} (hps : sequenceSpan s ps = Span.comp (Span.lead s anchored run)
      (Span.comp ((Piece.text value .once).once s) (Span.trail s run' anchored'))) :
    p.Finds s ↔ Shaped value.toList s (endsShape (run || !anchored) (run' || !anchored')) := by
  have hinside := inside_once s (Piece.text value .once)
  rw [shaped_endsShape]
  simp only [Finds, hp, alternativesSpan, or_false, hps]
  constructor
  · rintro ⟨i, j, hi, k, hlead, l, htext, htrail⟩
    obtain ⟨hk, hstart⟩ := Span.exists_lead_iff.mp ⟨i, hi, hlead⟩
    have hend := (Span.exists_trail_iff (hinside k l hk htext)).mp ⟨j, htrail⟩
    exact ⟨k, l, hk, htext, hstart, hend⟩
  · rintro ⟨k, l, hk, htext, hstart, hend⟩
    obtain ⟨i, hi, hlead⟩ := Span.exists_lead_iff.mpr ⟨hk, hstart⟩
    obtain ⟨j, htrail⟩ := (Span.exists_trail_iff (hinside k l hk htext)).mpr hend
    exact ⟨i, j, hi, k, hlead, l, htext, htrail⟩

theorem sequenceSpan_textPieces (value : String) (s : List Char) :
    sequenceSpan s (textPieces value) = (Piece.text value .once).once s := by
  unfold textPieces
  split
  next hempty =>
    rw [String.isEmpty_iff.mp hempty]
    funext i j
    simp [sequenceSpan, Piece.once, eq_comm]
  next => rw [sequenceSpan_singleton, span_literal]

/-- The pattern of a string test is found where the test holds. -/
theorem finds_ofShape (shape : LikeShape) (value : String) (s : List Char) :
    (ofShape shape value).Finds s ↔ Shaped value.toList s shape := by
  have hnil : sequenceSpan s [] = Eq := rfl
  have hrun : ∀ run : Bool, sequenceSpan s (if run then [Piece.anyRun] else []) =
      if run then Piece.anyRun.span s else Eq := by
    intro run
    cases run with
    | false => rfl
    | true => exact sequenceSpan_singleton _
  have hends := finds_of_ends (p := ofShape shape value) rfl true (shape == .endsWith || shape == .contains)
    (shape == .startsWith || shape == .contains) true value (s := s) (by
      simp only [sequenceSpan_cons, sequenceSpan_append, sequenceSpan_textPieces, hrun, hnil, Span.comp_eq, Span.lead,
        Span.trail, if_true, Span.comp_assoc])
  rw [hends]
  cases shape <;> rfl

theorem leaves_ofShape (shape : LikeShape) (value : String) {x : Piece} (hx : x ∈ (ofShape shape value).leaves) :
    x = .at_ .start ∨ x = .anyRun ∨ x = .literal value ∨ x = .at_ .finish := by
  cases shape <;> by_cases hempty : value.isEmpty = true <;>
    simp [ofShape, textPieces, hempty, leaves, ofSequence, alternativesLeaves, sequenceLeaves, Piece.leaves, Piece.at_,
      Piece.anyRun, Piece.literal] at hx ⊢ <;> grind

theorem sound_ofShape (shape : LikeShape) (value : String) : (ofShape shape value).Sound where
  ne_nil := List.cons_ne_nil _ _
  fixed := by
    intro place r hmem
    rcases leaves_ofShape shape value hmem with h | h | h | h <;> cases h <;> exact Repetition.holds_once

theorem spellable_ofShape (S : WildcardSyntax) (shape : LikeShape) (value : String) :
    Spellable S (ofShape shape value).leaves := by
  intro chars r hmem
  rcases leaves_ofShape shape value hmem with h | h | h | h <;> cases h
  rfl

/-! ### Patterns that reduce to one -/

/-- No anchor is repeated or left out. -/
def AnchorsOnce (p : Pattern) : Prop :=
  ∀ place r, .anchor place r ∈ p.leaves → r.isOnce = true

section
variable {p : Pattern} {s : List Char}

theorem AnchorsOnce.span_of_isAnchor (h : p.AnchorsOnce) {ps : List Piece} (hp : p.alternatives = [ps]) {place : Anchor}
    {x : Piece} (hx : x ∈ ps) (hplace : x.isAnchor place = true) : x.span s = (Piece.at_ place).span s := by
  obtain ⟨r, rfl⟩ := eq_anchor_of_isAnchor hplace
  have hleaf : Piece.anchor place r ∈ p.leaves := by
    rw [leaves, hp, mem_alternativesLeaves]
    exact ⟨ps, List.mem_singleton_self _, mem_sequenceLeaves.mpr ⟨_, hx, List.mem_singleton_self _⟩⟩
  have honce : r.isOnce = true := h place r hleaf
  rw [Piece.span, Piece.count, Span.repeated_of_isOnce honce, Piece.at_, Piece.span, Piece.count,
    Span.repeated_of_isOnce rfl,
    Piece.once, Piece.once]

/-- A pattern that reduces to a string test is found where the test holds. -/
theorem finds_of_shape? (h : p.AnchorsOnce) {shape : LikeShape} {value : String} (hshape : p.shape? = some (shape, value)) :
    p.Finds s ↔ Shaped value.toList s shape := by
  unfold shape? at hshape
  split at hshape
  next ps hp =>
    have hrun : ∀ {ps : List Piece}, ∀ x ∈ ps, x.isAnyRun = true → x.span s = Piece.anyRun.span s :=
      fun x _ hx => span_of_isAnyRun hx s
    have hanchor : ∀ {rest : List Piece} {place : Anchor}, rest.Sublist ps →
        ∀ x ∈ rest, x.isAnchor place = true → x.span s = (Piece.at_ place).span s :=
      fun hrest x hx => h.span_of_isAnchor hp (hrest.mem hx)
    obtain ⟨anchored, ps₁, hfirst⟩ : ∃ b rest, dropFirst (·.isAnchor .start) ps = (b, rest) := ⟨_, _, rfl⟩
    obtain ⟨anchored', ps₂, hlast⟩ : ∃ b rest, dropLast (·.isAnchor .finish) ps₁ = (b, rest) := ⟨_, _, rfl⟩
    obtain ⟨run, ps₃, hlead⟩ : ∃ b rest, dropFirst (·.isAnyRun) ps₂ = (b, rest) := ⟨_, _, rfl⟩
    obtain ⟨run', body, htrail⟩ : ∃ b rest, dropLast (·.isAnyRun) ps₃ = (b, rest) := ⟨_, _, rfl⟩
    obtain ⟨hspan₁, hsub₁⟩ := sequenceSpan_dropFirst (hanchor (.refl _)) hfirst
    obtain ⟨hspan₂, hsub₂⟩ := sequenceSpan_dropLast (hanchor hsub₁) hlast
    obtain ⟨hspan₃, -⟩ := sequenceSpan_dropFirst hrun hlead
    obtain ⟨hspan₄, -⟩ := sequenceSpan_dropLast hrun htrail
    simp only [hfirst, hlast, hlead, htrail, Option.map_eq_some_iff] at hshape
    obtain ⟨text, htext, heq⟩ := hshape
    cases heq
    have hbody : sequenceSpan s body = (Piece.text value .once).once s := by
      split at htext
      next =>
        cases htext
        exact sequenceSpan_textPieces "" s
      next x => rw [sequenceSpan_singleton, span_of_literal? htext]
      next => cases htext
    refine finds_of_ends hp _ _ _ _ _ ?_
    rw [hspan₁, hspan₂, hspan₃, hspan₄, hbody]
    simp only [Span.lead, Span.trail, Span.comp_assoc]
  next => cases hshape

/-- A pattern without wildcards is found in its text alone. -/
theorem finds_of_literal? (h : p.AnchorsOnce) {value : String} (hvalue : p.literal? = some value) :
    p.Finds s ↔ s = value.toList := by
  obtain ⟨first, last, body, rfl, hbody⟩ := eq_of_literal? hvalue
  rw [finds_of_ends rfl true false false true value]
  · exact eq_comm
  · have hfirst : (Piece.anchor .start first).span s = (Piece.at_ .start).span s :=
      h.span_of_isAnchor rfl List.mem_cons_self rfl
    have hlast : (Piece.anchor .finish last).span s = (Piece.at_ .finish).span s :=
      h.span_of_isAnchor rfl (by simp) rfl
    rw [sequenceSpan_cons, sequenceSpan_append, sequenceSpan_singleton, sequenceSpan_of_literalText? s hbody, hfirst, hlast]
    simp only [Span.lead, Span.trail, if_true, Bool.false_eq_true, if_false, Span.comp_eq, Span.eq_comp]

end

theorem shape?_ofShape {value : String} (hvalue : value ≠ "") (shape : LikeShape) :
    (ofShape shape value).shape? = some (shape, value) := by
  have hempty : value.isEmpty = false := by simpa [String.isEmpty_iff] using hvalue
  have hpieces : textPieces value = [.literal value] := by rw [textPieces, hempty]; rfl
  cases shape <;> rw [ofShape, hpieces] <;> rfl

/-- A pattern that reduces to a string test or to a text is found where the test holds, or in that text alone. The pattern
    of a test reduces to this test again; with an empty text it does so up to the tests that hold of every text. -/
theorem reduces_faithfully :
    (∀ p : Pattern, p.AnchorsOnce →
      (∀ shape value, p.shape? = some (shape, value) → ∀ s, p.Finds s ↔ Shaped value.toList s shape) ∧
        ∀ value, p.literal? = some value → ∀ s, p.Finds s ↔ s = value.toList) ∧
      (∀ shape value, value ≠ "" → (ofShape shape value).shape? = some (shape, value)) ∧
        ∀ shape, ∃ shape' value', (ofShape shape "").shape? = some (shape', value') ∧
          ∀ s, Shaped value'.toList s shape' ↔ Shaped "".toList s shape := by
  refine ⟨fun p hp => ⟨fun shape value h s => finds_of_shape? hp h, fun value h s => finds_of_literal? hp h⟩,
    fun shape value hvalue => shape?_ofShape hvalue shape, fun shape => ?_⟩
  have hends : ∀ s : List Char, [] <:+ s ↔ [] <+: s := fun s => ⟨fun _ => List.nil_prefix, fun _ => List.nil_suffix⟩
  cases shape with
  | equals => exact ⟨.equals, "", rfl, fun s => Iff.rfl⟩
  | startsWith => exact ⟨.endsWith, "", rfl, hends⟩
  | endsWith => exact ⟨.endsWith, "", rfl, fun s => Iff.rfl⟩
  | contains => exact ⟨.contains, "", rfl, fun s => Iff.rfl⟩

/-- A run behind the start and no anchor at the end, and a text with neither. -/
theorem reduces_faithfully_openEnds :
    let p : Pattern := ⟨[[.anchor .start ⟨1, some 1, false⟩, .set (.ofClass .any) ⟨0, none, false⟩, .literal "bolt"]]⟩
    let q : Pattern := ⟨[[.at_ .start, .literal "M", .literal "8", .at_ .finish]]⟩
    (p.AnchorsOnce ∧ p.shape? = some (.contains, "bolt") ∧ p.Finds "bolts".toList) ∧
      (q.AnchorsOnce ∧ q.literal? = some "M8" ∧ ¬q.Finds "M80".toList) ∧
        (ofShape .contains "bolt").shape? = some (.contains, "bolt") := by
  intro p q
  have hp : p.AnchorsOnce := by
    intro place r hmem
    simp [p, leaves, alternativesLeaves, sequenceLeaves, Piece.leaves, Piece.literal] at hmem
    rw [hmem.2]
    rfl
  have hq : q.AnchorsOnce := by
    intro place r hmem
    simp [q, leaves, alternativesLeaves, sequenceLeaves, Piece.leaves, Piece.literal, Piece.at_] at hmem
    rcases hmem with ⟨-, rfl⟩ | ⟨-, rfl⟩ <;> rfl
  obtain ⟨hfinds, hshape, -⟩ := reduces_faithfully
  refine ⟨⟨hp, rfl, ?_⟩, ⟨hq, rfl, ?_⟩, hshape .contains "bolt" (by decide)⟩
  · exact ((hfinds p hp).1 .contains "bolt" rfl _).mpr ⟨[], ['s'], rfl⟩
  · rw [(hfinds q hq).2 "M8" rfl]
    decide

end Pattern
end ItemQuery
