import ItemQuery.Proofs.Pattern.Matching

/-! Simplifying a pattern keeps what it matches. Two neighbours that become one piece lead exactly where they
    led one after the other, provided that their bounds are in order; from this the canonical form of a
    sequence follows piece by piece, and that of a pattern by its nesting. -/

namespace ItemQuery

/-! ### Repetitions -/

theorem Number.toNat_of_addCounts? {a b c : UInt32} (h : Number.addCounts? a b = some c) :
    c.toNat = a.toNat + b.toNat := by
  unfold addCounts? at h
  split at h
  · rename_i hlt
    cases h
    exact UInt32.toNat_ofNat_of_lt' hlt
  · cases h

/-- The bounds of a sum; it has no upper bound if one of the two has none. -/
theorem Piece.bounds_of_sum? {a b r : Repetition} (h : sum? a b = some r) :
    r.least.toNat = a.least.toNat + b.least.toNat ∧
      (∀ x y, a.most = some x → b.most = some y → ∃ z, r.most = some z ∧ z.toNat = x.toNat + y.toNat) ∧
      (a.most = none ∨ b.most = none → r.most = none) := by
  unfold sum? at h
  split at h
  · cases h
  · rename_i least x y hl hx hy
    obtain ⟨most, hm, rfl⟩ := Option.map_eq_some_iff.mp h
    rw [hx, hy]
    refine ⟨Number.toNat_of_addCounts? hl, ?_, by simp⟩
    rintro _ _ ⟨⟩ ⟨⟩
    exact ⟨most, rfl, Number.toNat_of_addCounts? hm⟩
  · rename_i least hl hnone
    cases h
    exact ⟨Number.toNat_of_addCounts? hl, fun x y hx hy => (hnone x y hx hy).elim, fun _ => rfl⟩

namespace Span

theorem repeated_of_isOnce {r : Repetition} (h : r.isOnce = true) (R : Span) : repeated r R = R := by
  simp only [Repetition.isOnce, Bool.and_eq_true, beq_iff_eq] at h
  obtain ⟨hl, hm⟩ := h
  funext i j
  apply propext
  constructor
  · rintro ⟨n, hn, hn', hp⟩
    rw [hl] at hn
    have hone : n = 1 := Nat.le_antisymm (hn' 1 hm) hn
    rwa [hone, power_one] at hp
  · intro hR
    refine ⟨1, by rw [hl]; exact Nat.le_refl _, fun most hmost => ?_, by rwa [power_one]⟩
    rw [hm, Option.some.injEq] at hmost
    rw [← hmost]
    exact Nat.le_refl _

/-- A piece that never moves, repeated in bounds that some number meets, does not move. -/
theorem repeated_eq {r : Repetition} (h : r.Ordered) : repeated r Eq = Eq := by
  funext i j
  apply propext
  constructor
  · rintro ⟨n, -, -, hp⟩
    rwa [power_eq] at hp
  · intro hij
    exact ⟨r.least.toNat, Nat.le_refl _, h, by rwa [power_eq]⟩

/-- Two repetitions of one piece are one with the sum of their bounds. -/
theorem comp_repeated {a b r : Repetition} (ha : a.Ordered) (hb : b.Ordered) (h : Piece.sum? a b = some r)
    (R : Span) : comp (repeated a R) (repeated b R) = repeated r R := by
  obtain ⟨hleast, hboth, hnone⟩ := Piece.bounds_of_sum? h
  funext i j
  apply propext
  constructor
  · rintro ⟨k, ⟨m, hm, hm', hp⟩, n, hn, hn', hq⟩
    refine ⟨m + n, by omega, fun most hmost => ?_, by rw [power_add]; exact ⟨k, hp, hq⟩⟩
    cases hx : a.most with
    | none => rw [hnone (Or.inl hx)] at hmost; cases hmost
    | some x =>
      cases hy : b.most with
      | none => rw [hnone (Or.inr hy)] at hmost; cases hmost
      | some y =>
        obtain ⟨z, hz, hzxy⟩ := hboth x y hx hy
        rw [hz, Option.some.injEq] at hmost
        have hmx := hm' x hx
        have hny := hn' y hy
        rw [← hmost]
        omega
  · rintro ⟨n, hn, hn', hp⟩
    -- The first repetition takes as much as it must, and then as much as the second one leaves.
    obtain ⟨k, hk, hka, hkb, hkb'⟩ : ∃ k, a.least.toNat ≤ k ∧ (∀ x, a.most = some x → k ≤ x.toNat) ∧
        b.least.toNat + k ≤ n ∧ ∀ y, b.most = some y → n ≤ y.toNat + k := by
      cases hx : a.most with
      | none =>
        cases hy : b.most with
        | none => exact ⟨a.least.toNat, Nat.le_refl _, by simp, by omega, by simp⟩
        | some y =>
          have := hb y hy
          refine ⟨n - b.least.toNat, by omega, by simp, by omega, ?_⟩
          rintro _ ⟨⟩
          omega
      | some x =>
        have hax := ha x hx
        cases hy : b.most with
        | none => exact ⟨a.least.toNat, Nat.le_refl _, by rintro _ ⟨⟩; exact hax, by omega, by simp⟩
        | some y =>
          have hby := hb y hy
          obtain ⟨z, hz, hzxy⟩ := hboth x y hx hy
          have hnz := hn' z hz
          refine ⟨min x.toNat (n - b.least.toNat), by omega, ?_, by omega, ?_⟩
          · rintro _ ⟨⟩
            omega
          · rintro _ ⟨⟩
            omega
    have hsplit : n = k + (n - k) := by omega
    rw [hsplit, power_add] at hp
    obtain ⟨l, hl, hl'⟩ := hp
    refine ⟨l, ⟨k, hk, hka, hl⟩, n - k, by omega, fun y hy => ?_, hl'⟩
    have := hkb' y hy
    omega

end Span

theorem Repetition.Ordered.sum? {a b r : Repetition} (ha : a.Ordered) (hb : b.Ordered)
    (h : Piece.sum? a b = some r) : r.Ordered := by
  obtain ⟨hleast, hboth, hnone⟩ := Piece.bounds_of_sum? h
  intro most hmost
  cases hx : a.most with
  | none => rw [hnone (Or.inl hx)] at hmost; cases hmost
  | some x =>
    cases hy : b.most with
    | none => rw [hnone (Or.inr hy)] at hmost; cases hmost
    | some y =>
      obtain ⟨z, hz, hzxy⟩ := hboth x y hx hy
      rw [hz, Option.some.injEq] at hmost
      have hax := ha x hx
      have hby := hb y hy
      rw [← hmost]
      omega

namespace Piece

variable {s : List Char}

@[simp] theorem once_withCount (p : Piece) (r : Repetition) : (p.withCount r).once s = p.once s := by
  cases p <;> simp only [withCount, once]

@[simp] theorem count_withCount (p : Piece) (r : Repetition) : (p.withCount r).count = r := by
  cases p <;> rfl

@[simp] theorem span_withCount (p : Piece) (r : Repetition) : (p.withCount r).span s = Span.repeated r (p.once s) := by
  simp only [span, once_withCount, count_withCount]

end Piece

theorem sequenceSpan_append {s : List Char} (ps qs : List Piece) :
    sequenceSpan s (ps ++ qs) = Span.comp (sequenceSpan s ps) (sequenceSpan s qs) := by
  induction ps with
  | nil => simp [sequenceSpan]
  | cons p ps ih => simp only [List.cons_append, sequenceSpan, ih, Span.comp_assoc]

theorem sequenceSpan_singleton {s : List Char} (p : Piece) : sequenceSpan s [p] = p.span s := by
  simp [sequenceSpan, Piece.span]

/-! ### Merging -/

namespace Piece

variable {s : List Char}

/-- How two neighbours become one piece. -/
inductive Merging : Piece → Piece → Piece → Prop
  /-- Literals that occur once are one literal. -/
  | texts {x y : String} {r q : Repetition} (hr : r.isOnce = true) (hq : q.isOnce = true) :
      Merging (text x r) (text y q) (text (x ++ y) r)
  /-- An anchor says nothing more in the same place. -/
  | anchors {place : Anchor} {r q : Repetition} (hr : r.isOnce = true) (hq : q.isOnce = true) :
      Merging (anchor place r) (anchor place q) (anchor place r)
  /-- The bounds of everything else are added. -/
  | sum {a b : Piece} {r : Repetition} (ha : ∀ place q, a ≠ anchor place q)
      (hliteral : a.literal? = none ∨ b.literal? = none) (hkind : sameKind a b = true)
      (hgreedy : a.count.greedy = b.count.greedy) (hsum : sum? a.count b.count = some r) :
      Merging a b (a.withCount r)

theorem merging_of_merge? {a b m : Piece} (h : merge? a b = some m) : Merging a b m := by
  unfold merge? at h
  split at h
  · rename_i x r y q
    split at h
    · rename_i hone
      rw [Bool.and_eq_true] at hone
      cases h
      exact .texts hone.1 hone.2
    · rename_i hone
      split at h
      · rename_i hsame
        rw [Bool.and_eq_true, beq_iff_eq, beq_iff_eq] at hsame
        obtain ⟨rfl, hgreedy⟩ := hsame
        obtain ⟨t, ht, rfl⟩ := Option.map_eq_some_iff.mp h
        have hliteral : (text x r).literal? = none ∨ (text x q).literal? = none := by
          by_cases hr : r.isOnce = true
          · exact Or.inr (by simpa [literal?, hr] using hone)
          · exact Or.inl (by simpa [literal?] using hr)
        exact .sum (a := text x r) nofun hliteral (by simp [sameKind, withCount, same]) hgreedy ht
      · cases h
  · split at h
    · rename_i hone
      simp only [Bool.and_eq_true, beq_iff_eq] at hone
      obtain ⟨⟨hr, hq⟩, rfl⟩ := hone
      cases h
      exact .anchors hr hq
    · cases h
  · cases h
  · rename_i hanchor htexts _
    split at h
    · rename_i hsame
      rw [Bool.and_eq_true, beq_iff_eq] at hsame
      obtain ⟨r, hr, rfl⟩ := Option.map_eq_some_iff.mp h
      have hliteral : a.literal? = none ∨ b.literal? = none := by
        cases a with
        | text x t =>
          cases b with
          | text y q => exact (htexts x t y q rfl rfl).elim
          | _ => exact Or.inr rfl
        | _ => exact Or.inl rfl
      exact .sum hanchor hliteral hsame.1 hsame.2 hr
    · cases h

/-- Neighbours of one kind are merged if their bounds can be added. -/
theorem merge?_ne_none {a b : Piece} {r : Repetition} (ha : ∀ place q, a ≠ anchor place q) (hkind : sameKind a b = true)
    (hgreedy : a.count.greedy = b.count.greedy) (hsum : sum? a.count b.count = some r) : merge? a b ≠ none := by
  unfold merge?
  split
  · rename_i x t y q
    have hxy : x = y := by simpa [sameKind, withCount, same] using hkind
    split
    · exact Option.some_ne_none _
    · have hsum : sum? t q = some r := hsum
      rw [if_pos (by rw [hxy]; simpa [count] using hgreedy), hsum]
      exact Option.some_ne_none _
  · exact absurd rfl (ha _ _)
  · exact absurd rfl (ha _ _)
  · rw [if_pos (by simp [hkind, hgreedy]), hsum]
    exact Option.some_ne_none _

/-- A literal is its parts, one after the other. -/
theorem once_text_append (x y : String) (r q t : Repetition) :
    (text (x ++ y) r).once s = Span.comp ((text x q).once s) ((text y t).once s) := by
  funext i j
  apply propext
  simp only [once, String.toList_append, List.length_append]
  constructor
  · rintro ⟨hj, u, hu⟩
    have hx : x.toList <+: s.drop i := ⟨y.toList ++ u, by rw [← List.append_assoc, hu]⟩
    refine ⟨i + x.toList.length, ⟨rfl, hx⟩, by omega, u, ?_⟩
    rw [← List.drop_drop, ← hu, List.append_assoc, List.drop_left]
  · rintro ⟨k, ⟨rfl, u, hu⟩, hj, v, hv⟩
    refine ⟨by omega, v, ?_⟩
    rw [← List.drop_drop, ← hu, List.drop_left] at hv
    rw [List.append_assoc, hv, hu]

/-- Merged neighbours lead where they led one after the other. -/
theorem span_merge? {a b m : Piece} (ha : a.Ordered) (hb : b.Ordered) (h : merge? a b = some m) :
    m.span s = Span.comp (a.span s) (b.span s) ∧ m.Ordered := by
  cases merging_of_merge? h with
  | @texts x y r q hr hq =>
    refine ⟨?_, ha⟩
    simp only [span, count, Span.repeated_of_isOnce hr, Span.repeated_of_isOnce hq]
    exact once_text_append x y r r q
  | @anchors place r q hr hq =>
    refine ⟨?_, ha⟩
    simp only [span, count, Span.repeated_of_isOnce hr, Span.repeated_of_isOnce hq, once]
    funext i j
    simp only [Span.comp, eq_iff_iff]
    constructor
    · rintro ⟨rfl, hx⟩
      exact ⟨i, ⟨rfl, hx⟩, rfl, hx⟩
    · rintro ⟨k, ⟨rfl, hx⟩, rfl, -⟩
      exact ⟨rfl, hx⟩
  | @sum _ _ r _ _ hkind _ hsum =>
    have hsame : b.once s = a.once s := by
      rw [← once_withCount b r, ← once_withCount a r, withCount_eq_of_sameKind hkind]
    refine ⟨?_, ha.withCount (ha.count.sum? hb.count hsum)⟩
    rw [span_withCount, span, span, hsame]
    exact (Span.comp_repeated ha.count hb.count hsum _).symm

theorem span_pushMerged {rev : List Piece} {p : Piece} (hrev : SequenceOrdered rev) (hp : p.Ordered) :
    sequenceSpan s (pushMerged rev p).reverse = Span.comp (sequenceSpan s rev.reverse) (p.span s) ∧
      SequenceOrdered (pushMerged rev p) := by
  cases rev with
  | nil => exact ⟨by simp [pushMerged, sequenceSpan, span], hp, trivial⟩
  | cons last before =>
    simp only [pushMerged]
    split
    · rename_i m hm
      obtain ⟨hspan, hord⟩ := span_merge? hrev.1 hp hm
      refine ⟨?_, hord, hrev.2⟩
      rw [List.reverse_cons, List.reverse_cons, sequenceSpan_append, sequenceSpan_append, sequenceSpan_singleton,
        sequenceSpan_singleton, hspan, Span.comp_assoc]
    · refine ⟨?_, hp, hrev⟩
      rw [List.reverse_cons, sequenceSpan_append, sequenceSpan_singleton]

theorem span_foldl_pushMerged {ps : List Piece} :
    ∀ {rev : List Piece}, SequenceOrdered rev → SequenceOrdered ps →
      sequenceSpan s (ps.foldl pushMerged rev).reverse
          = Span.comp (sequenceSpan s rev.reverse) (sequenceSpan s ps) ∧
        SequenceOrdered (ps.foldl pushMerged rev) := by
  induction ps with
  | nil => intro rev hrev _; exact ⟨by simp [sequenceSpan], hrev⟩
  | cons p ps ih =>
    intro rev hrev hps
    obtain ⟨hspan, hord⟩ := span_pushMerged (s := s) hrev hps.1
    obtain ⟨hspan', hord'⟩ := ih hord hps.2
    refine ⟨?_, hord'⟩
    rw [List.foldl_cons, hspan', hspan, sequenceSpan, Span.comp_assoc, span]

/-! ### One piece -/

theorem holds_of_singleChar? {chars : CharSet} {c : Char} (h : chars.singleChar? = some c) (x : Char) :
    chars.holds x = true ↔ x = c := by
  unfold CharSet.singleChar? at h
  split at h
  · cases h
  · rename_i hinv
    split at h
    · rename_i hitems
      cases h
      simp [CharSet.holds, hitems, hinv, SetItem.holds]
    · rename_i a b hitems
      split at h
      · rename_i hab
        cases h
        subst hab
        simp only [CharSet.holds, hitems, hinv, SetItem.holds, List.any_cons, List.any_nil, Bool.or_false,
          Bool.bne_false, Bool.and_eq_true, decide_eq_true_eq]
        exact ⟨fun hx => Char.le_antisymm hx.2 hx.1, fun hx => hx ▸ ⟨Char.le_refl _, Char.le_refl _⟩⟩
      · cases h
    · cases h

/-- A set of one character is a literal. -/
theorem once_set_of_singleChar? {chars : CharSet} {c : Char} (h : chars.singleChar? = some c) (r q : Repetition) :
    (text c.toString r).once s = (set chars q).once s := by
  funext i j
  apply propext
  have hlen : c.toString.toList = [c] := by simp
  simp only [once, hlen, List.length_cons, List.length_nil, Nat.zero_add]
  refine and_congr_right fun _ => ?_
  rw [List.prefix_iff_eq_take]
  cases hi : s[i]? with
  | none =>
    have : s.drop i = [] := List.drop_eq_nil_of_le (List.getElem?_eq_none_iff.mp hi)
    simp [this]
  | some x =>
    obtain ⟨hlt, hx⟩ := List.getElem?_eq_some_iff.mp hi
    rw [List.drop_eq_getElem_cons hlt, hx]
    simp [holds_of_singleChar? h, eq_comm]

theorem once_text_empty {value : String} (h : value.isEmpty = true) (r : Repetition) :
    (text value r).once s = Eq := by
  have hnil : value.toList = [] := by
    rw [String.isEmpty_iff] at h
    rw [h]
    rfl
  funext i j
  simp [once, hnil, eq_comm]

/-! ### Whole patterns -/

mutual

/-- The pieces that stand for a piece lead where it leads. -/
theorem span_simplified (s : List Char) :
    ∀ p : Piece, p.Ordered → sequenceSpan s (simplified p) = p.span s ∧ SequenceOrdered (simplified p)
  | anchor place r, h => by
    rw [simplified, sequenceSpan_singleton]
    exact ⟨rfl, h, trivial⟩
  | set chars r, h => by
    rw [simplified]
    split
    · rename_i c hc
      rw [sequenceSpan_singleton]
      refine ⟨?_, h, trivial⟩
      simp only [span, count, once_set_of_singleChar? hc r r]
    · rw [sequenceSpan_singleton]
      exact ⟨rfl, h, trivial⟩
  | text value r, h => by
    rw [simplified]
    split
    · rename_i hempty
      refine ⟨?_, trivial⟩
      rw [span, once_text_empty hempty, count]
      exact (Span.repeated_eq h).symm
    · rw [sequenceSpan_singleton]
      exact ⟨rfl, h, trivial⟩
  | group alternatives r, h => by
    obtain ⟨halts, hord⟩ := span_simplifiedAlternatives s alternatives h.2
    rw [simplified]
    split
    · rename_i only honly
      rw [honly] at halts hord
      have hspan : (group alternatives r).span s = Span.repeated r (sequenceSpan s only) := by
        rw [span, once, ← halts, count]
        simp only [alternativesSpan, or_false]
      split
      · rename_i hone
        rw [hspan, Span.repeated_of_isOnce hone]
        exact ⟨rfl, hord.1⟩
      · rw [sequenceSpan_singleton, hspan]
        refine ⟨?_, ⟨h.1, hord⟩, trivial⟩
        simp only [span, count, once, alternativesSpan, or_false]
    · rw [sequenceSpan_singleton]
      refine ⟨?_, ⟨h.1, hord⟩, trivial⟩
      simp only [span, count, once, halts]

/-- What is done so far and the simplified rest lead where the sequence leads. -/
theorem span_simplifiedSequence (s : List Char) : ∀ (ps rev : List Piece), SequenceOrdered rev → SequenceOrdered ps →
    sequenceSpan s (simplifiedSequence rev ps) = Span.comp (sequenceSpan s rev.reverse) (sequenceSpan s ps) ∧
      SequenceOrdered (simplifiedSequence rev ps)
  | [], rev, hrev, _ => by
    rw [simplifiedSequence, sequenceSpan, Span.comp_eq]
    exact ⟨rfl, sequenceOrdered_reverse.mpr hrev⟩
  | p :: ps, rev, hrev, hps => by
    obtain ⟨hp, hpord⟩ := span_simplified s p hps.1
    obtain ⟨hfold, hford⟩ := span_foldl_pushMerged (s := s) hrev hpord
    obtain ⟨hrest, hrord⟩ := span_simplifiedSequence s ps ((simplified p).foldl pushMerged rev) hford hps.2
    rw [simplifiedSequence]
    refine ⟨?_, hrord⟩
    rw [hrest, hfold, hp, sequenceSpan, Span.comp_assoc, span]

/-- The simplified alternatives lead where the alternatives lead. -/
theorem span_simplifiedAlternatives (s : List Char) : ∀ pss : List (List Piece), AlternativesOrdered pss →
    alternativesSpan s (simplifiedAlternatives pss) = alternativesSpan s pss ∧
      AlternativesOrdered (simplifiedAlternatives pss)
  | [], _ => ⟨rfl, trivial⟩
  | ps :: pss, h => by
    obtain ⟨hps, hord⟩ := span_simplifiedSequence s ps [] trivial h.1
    obtain ⟨hrest, hrord⟩ := span_simplifiedAlternatives s pss h.2
    rw [simplifiedAlternatives]
    refine ⟨?_, hord, hrord⟩
    rw [List.reverse_nil, sequenceSpan, Span.eq_comp] at hps
    simp only [alternativesSpan, hps, hrest]

end

end Piece

namespace Pattern

/-- A pattern is found where its canonical form is found. -/
theorem finds_simplify {p : Pattern} (h : p.Ordered) (s : List Char) : p.simplify.Finds s ↔ p.Finds s := by
  simp only [Finds, simplify, (Piece.span_simplifiedAlternatives s p.alternatives h).1]

theorem Ordered.simplify {p : Pattern} (h : p.Ordered) : p.simplify.Ordered :=
  (Piece.span_simplifiedAlternatives [] p.alternatives h).2

/-- Whether the pattern matches what stands between two positions of a text. -/
def Matches (p : Pattern) (s : List Char) (i j : Nat) : Prop :=
  i ≤ s.length ∧ alternativesSpan s p.alternatives i j

/-- Simplification keeps every match: the canonical form leads from the same starts to the same ends. -/
theorem matches_simplify {p : Pattern} (h : p.Ordered) (s : List Char) (i j : Nat) :
    p.simplify.Matches s i j ↔ p.Matches s i j := by
  have hspan := (Piece.span_simplifiedAlternatives s p.alternatives h).1
  simp only [Matches, simplify, hspan]

/-- `((a{0,2})(a+))[b-b](c(d|e){2,}(d|e))` -/
def nestedGroups : Pattern :=
  let either := [[Piece.literal "d"], [Piece.literal "e"]]
  ⟨[[.group [[.group [[.text "a" ⟨0, some 2, true⟩]] .once, .group [[.text "a" ⟨1, none, true⟩]] .once]] .once,
     .set ⟨[.range 'b' 'b'], false⟩ .once,
     .group [[.literal "c", .group either ⟨2, none, true⟩, .group either .once]] .once]]⟩

/-- Its canonical form is `a+bc(d|e){3,}`. -/
theorem matches_simplify_nestedGroups : nestedGroups.Ordered ∧
    nestedGroups.simplify = ⟨[[.text "a" ⟨1, none, true⟩, .literal "bc",
      .group [[.literal "d"], [.literal "e"]] ⟨3, none, true⟩]]⟩ ∧
    ∀ s i j, nestedGroups.simplify.Matches s i j ↔ nestedGroups.Matches s i j := by
  have hordered : nestedGroups.Ordered := by
    simp [nestedGroups, Ordered, AlternativesOrdered, SequenceOrdered, Piece.Ordered, Repetition.Ordered,
      Repetition.once, Piece.literal]
  exact ⟨hordered, by rfl, matches_simplify hordered⟩

/-! ### Patterns without wildcards -/

/-- Whether the first and the last piece of every alternative are used at least once. -/
def isFirm (p : Pattern) : Bool :=
  p.alternatives.all fun ps => ps.head?.all (·.count.least != 0) && ps.getLast?.all (·.count.least != 0)

/-- If the canonical form is a plain text between two anchors, none of them may be left out. -/
def Pinned (p : Pattern) : Prop :=
  p.simplify.literal?.isSome = true → p.simplify.isFirm = true

instance (p : Pattern) : Decidable p.Pinned :=
  inferInstanceAs (Decidable (_ → _))

theorem span_of_literal? {p : Piece} {value : String} (h : p.literal? = some value) (s : List Char) :
    p.span s = (Piece.text value .once).once s := by
  unfold Piece.literal? at h
  split at h
  · rename_i v r
    split at h
    · rename_i hone
      cases h
      simp only [Piece.span, Piece.count, Span.repeated_of_isOnce hone, Piece.once]
    · cases h
  · cases h

theorem sequenceSpan_of_literalText? (s : List Char) :
    ∀ {ps : List Piece} {value : String}, literalText? ps = some value →
      sequenceSpan s ps = (Piece.text value .once).once s
  | [], value, h => by
    cases h
    rw [Piece.once_text_empty (by rfl), sequenceSpan]
  | p :: ps, value, h => by
    obtain ⟨first, hfirst, h⟩ := Option.bind_eq_some_iff.mp h
    obtain ⟨rest, hrest, rfl⟩ := Option.map_eq_some_iff.mp h
    have hp := span_of_literal? hfirst s
    rw [Piece.span] at hp
    rw [sequenceSpan, hp, sequenceSpan_of_literalText? s hrest]
    exact (Piece.once_text_append first rest .once .once .once).symm

/-- An anchor that is used at least once holds where it is. -/
theorem holds_of_span_anchor {s : List Char} {place : Anchor} {r : Repetition} (hr : r.least ≠ 0) {i j : Nat}
    (h : (Piece.anchor place r).span s i j) : i = j ∧ place.holds s i := by
  obtain ⟨n, hn, -, hp⟩ := h
  have hmoves : ∀ m i j, Span.power ((Piece.anchor place r).once s) m i j → i = j := by
    intro m
    induction m with
    | zero => intro i j h; exact h
    | succ m ih =>
      rintro i j ⟨k, hk, hrest⟩
      rw [Piece.once] at hk
      exact hk.1.trans (ih k j hrest)
  have hpos : r.least.toNat ≠ 0 := fun h0 => hr (UInt32.toNat_inj.mp h0)
  cases n with
  | zero => exact absurd (Nat.le_zero.mp hn) hpos
  | succ n =>
    refine ⟨hmoves _ _ _ hp, ?_⟩
    obtain ⟨k, hk, -⟩ := hp
    rw [Piece.once] at hk
    exact hk.2

/-- An anchor that holds can be used as often as wanted. -/
theorem span_anchor_of_holds {s : List Char} {place : Anchor} {r : Repetition} (hr : r.Ordered) {i : Nat}
    (h : place.holds s i) : (Piece.anchor place r).span s i i := by
  refine ⟨r.least.toNat, Nat.le_refl _, hr, ?_⟩
  induction r.least.toNat with
  | zero => rfl
  | succ n ih =>
    refine ⟨i, ?_, ih⟩
    rw [Piece.once]
    exact ⟨rfl, h⟩

theorem eq_anchor_of_isAnchor {place : Anchor} {p : Piece} (h : p.isAnchor place = true) :
    ∃ r, p = .anchor place r := by
  cases p <;> simp only [Piece.isAnchor, beq_iff_eq, Bool.false_eq_true] at h
  rename_i a r
  exact ⟨r, by rw [h]⟩

/-- A pattern without wildcards is one sequence of literals between the two anchors. -/
theorem eq_of_literal? {p : Pattern} {value : String} (h : p.literal? = some value) :
    ∃ ra rb body, p = ⟨[Piece.anchor .start ra :: (body ++ [Piece.anchor .finish rb])]⟩ ∧
      literalText? body = some value := by
  obtain ⟨alternatives⟩ := p
  unfold literal? at h
  split at h
  · rename_i first rest halts
    cases halts
    split at h
    · rename_i last body hrev
      split at h
      · rename_i hanchors
        rw [Bool.and_eq_true] at hanchors
        obtain ⟨ra, rfl⟩ := eq_anchor_of_isAnchor hanchors.1
        obtain ⟨rb, rfl⟩ := eq_anchor_of_isAnchor hanchors.2
        refine ⟨ra, rb, body.reverse, ?_, h⟩
        rw [← List.reverse_reverse rest, hrev, List.reverse_cons]
      · cases h
    · cases h
  · cases h

/-- A pattern without wildcards, with anchors that cannot be left out, is found in its text and in no other. -/
theorem finds_iff_of_literal? {p : Pattern} {value : String} (hp : p.Ordered) (h : p.literal? = some value)
    (hfirm : p.isFirm = true) (s : List Char) : p.Finds s ↔ s = value.toList := by
  obtain ⟨ra, rb, body, rfl, hbody⟩ := eq_of_literal? h
  simp only [isFirm, List.all_cons, List.head?_cons, Option.all_some, Piece.count, List.all_nil, Bool.and_true,
    Bool.and_eq_true, bne_iff_ne, ne_eq, List.getLast?_cons, List.getLast?_append,
    Option.some_or, Option.getD_some] at hfirm
  have hbounds := hp.1
  rw [SequenceOrdered, sequenceOrdered_append] at hbounds
  have hspan : ∀ i j, alternativesSpan s [Piece.anchor .start ra :: (body ++ [Piece.anchor .finish rb])] i j ↔
      Span.comp ((Piece.anchor .start ra).span s)
        (Span.comp ((Piece.text value .once).once s) ((Piece.anchor .finish rb).span s)) i j := by
    intro i j
    simp only [alternativesSpan, or_false, sequenceSpan, sequenceSpan_append, sequenceSpan_of_literalText? s hbody,
      Span.comp_eq, Piece.span]
  simp only [Finds, hspan]
  constructor
  · rintro ⟨i, j, -, k, hstart, l, htext, hfinish⟩
    obtain ⟨rfl, rfl⟩ := holds_of_span_anchor hfirm.1 hstart
    obtain ⟨rfl, hl⟩ := holds_of_span_anchor hfirm.2 hfinish
    rw [Piece.once, Nat.zero_add, List.drop_zero] at htext
    exact (htext.2.eq_of_length (by rw [← htext.1]; exact hl)).symm
  · rintro rfl
    refine ⟨0, value.toList.length, Nat.zero_le _, 0, span_anchor_of_holds hbounds.1 rfl,
      value.toList.length, ?_, span_anchor_of_holds hbounds.2.2.1 rfl⟩
    rw [Piece.once]
    exact ⟨(Nat.zero_add _).symm, List.prefix_refl _⟩

end Pattern
end ItemQuery
