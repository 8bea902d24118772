import ItemQuery.Pattern.Simplify

/-! What a pattern matches. A piece relates the positions of a text at which it can start and end, a
    repetition is any number of successive uses within its bounds, anchors take no characters, and whether
    a repetition is greedy does not matter. A pattern is found in a text if one of its alternatives leads
    from some position to another. -/

namespace ItemQuery

/-! ### Relations between positions -/

/-- From where to where a part of a pattern can lead. -/
abbrev Span : Type :=
  Nat → Nat → Prop

namespace Span

/-- One after the other. -/
def comp (R S : Span) : Span :=
  fun i j => ∃ k, R i k ∧ S k j

/-- The same one `n` times. -/
def power (R : Span) : Nat → Span
  | 0 => Eq
  | n + 1 => comp R (power R n)

/-- As often as a repetition allows. -/
def repeated (r : Repetition) (R : Span) : Span :=
  fun i j => ∃ n, r.least.toNat ≤ n ∧ (∀ most, r.most = some most → n ≤ most.toNat) ∧ power R n i j

@[simp] theorem comp_eq (R : Span) : comp R Eq = R := by
  funext i j
  simp [comp]

@[simp] theorem eq_comp (R : Span) : comp Eq R = R := by
  funext i j
  simp [comp]

theorem comp_assoc (R S T : Span) : comp (comp R S) T = comp R (comp S T) := by
  funext i j
  apply propext
  constructor
  · rintro ⟨k, ⟨l, hl, hk⟩, hj⟩
    exact ⟨l, hl, k, hk, hj⟩
  · rintro ⟨l, hl, k, hk, hj⟩
    exact ⟨k, ⟨l, hl, hk⟩, hj⟩

theorem power_add (R : Span) (m n : Nat) : power R (m + n) = comp (power R m) (power R n) := by
  induction m with
  | zero => simp [power]
  | succ m ih => rw [Nat.succ_add, power, power, ih, comp_assoc]

@[simp] theorem power_one (R : Span) : power R 1 = R := by
  simp [power]

/-- A relation that never moves does not move however often it is used. -/
theorem power_eq (n : Nat) : power Eq n = Eq := by
  induction n with
  | zero => rfl
  | succ n ih => rw [power, ih, comp_eq]

end Span

/-! ### Characters and places -/

/-- The ASCII characters of a class. -/
def ClassKind.holds : ClassKind → Char → Bool
  | any, _ => true
  | digit, c => c.isDigit
  | word, c => c.isAlphanum || c == '_'
  | space, c => c == ' ' || c == '\t' || c == '\r' || c == '\n'

/-- Whether an entry of a set covers a character. -/
def SetItem.holds : SetItem → Char → Bool
  | char a, c => c == a
  | range low high, c => low ≤ c && c ≤ high
  | cls kind, c => kind.holds c

/-- Whether a character belongs to a set. -/
def CharSet.holds (s : CharSet) (c : Char) : Bool :=
  s.items.any (·.holds c) != s.inverted

/-- Whether the character at a place, if there is one, can be part of a word. -/
def isWordAt (s : List Char) (i : Nat) : Bool :=
  (s[i]?).any ClassKind.word.holds

/-- Whether an anchor holds at a position of a text. -/
def Anchor.holds (s : List Char) (i : Nat) : Anchor → Prop
  | start => i = 0
  | finish => i = s.length
  | wordBoundary => (0 < i && isWordAt s (i - 1)) ≠ isWordAt s i

/-! ### Pieces, sequences and alternatives -/

mutual

/-- One use of a piece. -/
def Piece.once (s : List Char) : Piece → Span
  | .anchor place _ => fun i j => i = j ∧ place.holds s i
  | .set chars _ => fun i j => j = i + 1 ∧ (s[i]?).any chars.holds = true
  | .text value _ => fun i j => j = i + value.toList.length ∧ value.toList <+: s.drop i
  | .group alternatives _ => alternativesSpan s alternatives

/-- The pieces of a sequence, each as often as it repeats. -/
def sequenceSpan (s : List Char) : List Piece → Span
  | [] => Eq
  | p :: ps => Span.comp (Span.repeated p.count (p.once s)) (sequenceSpan s ps)

/-- One of several sequences. -/
def alternativesSpan (s : List Char) : List (List Piece) → Span
  | [] => fun _ _ => False
  | ps :: rest => fun i j => sequenceSpan s ps i j ∨ alternativesSpan s rest i j

end

/-- Every use of a piece within its bounds. -/
def Piece.span (s : List Char) (p : Piece) : Span :=
  Span.repeated p.count (p.once s)

/-- Whether the pattern is found in a text. -/
def Pattern.Finds (p : Pattern) (s : List Char) : Prop :=
  ∃ i j, i ≤ s.length ∧ alternativesSpan s p.alternatives i j

/-! ### Bounds in order -/

/-- The lower bound does not exceed the upper one. -/
def Repetition.Ordered (r : Repetition) : Prop :=
  ∀ most, r.most = some most → r.least.toNat ≤ most.toNat

mutual

/-- All bounds of a piece are in order. -/
def Piece.Ordered : Piece → Prop
  | .anchor _ r => r.Ordered
  | .set _ r => r.Ordered
  | .text _ r => r.Ordered
  | .group alternatives r => r.Ordered ∧ AlternativesOrdered alternatives

/-- All bounds of a sequence are in order. -/
def SequenceOrdered : List Piece → Prop
  | [] => True
  | p :: ps => p.Ordered ∧ SequenceOrdered ps

/-- All bounds of several sequences are in order. -/
def AlternativesOrdered : List (List Piece) → Prop
  | [] => True
  | ps :: rest => SequenceOrdered ps ∧ AlternativesOrdered rest

end

/-- All bounds of a pattern, nested ones included, are in order. -/
def Pattern.Ordered (p : Pattern) : Prop :=
  AlternativesOrdered p.alternatives

theorem sequenceOrdered_append {ps qs : List Piece} :
    SequenceOrdered (ps ++ qs) ↔ SequenceOrdered ps ∧ SequenceOrdered qs := by
  induction ps with
  | nil => simp [SequenceOrdered]
  | cons p ps ih => simp only [List.cons_append, SequenceOrdered, ih, and_assoc]

theorem sequenceOrdered_reverse {ps : List Piece} : SequenceOrdered ps.reverse ↔ SequenceOrdered ps := by
  induction ps with
  | nil => simp
  | cons p ps ih =>
    rw [List.reverse_cons, sequenceOrdered_append, ih]
    simp [SequenceOrdered, and_comm]

theorem Piece.Ordered.count {p : Piece} (h : p.Ordered) : p.count.Ordered := by
  cases p <;> simp only [Ordered, Piece.count] at h ⊢
  case group => exact h.1
  all_goals exact h

theorem Piece.Ordered.withCount {p : Piece} {r : Repetition} (h : p.Ordered) (hr : r.Ordered) :
    (p.withCount r).Ordered := by
  cases p <;> simp only [Ordered, Piece.withCount] at h ⊢
  case group => exact ⟨hr, h.2⟩
  all_goals exact hr

theorem Repetition.ordered_of_isOnce {r : Repetition} (h : r.isOnce = true) : r.Ordered := by
  simp only [isOnce, Bool.and_eq_true, beq_iff_eq] at h
  intro most hm
  rw [h.2, Option.some.injEq] at hm
  simp only [h.1, ← hm, Nat.le_refl]

/-! ### Equality of pieces -/

mutual

theorem Piece.eq_of_same : ∀ {p q : Piece}, p.same q = true → p = q
  | anchor a r, q => by
    cases q <;> simp only [same, Bool.and_eq_true, beq_iff_eq, Bool.false_eq_true, false_implies]
    rintro ⟨rfl, rfl⟩
    rfl
  | set a r, q => by
    cases q <;> simp only [same, Bool.and_eq_true, beq_iff_eq, Bool.false_eq_true, false_implies]
    rintro ⟨rfl, rfl⟩
    rfl
  | text a r, q => by
    cases q <;> simp only [same, Bool.and_eq_true, beq_iff_eq, Bool.false_eq_true, false_implies]
    rintro ⟨rfl, rfl⟩
    rfl
  | group a r, q => by
    cases q <;> simp only [same, Bool.and_eq_true, beq_iff_eq, Bool.false_eq_true, false_implies]
    rintro ⟨h, rfl⟩
    rw [eq_of_sameAlternatives h]

theorem Piece.eq_of_sameSequence : ∀ {ps qs : List Piece}, sameSequence ps qs = true → ps = qs
  | [], qs => by cases qs <;> simp [sameSequence]
  | p :: ps, qs => by
    cases qs <;> simp only [sameSequence, Bool.and_eq_true, Bool.false_eq_true, false_implies]
    rintro ⟨h, hs⟩
    rw [Piece.eq_of_same h, eq_of_sameSequence hs]

theorem Piece.eq_of_sameAlternatives : ∀ {ps qs : List (List Piece)}, sameAlternatives ps qs = true → ps = qs
  | [], qs => by cases qs <;> simp [sameAlternatives]
  | p :: ps, qs => by
    cases qs <;> simp only [sameAlternatives, Bool.and_eq_true, Bool.false_eq_true, false_implies]
    rintro ⟨h, hs⟩
    rw [eq_of_sameSequence h, eq_of_sameAlternatives hs]

end

theorem Piece.withCount_eq_of_sameKind {a b : Piece} (h : a.sameKind b = true) (r : Repetition) :
    a.withCount r = b.withCount r := by
  have heq : a.withCount .once = b.withCount .once := eq_of_same h
  cases a <;> cases b <;> simp_all [withCount]

end ItemQuery
