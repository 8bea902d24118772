import ItemQuery.Proofs.Pattern.Simplification
import ItemQuery.Proofs.Pattern.WildcardText
import ItemQuery.Proofs.Result

/-! What a written pattern matches. A piece that a bracket syntax can write is read as pieces that lead from where to
    where it leads; sets are read as they were written only if no entry is taken for the negation, for the closing
    bracket or for a part of a range. -/

namespace ItemQuery

/-! ### Repetitions -/

namespace Span

variable {n : Nat} {R S : Span} {r : Repetition}

theorem repeated_exact (h : r.most = some r.least) (R : Span) : repeated r R = power R r.least.toNat := by
  funext i j
  apply propext
  constructor
  · rintro ⟨n, hn, hn', hp⟩
    rwa [Nat.le_antisymm (hn' r.least h) hn] at hp
  · intro hp
    refine ⟨r.least.toNat, Nat.le_refl _, fun most hmost => ?_, hp⟩
    rw [h, Option.some.injEq] at hmost
    exact Nat.le_of_eq (congrArg UInt32.toNat hmost)

theorem repeated_open (h : r.most = none) (R : Span) :
    repeated r R = comp (power R r.least.toNat) (repeated .any R) := by
  funext i j
  apply propext
  constructor
  · rintro ⟨n, hn, -, hp⟩
    obtain ⟨k, rfl⟩ := Nat.exists_eq_add_of_le hn
    rw [power_add] at hp
    obtain ⟨m, hm, hk⟩ := hp
    exact ⟨m, hm, k, Nat.zero_le k, nofun, hk⟩
  · rintro ⟨m, hm, k, -, -, hk⟩
    refine ⟨r.least.toNat + k, Nat.le_add_right _ _, fun most hmost => ?_, ?_⟩
    · rw [h] at hmost
      cases hmost
    · rw [power_add]
      exact ⟨m, hm, hk⟩

/-- Never leads out of the first `n` positions. -/
def Inside (n : Nat) (R : Span) : Prop :=
  ∀ i j, i ≤ n → R i j → j ≤ n

theorem inside_eq (n : Nat) : Inside n Eq := by
  rintro i _ hi rfl
  exact hi

theorem Inside.comp (hR : Inside n R) (hS : Inside n S) : Inside n (comp R S) := by
  rintro i j hi ⟨k, hk, hj⟩
  exact hS k j (hR i k hi hk) hj

theorem Inside.repeated (hR : Inside n R) (r : Repetition) : Inside n (repeated r R) := by
  have hpower : ∀ m, Inside n (power R m) := by
    intro m
    induction m with
    | zero => exact inside_eq n
    | succ m ih => exact hR.comp ih
  rintro i j hi ⟨m, -, -, hm⟩
  exact hpower m i j hi hm

end Span

mutual

theorem inside_once (s : List Char) : ∀ p : Piece, Span.Inside s.length (p.once s)
  | .anchor place r => by
    rintro i j hi ⟨rfl, -⟩
    exact hi
  | .set chars r => by
    rintro i j hi ⟨rfl, hc⟩
    cases hget : s[i]? with
    | none => simp [hget] at hc
    | some c => exact (List.getElem?_eq_some_iff.mp hget).1
  | .text value r => by
    rintro i j hi ⟨rfl, hprefix⟩
    have hlength := hprefix.length_le
    rw [List.length_drop] at hlength
    omega
  | .group alternatives r => by
    rw [Piece.once]
    exact inside_alternativesSpan s alternatives

theorem inside_sequenceSpan (s : List Char) : ∀ ps : List Piece, Span.Inside s.length (sequenceSpan s ps)
  | [] => Span.inside_eq _
  | p :: ps => by
    rw [sequenceSpan]
    exact ((inside_once s p).repeated p.count).comp (inside_sequenceSpan s ps)

theorem inside_alternativesSpan (s : List Char) :
    ∀ pss : List (List Piece), Span.Inside s.length (alternativesSpan s pss)
  | [] => nofun
  | ps :: pss => by
    rintro i j hi (h | h)
    · exact inside_sequenceSpan s ps i j hi h
    · exact inside_alternativesSpan s pss i j hi h

end

/-! ### Runs -/

theorem once_anyChar {s : List Char} {r : Repetition} {i j : Nat} :
    (Piece.set (.ofClass .any) r).once s i j ↔ j = i + 1 ∧ j ≤ s.length := by
  have hany : ∀ c, (CharSet.ofClass .any).holds c = true := fun _ => rfl
  simp only [Piece.once]
  cases hget : s[i]? with
  | none =>
    have hle := List.getElem?_eq_none_iff.mp hget
    simp only [Option.any_none, Bool.false_eq_true, and_false, false_iff]
    omega
  | some c =>
    have hlt := (List.getElem?_eq_some_iff.mp hget).1
    simp only [Option.any_some, hany, and_true]
    omega

theorem power_anyChar {s : List Char} {r : Repetition} {n i j : Nat} :
    Span.power ((Piece.set (.ofClass .any) r).once s) n i j ↔ j = i + n ∧ (i < j → j ≤ s.length) := by
  induction n generalizing i with
  | zero =>
    rw [Span.power]
    omega
  | succ n ih =>
    simp only [Span.power, Span.comp, once_anyChar, ih]
    constructor
    · rintro ⟨k, ⟨rfl, hk⟩, hj, hle⟩
      omega
    · rintro ⟨rfl, hle⟩
      exact ⟨i + 1, by omega, by omega, by omega⟩

/-- Any run leads forward, and never behind the end of the text. -/
theorem span_anyRun {s : List Char} {i j : Nat} : Piece.anyRun.span s i j ↔ i ≤ j ∧ (i < j → j ≤ s.length) := by
  constructor
  · rintro ⟨n, -, -, hn⟩
    obtain ⟨rfl, hle⟩ := power_anyChar.mp hn
    exact ⟨Nat.le_add_right i n, hle⟩
  · rintro ⟨hij, hle⟩
    exact ⟨j - i, Nat.zero_le _, nofun, power_anyChar.mpr ⟨by omega, hle⟩⟩

section
variable {s : List Char} {X : Span} {j : Nat}

/-- A run at the start stands for a start anywhere. -/
theorem exists_from_iff : (∃ i, i ≤ s.length ∧ X i j) ↔ Span.comp (Piece.anyRun.span s) X 0 j := by
  simp only [Span.comp, span_anyRun]
  constructor
  · rintro ⟨i, hi, hX⟩
    exact ⟨i, ⟨Nat.zero_le i, fun _ => hi⟩, hX⟩
  · rintro ⟨i, ⟨-, hi⟩, hX⟩
    exact ⟨i, by omega, hX⟩

theorem exists_from_run_iff :
    (∃ i, i ≤ s.length ∧ Span.comp (Piece.anyRun.span s) X i j) ↔ Span.comp (Piece.anyRun.span s) X 0 j := by
  refine ⟨?_, fun h => ⟨0, Nat.zero_le _, h⟩⟩
  rintro ⟨i, hi, k, hk, hX⟩
  refine ⟨k, ?_, hX⟩
  rw [span_anyRun] at hk ⊢
  omega

/-- A run at the end stands for an end anywhere. -/
theorem exists_to_iff (hX : Span.Inside s.length X) :
    (∃ j, X 0 j) ↔ Span.comp X (Piece.anyRun.span s) 0 s.length := by
  simp only [Span.comp, span_anyRun]
  constructor
  · rintro ⟨j, hj⟩
    exact ⟨j, hj, hX 0 j (Nat.zero_le _) hj, fun _ => Nat.le_refl _⟩
  · rintro ⟨j, hj, -⟩
    exact ⟨j, hj⟩

theorem exists_to_run_iff (hX : Span.Inside s.length X) :
    (∃ j, Span.comp X (Piece.anyRun.span s) 0 j) ↔ Span.comp X (Piece.anyRun.span s) 0 s.length := by
  refine ⟨?_, fun h => ⟨_, h⟩⟩
  rintro ⟨j, k, hk, -⟩
  refine ⟨k, hk, ?_⟩
  rw [span_anyRun]
  exact ⟨hX 0 k (Nat.zero_le _) hk, fun _ => Nat.le_refl _⟩

end

/-! ### Entries of sets -/

/-- The entry with its class written out. -/
def SetItem.spelled : SetItem → List SetItem
  | .cls .digit => [.range '0' '9']
  | .cls .word => [.range 'a' 'z', .range 'A' 'Z', .range '0' '9', .char '_']
  | .cls .space => [.char ' ', .char '\t', .char '\r', .char '\n']
  | item => [item]

/-- The characters of an entry that is no class. -/
def SetItem.shown : SetItem → List Char
  | .char c => [c]
  | .range low high => [low, '-', high]
  | .cls _ => []

/-- Whether the entries up to the bracket are read as they are written: a bracket comes first or not at all, a range
    does not end in one, and what follows a single character is no dash, unless the dash comes last. -/
def readable (first : Bool) : List SetItem → Bool
  | [] => !first
  | .char c :: rest =>
    (c != ']' || first) && ((rest.flatMap SetItem.shown).head? != some '-' || rest == [.char '-']) && readable false rest
  | .range low high :: rest => (low != ']' || first) && high != ']' && readable false rest
  | .cls _ :: _ => false

/-- Whether a set is read as it is written: as a wildcard, or in brackets. -/
def CharSet.spellable (negation : Char) (chars : CharSet) : Bool :=
  let items := chars.items.flatMap SetItem.spelled
  chars.isClass .any ||
    readable true items && (chars.inverted || (items.flatMap SetItem.shown).head? != some negation)

theorem CharSet.eq_of_isClass {chars : CharSet} {kind : ClassKind} (h : chars.isClass kind = true) :
    chars = .ofClass kind := by
  obtain ⟨items, inverted⟩ := chars
  simp only [isClass, Bool.and_eq_true, Bool.not_eq_true', beq_iff_eq] at h
  rw [h.1, h.2]
  rfl

theorem SetItem.holds_spelled (item : SetItem) (c : Char) : item.spelled.any (·.holds c) = item.holds c := by
  cases item with
  | char | range => simp [spelled]
  | cls kind =>
    cases kind with
    | any => simp [spelled]
    | digit =>
      simp only [spelled, List.any_cons, List.any_nil, holds, ClassKind.holds, Bool.or_false, Char.isDigit]
      rfl
    | word =>
      have hletter : c.isAlpha = (decide ('A' ≤ c ∧ c ≤ 'Z') || (decide ('a' ≤ c) && decide (c ≤ 'z'))) := rfl
      simp only [spelled, List.any_cons, List.any_nil, holds, ClassKind.holds, Bool.or_false, Char.isAlphanum, hletter,
        Char.isDigit]
      rw [Bool.decide_and, ← Bool.or_assoc, ← Bool.or_assoc]
      congr 2
      exact Bool.or_comm _ _
    | space => simp [spelled, holds, ClassKind.holds, Bool.or_assoc]

theorem CharSet.holds_spelled (chars : CharSet) (c : Char) :
    CharSet.holds ⟨chars.items.flatMap SetItem.spelled, chars.inverted⟩ c = chars.holds c := by
  simp only [CharSet.holds, List.any_flatMap, SetItem.holds_spelled]

namespace Pattern

theorem setItems?_shown {first : Bool} {items : List SetItem} (h : readable first items = true) (rest : List Char) :
    setItems? first (items.flatMap SetItem.shown ++ ']' :: rest) = some (items, rest) := by
  induction items generalizing first with
  | nil =>
    cases first with
    | false => exact setItems?_close rest
    | true => cases h
  | cons item items ih =>
    cases item with
    | cls => cases h
    | range low high =>
      simp only [readable, Bool.and_eq_true, Bool.or_eq_true, bne_iff_ne, ne_eq] at h
      obtain ⟨⟨hlow, hhigh⟩, hitems⟩ := h
      have hfirst : ¬(low = ']' ∧ first = false) := by
        rintro ⟨hbracket, rfl⟩
        exact hlow.elim (absurd hbracket) Bool.false_ne_true
      simp only [List.flatMap_cons, SetItem.shown, List.cons_append, List.nil_append]
      rw [setItems?_range hfirst hhigh, ih hitems]
      rfl
    | char c =>
      simp only [readable, Bool.and_eq_true, Bool.or_eq_true, bne_iff_ne, ne_eq, beq_iff_eq] at h
      obtain ⟨⟨hc, hdash⟩, hitems⟩ := h
      have hfirst : ¬(c = ']' ∧ first = false) := by
        rintro ⟨hbracket, rfl⟩
        exact hc.elim (absurd hbracket) Bool.false_ne_true
      simp only [List.flatMap_cons, SetItem.shown, List.cons_append, List.nil_append]
      have hread := ih hitems
      cases htext : items.flatMap SetItem.shown with
      | nil =>
        rw [htext] at hread
        rw [List.nil_append] at hread ⊢
        rw [setItems?_char hfirst (absurd · (by decide)), hread]
        rfl
      | cons d more =>
        rw [htext] at hread
        rw [List.cons_append] at hread ⊢
        rw [setItems?_char hfirst ?_, hread]
        · rfl
        · -- A dash after a single character is the last entry.
          rintro rfl
          rcases hdash with hdash | rfl
          · rw [htext] at hdash
            exact absurd rfl hdash
          · cases htext
            rfl

theorem setText_cons {item : SetItem} (h : item ≠ .cls .any) (rest : List SetItem) :
    setText (item :: rest) = (setText rest).map (item.spelled.flatMap SetItem.shown ++ ·) := by
  cases item with
  | char c => exact setText_char c rest
  | range low high => exact setText_range low high rest
  | cls kind =>
    cases kind with
    | any => exact absurd rfl h
    | digit | word | space =>
      rw [setText]
      cases setText rest <;> rfl

theorem setText_eq_shown {items : List SetItem} {body : List Char} (h : setText items = .ok body) :
    body = (items.flatMap SetItem.spelled).flatMap SetItem.shown := by
  induction items generalizing body with
  | nil =>
    cases h
    rfl
  | cons item items ih =>
    by_cases hany : item = .cls .any
    · subst hany
      rw [setText] at h
      cases h
    · rw [setText_cons hany] at h
      obtain ⟨more, hitems, rfl⟩ := Result.map_eq_ok.mp h
      rw [ih hitems, List.flatMap_cons, List.flatMap_append]

theorem shown_ne_nil_of_readable {items : List SetItem} (h : readable true items = true) :
    items.flatMap SetItem.shown ≠ [] := by
  cases items with
  | nil => cases h
  | cons item items =>
    cases item with
    | char | range => simp [SetItem.shown]
    | cls => cases h

theorem set?_spelled {negation : Char} {chars : CharSet} (h : chars.spellable negation = true)
    (hany : chars.isClass .any = false) {body : List Char} (hbody : setText chars.items = .ok body) (rest : List Char) :
    set? negation ((if chars.inverted then [negation] else []) ++ body ++ ']' :: rest) =
      some (⟨chars.items.flatMap SetItem.spelled, chars.inverted⟩, rest) := by
  simp only [CharSet.spellable, hany, Bool.false_or, Bool.and_eq_true, Bool.or_eq_true, bne_iff_ne, ne_eq] at h
  obtain ⟨items, inverted⟩ := chars
  obtain ⟨hreadable, hstart⟩ := h
  have hread := setItems?_shown hreadable rest
  rw [← setText_eq_shown hbody] at hread hstart
  cases inverted with
  | true =>
    rw [if_pos rfl, List.singleton_append, List.cons_append, set?, if_pos rfl, hread]
    rfl
  | false =>
    rw [if_neg Bool.false_ne_true, List.nil_append]
    cases body with
    | nil => exact absurd (setText_eq_shown hbody).symm (shown_ne_nil_of_readable hreadable)
    | cons c body =>
      have hc : c ≠ negation := by
        rintro rfl
        exact hstart.elim Bool.false_ne_true (absurd rfl)
      rw [List.cons_append] at hread ⊢
      rw [set?, if_neg hc, hread]
      rfl

/-! ### Pieces -/

section
variable {S : WildcardSyntax} {cs ds unit shown : List Char} {R T : List Char → Span}

/-- A text that is read, wherever it stands, as pieces that lead like `R`. -/
def Renders (S : WildcardSyntax) (cs : List Char) (R : List Char → Span) : Prop :=
  ∃ ps, Spells S cs ps ∧ SequenceOrdered ps ∧ ∀ s, sequenceSpan s ps = R s

theorem renders_nil (S : WildcardSyntax) : Renders S [] fun _ => Eq :=
  ⟨[], spells_nil S, trivial, fun _ => rfl⟩

theorem renders_piece {p : Piece} (h : Spells S cs [p]) (hp : p.Ordered) (hR : ∀ s, p.span s = R s) : Renders S cs R :=
  ⟨[p], h, ⟨hp, trivial⟩, fun s => (sequenceSpan_singleton p).trans (hR s)⟩

theorem Renders.append (h : Renders S cs R) (h' : Renders S ds T) :
    Renders S (cs ++ ds) fun s => Span.comp (R s) (T s) := by
  obtain ⟨ps, hps, hordered, hR⟩ := h
  obtain ⟨qs, hqs, hordered', hT⟩ := h'
  refine ⟨ps ++ qs, hps.append hqs, sequenceOrdered_append.mpr ⟨hordered, hordered'⟩, fun s => ?_⟩
  rw [sequenceSpan_append, hR, hT]

theorem Renders.replicate (h : Renders S unit R) (n : Nat) :
    Renders S (List.replicate n unit).flatten fun s => Span.power (R s) n := by
  induction n with
  | zero => exact renders_nil S
  | succ n ih =>
    rw [List.replicate_succ, List.flatten_cons]
    exact h.append ih

/-- A repetition is written out; an open one ends in a character for any further uses. -/
theorem Renders.repeated {r : Repetition} {run : Option Char} (h : Renders S unit R)
    (hrun : ∀ c, run = some c → Renders S [c] fun s => Span.repeated .any (R s))
    (hshown : repeated unit r run = .ok shown) : Renders S shown fun s => Span.repeated r (R s) := by
  have hcopies := h.replicate r.least.toNat
  unfold Pattern.repeated at hshown
  split at hshown
  next most _ hmost =>
    split at hshown
    next heq =>
      cases hshown
      simp only [Span.repeated_exact (heq ▸ hmost)]
      exact hcopies
    next => cases hshown
  next c hmost =>
    cases hshown
    simp only [Span.repeated_open hmost]
    exact hcopies.append (hrun c rfl)
  next => cases hshown

theorem renders_run (hs : Clear S) {run : Char} (hrun : S.anyRun.head? = some run) :
    Renders S [run] fun s => Piece.anyRun.span s :=
  renders_piece (spells_run hrun (hs.run _ hrun)) nofun fun _ => rfl

theorem span_literal (value : String) (s : List Char) :
    (Piece.literal value).span s = (Piece.text value .once).once s :=
  Span.repeated_of_isOnce rfl _

/-- A character is written as it is, or made literal. -/
theorem exists_renders_char (hs : Clear S) (c : Char) (cs : List Char) :
    ∃ first, (Renders S first fun s => (Piece.text c.toString .once).once s) ∧
      escapeLiteral S (c :: cs) = (escapeLiteral S cs).map (first ++ ·) := by
  have honce : Repetition.once.Ordered := Repetition.ordered_of_isOnce rfl
  have hliteral : ∀ {cs}, Spells S cs [.literal c.toString] →
      Renders S cs fun s => (Piece.text c.toString .once).once s :=
    fun hspells => renders_piece hspells honce (span_literal c.toString)
  cases hspecial : S.isSpecial c with
  | false =>
    refine ⟨[c], hliteral (spells_literal hspecial), ?_⟩
    simp only [escapeLiteral, hspecial, Bool.not_false, if_true]
    cases escapeLiteral S cs <;> rfl
  | true =>
    cases hescape : S.escape with
    | some escape =>
      refine ⟨[escape, c], hliteral (spells_escaped hescape c), ?_⟩
      simp only [escapeLiteral, hspecial, Bool.not_true, Bool.false_eq_true, if_false, hescape]
      cases escapeLiteral S cs <;> rfl
    | none =>
      have hchar : CharSet.singleChar? ⟨[.char c], false⟩ = some c := rfl
      refine ⟨['[', c, ']'], renders_piece (spells_special hs hspecial hescape) honce fun s => ?_, ?_⟩
      · rw [Piece.span, Piece.count, Span.repeated_of_isOnce rfl, Piece.once_set_of_singleChar? hchar .once .once]
      · simp only [escapeLiteral, hspecial, Bool.not_true, Bool.false_eq_true, if_false, hescape,
          (hs.escapable hescape).1]
        cases escapeLiteral S cs <;> rfl

theorem renders_escapeLiteral (hs : Clear S) (h : escapeLiteral S cs = .ok shown) :
    Renders S shown fun s => (Piece.text (String.ofList cs) .once).once s := by
  induction cs generalizing shown with
  | nil =>
    cases h
    refine ⟨[], spells_nil S, trivial, fun s => ?_⟩
    have hempty : (String.ofList []).isEmpty = true := rfl
    exact (Piece.once_text_empty hempty .once).symm
  | cons c cs ih =>
    obtain ⟨first, hfirst, hcons⟩ := exists_renders_char hs c cs
    rw [hcons] at h
    obtain ⟨more, hmore, rfl⟩ := Result.map_eq_ok.mp h
    obtain ⟨ps, hspells, hordered, hspan⟩ := hfirst.append (ih hmore)
    refine ⟨ps, hspells, hordered, fun s => ?_⟩
    have htext : String.ofList (c :: cs) = c.toString ++ String.ofList cs := by
      rw [← String.toList_inj]
      simp
    rw [hspan, htext]
    exact (Piece.once_text_append c.toString (String.ofList cs) .once .once .once).symm

theorem renders_set {chars read : CharSet} (h : Spells S shown [.set read .once])
    (hholds : ∀ c, read.holds c = chars.holds c) (r : Repetition) :
    Renders S shown fun s => (Piece.set chars r).once s := by
  refine renders_piece h (Repetition.ordered_of_isOnce rfl) fun s => ?_
  rw [Piece.span, Piece.count, Span.repeated_of_isOnce rfl]
  simp only [Piece.once, funext hholds]

theorem renders_charSetText (hs : Clear S) {chars : CharSet} (hany : chars.isClass .any = false)
    (hchars : S.brackets = true ∧ chars.spellable S.negation = true ∨ S.brackets = false ∧ S.singleChar = none)
    (h : charSetText S chars = .ok shown) (r : Repetition) :
    Renders S shown fun s => (Piece.set chars r).once s := by
  have hbracketed : ∀ {shown}, charSetText.bracketed S chars = .ok shown →
      Renders S shown fun s => (Piece.set chars r).once s := by
    intro shown h
    rcases hchars with ⟨hbrackets, hchars⟩ | ⟨hbrackets, hsingle⟩
    · simp only [charSetText.bracketed, hbrackets, if_true] at h
      obtain ⟨body, hbody, rfl⟩ := Result.map_eq_ok.mp h
      refine renders_set (spells_bracket hs hbrackets fun rest => ?_) chars.holds_spelled r
      rw [List.append_assoc, List.singleton_append]
      exact set?_spelled hchars hany hbody rest
    · simp only [charSetText.bracketed, hbrackets, hsingle, Bool.false_eq_true, if_false] at h
      cases h
  unfold charSetText at h
  split at h
  next digit hdigit =>
    split at h
    next hclass =>
      cases h
      rw [CharSet.eq_of_isClass hclass]
      exact renders_set (spells_digit hs hdigit) (fun _ => rfl) r
    next => exact hbracketed h
  next => exact hbracketed h

end

end Pattern

/-! ### Sequences -/

mutual

/-- The pieces that are no groups, inside and outside of groups. -/
def Piece.leaves : Piece → List Piece
  | .group alternatives _ => alternativesLeaves alternatives
  | p => [p]

/-- The leaves of a sequence. -/
def sequenceLeaves : List Piece → List Piece
  | [] => []
  | p :: ps => p.leaves ++ sequenceLeaves ps

/-- The leaves of several sequences. -/
def alternativesLeaves : List (List Piece) → List Piece
  | [] => []
  | ps :: pss => sequenceLeaves ps ++ alternativesLeaves pss

end

namespace Pattern

/-- The leaves of a pattern. -/
def leaves (p : Pattern) : List Piece :=
  alternativesLeaves p.alternatives

/-- The sets among some pieces are read as they are written. -/
def Spellable (S : WildcardSyntax) (ps : List Piece) : Prop :=
  ∀ chars r, .set chars r ∈ ps → chars.spellable S.negation = true

/-- The sets among some pieces are read as they are written, or they cannot be written. -/
def Exact (S : WildcardSyntax) (ps : List Piece) : Prop :=
  S.brackets = true ∧ Spellable S ps ∨ S.brackets = false ∧ S.singleChar = none

theorem Spellable.mono {S : WildcardSyntax} {ps qs : List Piece} (h : Spellable S qs) (hsub : ps ⊆ qs) :
    Spellable S ps :=
  fun chars r hmem => h chars r (hsub hmem)

theorem Exact.mono {S : WildcardSyntax} {ps qs : List Piece} (h : Exact S qs) (hsub : ps ⊆ qs) : Exact S ps :=
  h.imp_left fun hsets => ⟨hsets.1, hsets.2.mono hsub⟩

section
variable {S : WildcardSyntax} {run : Char} {shown : List Char}

theorem renders_any (hs : Clear S) (hrun : S.anyRun.head? = some run) {r : Repetition}
    (h : pieceText S run (.set (.ofClass .any) r) = .ok shown) :
    Renders S shown fun s => (Piece.set (.ofClass .any) r).span s := by
  have hclass : (CharSet.ofClass .any).isClass .any = true := rfl
  simp only [pieceText, hclass, if_true] at h
  split at h
  next hany =>
    cases h
    simp only [Repetition.isAny, Bool.and_eq_true, beq_iff_eq] at hany
    obtain ⟨least, most, greedy⟩ := r
    obtain ⟨rfl, rfl⟩ := hany
    exact renders_run hs hrun
  next =>
    split at h
    next single hsingle =>
      have hone : Renders S [single] fun s => (Piece.set (.ofClass .any) r).once s :=
        renders_set (spells_single hs hsingle) (fun _ => rfl) r
      refine hone.repeated (fun c hc => ?_) h
      cases hc
      exact renders_run hs hrun
    next => cases h

mutual

/-- A piece that can be written is read as pieces that lead where it leads. -/
theorem renders_pieceText (hs : Clear S) (hrun : S.anyRun.head? = some run) :
    ∀ (p : Piece) {shown : List Char}, Exact S p.leaves → pieceText S run p = .ok shown →
      Renders S shown fun s => p.span s
  | .anchor place r, shown, _, h => by cases h
  | .text value r, shown, _, h => by
    obtain ⟨unit, hunit, h⟩ := Result.bind_eq_ok.mp h
    have htext := renders_escapeLiteral hs hunit
    rw [String.ofList_toList] at htext
    refine htext.repeated (fun c hc => ?_) h
    cases hc
  | .set chars r, shown, hsets, h => by
    cases hany : chars.isClass .any with
    | true =>
      rw [CharSet.eq_of_isClass hany] at h ⊢
      exact renders_any hs hrun h
    | false =>
      simp only [pieceText, hany, Bool.false_eq_true, if_false] at h
      obtain ⟨unit, hunit, h⟩ := Result.bind_eq_ok.mp h
      have hchars := hsets.imp_left (And.imp_right fun hset => hset chars r (by simp [Piece.leaves]))
      refine (renders_charSetText hs hany hchars hunit r).repeated (fun c hc => ?_) h
      cases hc
  | .group alternatives r, shown, hsets, h => by
    rw [pieceText] at h
    split at h
    next hone =>
      have hgroup := renders_groupText hs hrun alternatives hsets h
      simp only [Piece.span, Piece.count, Span.repeated_of_isOnce hone]
      exact hgroup
    next => cases h

theorem renders_sequenceText (hs : Clear S) (hrun : S.anyRun.head? = some run) :
    ∀ (ps : List Piece) {shown : List Char}, Exact S (sequenceLeaves ps) → sequenceText S run ps = .ok shown →
      Renders S shown fun s => sequenceSpan s ps
  | [], shown, _, h => by
    cases h
    exact renders_nil S
  | p :: ps, shown, hsets, h => by
    rw [sequenceText] at h
    obtain ⟨first, hfirst, h⟩ := Result.bind_eq_ok.mp h
    obtain ⟨rest, hrest, h⟩ := Result.bind_eq_ok.mp h
    cases Result.pure_eq_ok.mp h
    have hp := renders_pieceText hs hrun p (hsets.mono (List.subset_append_left _ _)) hfirst
    have hps := renders_sequenceText hs hrun ps (hsets.mono (List.subset_append_right _ _)) hrest
    exact hp.append hps

theorem renders_groupText (hs : Clear S) (hrun : S.anyRun.head? = some run) :
    ∀ (pss : List (List Piece)) {shown : List Char}, Exact S (alternativesLeaves pss) →
      groupText S run pss = .ok shown → Renders S shown fun s => alternativesSpan s pss
  | [], shown, _, h => by cases h
  | [ps], shown, hsets, h => by
    rw [groupText] at h
    have hps := renders_sequenceText hs hrun ps (hsets.mono (List.subset_append_left _ _)) h
    simp only [alternativesSpan, or_false]
    exact hps
  | _ :: _ :: _, shown, _, h => by cases h

end

end

end Pattern

end ItemQuery
