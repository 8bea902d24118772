import Mathlib.Algebra.Order.Ring.Nat
import Mathlib.Data.List.Chain
import ItemQuery.Pattern.Regex
import ItemQuery.Proofs.Pattern.Rendering

/-! Properties that hold of every piece of a pattern, however deep it lies. Reading a regular expression establishes
    such a property atom by atom, and simplification keeps it if it does not depend on how often a piece that is no
    anchor repeats. -/

namespace ItemQuery

mutual

/-- The property holds of a piece and of all pieces inside of it. -/
def Piece.Everywhere (P : Piece → Prop) : Piece → Prop
  | .anchor place r => P (.anchor place r)
  | .set chars r => P (.set chars r)
  | .text value r => P (.text value r)
  | .group alternatives r => P (.group alternatives r) ∧ AlternativesEverywhere P alternatives

/-- The property holds of all pieces of a sequence. -/
def SequenceEverywhere (P : Piece → Prop) : List Piece → Prop
  | [] => True
  | p :: ps => p.Everywhere P ∧ SequenceEverywhere P ps

/-- The property holds of all pieces of several sequences. -/
def AlternativesEverywhere (P : Piece → Prop) : List (List Piece) → Prop
  | [] => True
  | ps :: pss => SequenceEverywhere P ps ∧ AlternativesEverywhere P pss

end

variable {P Q R : Piece → Prop}

theorem sequenceEverywhere_iff {ps : List Piece} : SequenceEverywhere P ps ↔ ∀ p ∈ ps, p.Everywhere P := by
  induction ps with
  | nil => simp [SequenceEverywhere]
  | cons p ps ih => simp [SequenceEverywhere, ih]

theorem alternativesEverywhere_iff {pss : List (List Piece)} :
    AlternativesEverywhere P pss ↔ ∀ ps ∈ pss, SequenceEverywhere P ps := by
  induction pss with
  | nil => simp [AlternativesEverywhere]
  | cons ps pss ih => simp [AlternativesEverywhere, ih]

theorem sequenceEverywhere_append {ps qs : List Piece} :
    SequenceEverywhere P (ps ++ qs) ↔ SequenceEverywhere P ps ∧ SequenceEverywhere P qs := by
  simp only [sequenceEverywhere_iff, List.mem_append, or_imp, forall_and]

section

mutual

theorem Piece.Everywhere.combine (h : ∀ p, P p → Q p → R p) :
    ∀ {p : Piece}, p.Everywhere P → p.Everywhere Q → p.Everywhere R
  | .anchor _ _, hP, hQ => h _ hP hQ
  | .set _ _, hP, hQ => h _ hP hQ
  | .text _ _, hP, hQ => h _ hP hQ
  | .group _ _, hP, hQ => ⟨h _ hP.1 hQ.1, AlternativesEverywhere.combine h hP.2 hQ.2⟩

theorem SequenceEverywhere.combine (h : ∀ p, P p → Q p → R p) :
    ∀ {ps : List Piece}, SequenceEverywhere P ps → SequenceEverywhere Q ps → SequenceEverywhere R ps
  | [], _, _ => trivial
  | _ :: _, hP, hQ => ⟨Piece.Everywhere.combine h hP.1 hQ.1, SequenceEverywhere.combine h hP.2 hQ.2⟩

theorem AlternativesEverywhere.combine (h : ∀ p, P p → Q p → R p) :
    ∀ {pss : List (List Piece)}, AlternativesEverywhere P pss → AlternativesEverywhere Q pss →
      AlternativesEverywhere R pss
  | [], _, _ => trivial
  | _ :: _, hP, hQ => ⟨SequenceEverywhere.combine h hP.1 hQ.1, AlternativesEverywhere.combine h hP.2 hQ.2⟩

end

mutual

/-- A property of all groups holds everywhere if it holds of the leaves. -/
theorem Piece.everywhere_iff_leaves (hP : ∀ pss r, P (.group pss r)) :
    ∀ p : Piece, p.Everywhere P ↔ ∀ x ∈ p.leaves, P x
  | .anchor _ _ => by simp [Piece.Everywhere, Piece.leaves]
  | .set _ _ => by simp [Piece.Everywhere, Piece.leaves]
  | .text _ _ => by simp [Piece.Everywhere, Piece.leaves]
  | .group pss _ => by
    rw [Piece.Everywhere, Piece.leaves, ← alternativesEverywhere_iff_leaves hP pss]
    exact and_iff_right (hP _ _)

theorem sequenceEverywhere_iff_leaves (hP : ∀ pss r, P (.group pss r)) :
    ∀ ps : List Piece, SequenceEverywhere P ps ↔ ∀ x ∈ sequenceLeaves ps, P x
  | [] => by simp [SequenceEverywhere, sequenceLeaves]
  | p :: ps => by
    simp only [SequenceEverywhere, sequenceLeaves, List.forall_mem_append, Piece.everywhere_iff_leaves hP p,
      sequenceEverywhere_iff_leaves hP ps]

theorem alternativesEverywhere_iff_leaves (hP : ∀ pss r, P (.group pss r)) :
    ∀ pss : List (List Piece), AlternativesEverywhere P pss ↔ ∀ x ∈ alternativesLeaves pss, P x
  | [] => by simp [AlternativesEverywhere, alternativesLeaves]
  | ps :: pss => by
    simp only [AlternativesEverywhere, alternativesLeaves, List.forall_mem_append, sequenceEverywhere_iff_leaves hP ps,
      alternativesEverywhere_iff_leaves hP pss]

end

end

/-! ### Simplification -/

theorem Piece.length_simplifiedAlternatives : ∀ pss, (simplifiedAlternatives pss).length = pss.length
  | [] => rfl
  | ps :: pss => by
    rw [simplifiedAlternatives, List.length_cons, length_simplifiedAlternatives pss, List.length_cons]

theorem Piece.Everywhere.self {p : Piece} (h : p.Everywhere P) : P p := by
  cases p with
  | anchor | set | text => exact h
  | group => exact h.1

theorem Piece.Everywhere.merge? {a b m : Piece} (h : Piece.merge? a b = some m) (ha : a.Everywhere P) (hm : P m) :
    m.Everywhere P := by
  cases Piece.merging_of_merge? h with
  | texts | anchors => exact hm
  | sum =>
    cases a with
    | anchor | set | text => exact hm
    | group => exact ⟨hm, ha.2⟩

/-- How simplification establishes a property of all pieces and one of all neighbours: `raw` holds of every piece
    before it, `done` of every piece after it, and `near` of two neighbours. -/
structure Settling (raw done : Piece → Prop) (near : Piece → Piece → Prop) : Prop where
  anchor : ∀ {place r}, raw (.anchor place r) → done (.anchor place r)
  char : ∀ {chars c r}, chars.singleChar? = some c → raw (.set chars r) → done (.text c.toString r)
  set : ∀ {chars r}, chars.singleChar? = none → raw (.set chars r) → done (.set chars r)
  text : ∀ {value r}, value ≠ "" → raw (.text value r) → done (.text value r)
  group : ∀ {pss qss r}, pss.length = qss.length → (qss.length = 1 → r.isOnce = false) →
    (∀ qs ∈ qss, qs.IsChain near) → raw (.group pss r) → done (.group qss r)
  merge : ∀ {a b m}, Piece.merge? a b = some m → done a → done b → done m
  /-- What stands before a piece may stand before what the piece is merged to. -/
  closer : ∀ {o a b m}, Piece.merge? a b = some m → done o → done a → done b → near o a → near o m
  apart : ∀ {a b}, Piece.merge? a b = none → done a → done b → near a b

namespace Settling
variable {raw done : Piece → Prop} {near : Piece → Piece → Prop}

theorem pushMerged (hS : Settling raw done near) {rev : List Piece} {p : Piece} (hrev : SequenceEverywhere done rev)
    (hchain : rev.IsChain (flip near)) (hp : p.Everywhere done) :
    SequenceEverywhere done (Piece.pushMerged rev p) ∧ (Piece.pushMerged rev p).IsChain (flip near) := by
  cases rev with
  | nil => exact ⟨⟨hp, trivial⟩, .singleton p⟩
  | cons last before =>
    simp only [Piece.pushMerged]
    split
    next m hm =>
      refine ⟨⟨hrev.1.merge? hm (hS.merge hm hrev.1.self hp.self), hrev.2⟩, ?_⟩
      cases before with
      | nil => exact .singleton m
      | cons other before =>
        rw [List.isChain_cons_cons] at hchain ⊢
        exact ⟨hS.closer hm hrev.2.1.self hrev.1.self hp.self hchain.1, hchain.2⟩
    next hnone => exact ⟨⟨hp, hrev⟩, hchain.cons_cons (hS.apart hnone hrev.1.self hp.self)⟩

theorem foldl_pushMerged (hS : Settling raw done near) {ps rev : List Piece} (hrev : SequenceEverywhere done rev)
    (hchain : rev.IsChain (flip near)) (hps : SequenceEverywhere done ps) :
    SequenceEverywhere done (ps.foldl Piece.pushMerged rev) ∧ (ps.foldl Piece.pushMerged rev).IsChain (flip near) := by
  refine List.foldlRecOn ps Piece.pushMerged
    (motive := fun rev => SequenceEverywhere done rev ∧ rev.IsChain (flip near)) ⟨hrev, hchain⟩ ?_
  exact fun _ hrev p hp => hS.pushMerged hrev.1 hrev.2 (sequenceEverywhere_iff.mp hps p hp)

mutual

theorem simplified (hS : Settling raw done near) : ∀ p : Piece, p.Everywhere raw → SequenceEverywhere done p.simplified
  | .anchor place r, h => by
    rw [Piece.simplified]
    exact ⟨hS.anchor h, trivial⟩
  | .set chars r, h => by
    rw [Piece.simplified]
    split
    next c hc => exact ⟨hS.char hc h, trivial⟩
    next hnone => exact ⟨hS.set hnone h, trivial⟩
  | .text value r, h => by
    rw [Piece.simplified]
    split
    next => exact trivial
    next hvalue => exact ⟨hS.text (by simpa using hvalue) h, trivial⟩
  | .group alternatives r, h => by
    obtain ⟨hinner, hchain⟩ := hS.simplifiedAlternatives alternatives h.2
    have hlength := (Piece.length_simplifiedAlternatives alternatives).symm
    rw [Piece.simplified]
    split
    next only honly =>
      rw [honly] at hinner hchain hlength
      split
      next => exact hinner.1
      next honce => exact ⟨⟨hS.group hlength (fun _ => by simpa using honce) hchain h.1, hinner⟩, trivial⟩
    next hseveral =>
      have hlone : (Piece.simplifiedAlternatives alternatives).length ≠ 1 := fun hlone =>
        (List.length_eq_one_iff.mp hlone).elim hseveral
      exact ⟨⟨hS.group hlength (absurd · hlone) hchain h.1, hinner⟩, trivial⟩

theorem simplifiedSequence (hS : Settling raw done near) : ∀ ps rev : List Piece, SequenceEverywhere done rev →
    rev.IsChain (flip near) → SequenceEverywhere raw ps →
    SequenceEverywhere done (Piece.simplifiedSequence rev ps) ∧ (Piece.simplifiedSequence rev ps).IsChain near
  | [], rev, hrev, hchain, _ => by
    rw [Piece.simplifiedSequence, List.isChain_reverse, sequenceEverywhere_iff]
    exact ⟨fun p hp => sequenceEverywhere_iff.mp hrev p (List.mem_reverse.mp hp), hchain⟩
  | p :: ps, rev, hrev, hchain, hps => by
    obtain ⟨hdone, hdone'⟩ := hS.foldl_pushMerged hrev hchain (hS.simplified p hps.1)
    rw [Piece.simplifiedSequence]
    exact hS.simplifiedSequence ps _ hdone hdone' hps.2

theorem simplifiedAlternatives (hS : Settling raw done near) : ∀ pss : List (List Piece),
    AlternativesEverywhere raw pss → AlternativesEverywhere done (Piece.simplifiedAlternatives pss) ∧
      ∀ ps ∈ Piece.simplifiedAlternatives pss, ps.IsChain near
  | [], _ => by
    rw [Piece.simplifiedAlternatives]
    exact ⟨trivial, nofun⟩
  | ps :: pss, h => by
    obtain ⟨hps, hchain⟩ := hS.simplifiedSequence ps [] trivial .nil h.1
    obtain ⟨hpss, hchains⟩ := hS.simplifiedAlternatives pss h.2
    rw [Piece.simplifiedAlternatives]
    exact ⟨⟨hps, hpss⟩, List.forall_mem_cons.mpr ⟨hchain, hchains⟩⟩

end

end Settling

/-- What keeps a property through simplification: it is one of characters and of appended texts, and depends neither
    on the repetition of a piece that is no anchor nor on what stands inside a group. -/
structure Lasting (P : Piece → Prop) : Prop where
  char : ∀ (c : Char) r, P (.text c.toString r)
  append : ∀ {x y r q}, P (.text x r) → P (.text y q) → P (.text (x ++ y) r)
  withCount : ∀ {p} r, (∀ place q, p ≠ .anchor place q) → P p → P (p.withCount r)
  group : ∀ {pss qss r}, pss.length = qss.length → P (.group pss r) → P (.group qss r)

namespace Lasting

theorem settling (hP : Lasting P) : Settling P P fun _ _ => True where
  anchor := id
  char _ _ := hP.char _ _
  set _ := id
  text _ := id
  group hlength _ _ := hP.group hlength
  merge h ha hb := by
    cases Piece.merging_of_merge? h with
    | texts => exact hP.append ha hb
    | anchors => exact ha
    | sum hanchor => exact hP.withCount _ hanchor ha
  closer _ _ _ _ := id
  apart _ _ _ := trivial

theorem everywhere_simplifiedAlternatives (hP : Lasting P) (pss : List (List Piece))
    (h : AlternativesEverywhere P pss) : AlternativesEverywhere P (Piece.simplifiedAlternatives pss) :=
  (hP.settling.simplifiedAlternatives pss h).1

end Lasting

/-! ### Reading -/

namespace Pattern

theorem everywhere_alternatives {g : OpenGroup} : AlternativesEverywhere P g.alternatives ↔
    SequenceEverywhere P g.current ∧ AlternativesEverywhere P g.before := by
  simp only [OpenGroup.alternatives, alternativesEverywhere_iff, sequenceEverywhere_iff, List.mem_reverse,
    List.mem_cons, forall_eq_or_imp]

theorem everywhere_push {g : OpenGroup} {p : Piece} (hg : AlternativesEverywhere P g.alternatives)
    (hp : p.Everywhere P) : AlternativesEverywhere P (g.push p).alternatives := by
  rw [everywhere_alternatives] at hg ⊢
  exact ⟨⟨hp, hg.1⟩, hg.2⟩

theorem everywhere_bar {g : OpenGroup} (hg : AlternativesEverywhere P g.alternatives) :
    AlternativesEverywhere P g.bar.alternatives := by
  rw [everywhere_alternatives] at hg ⊢
  refine ⟨trivial, ?_, hg.2⟩
  rw [sequenceEverywhere_iff] at hg ⊢
  exact fun p hp => hg.1 p (List.mem_reverse.mp hp)

theorem everywhere_atom? {position : Nat} {c : Char} {rest more : List Char} {piece : Repetition → Piece}
    (h : atom? position c rest = .ok (piece, more)) {r : Repetition} (hpiece : P (piece r)) :
    (piece r).Everywhere P := by
  unfold atom? at h
  split at h
  · split at h <;> cases h
    exact hpiece
  · cases h
    exact hpiece
  · cases h
    exact hpiece
  · cases h
    exact hpiece
  · split at h <;> cases h
    unfold escaped at hpiece ⊢
    split <;> simpa only [Piece.Everywhere] using hpiece
  · split at h <;> cases h
    exact hpiece

/-- What holds of every atom, with an anchor used once, and of every group with at least one alternative holds of all
    pieces that are read. -/
theorem everywhere_of_readRegex
    (hatom : ∀ {position c rest more} {piece : Repetition → Piece}, atom? position c rest = .ok (piece, more) →
      ∀ r, (∀ place q, piece r = .anchor place q → q = .once) → P (piece r))
    (hgroup : ∀ {pss r}, pss ≠ [] → P (.group pss r))
    {total : Nat} {top : OpenGroup} {outer : List OpenGroup} {cs : List Char} {p : Pattern}
    (h : readRegex total top outer cs = .ok p) (htop : AlternativesEverywhere P top.alternatives)
    (houter : ∀ g ∈ outer, AlternativesEverywhere P g.alternatives) :
    p.alternatives ≠ [] ∧ AlternativesEverywhere P p.alternatives := by
  have hne : ∀ g : OpenGroup, g.alternatives ≠ [] := fun g => by simp [OpenGroup.alternatives]
  -- On the number of characters that are left; an atom takes at least one of them.
  induction hlength : cs.length using Nat.strong_induction_on generalizing top outer cs with
  | _ n ih =>
  subst hlength
  unfold readRegex at h
  split at h
  next =>
    split at h
    next =>
      cases h
      exact ⟨hne top, htop⟩
    next => cases h
  next rest => exact ih _ (by simp) h (everywhere_bar htop) houter rfl
  next rest =>
    have hless := length_afterMark_le rest
    refine ih _ (by rw [List.length_cons]; omega) h ⟨trivial, trivial⟩ ?_ rfl
    exact List.forall_mem_cons.mpr ⟨htop, houter⟩
  next rest =>
    split at h
    next => cases h
    next around outer =>
      obtain ⟨haround, houter⟩ := List.forall_mem_cons.mp houter
      have hless := length_quantifier_le rest
      exact ih _ (by rw [List.length_cons]; omega) h (everywhere_push haround ⟨hgroup (hne top), htop⟩) houter rfl
  next c rest _ _ _ =>
    split at h
    next => cases h
    next piece more hread =>
      have hless : (quantifier more).2.length < (c :: rest).length := by
        have := length_quantifier_le more
        have := length_atom?_le hread
        rw [List.length_cons]
        omega
      split at h
      next place r hpiece =>
        split at h
        next honce =>
          have hanchor : P (piece (quantifier more).1) := by
            refine hatom hread _ fun place' q heq => ?_
            rw [hpiece] at heq
            cases heq
            exact honce
          exact ih _ hless h (everywhere_push htop (hpiece ▸ everywhere_atom? hread hanchor)) houter rfl
        next => cases h
      next hother =>
        have hpiece := hatom hread (quantifier more).1 fun place q heq => (hother place q heq).elim
        exact ih _ hless h (everywhere_push htop (everywhere_atom? hread hpiece)) houter rfl

/-- What simplification keeps and reading establishes holds of all pieces of a regular expression. -/
theorem everywhere_of_ofRegex (hP : Lasting P)
    (hatom : ∀ {position c rest more} {piece : Repetition → Piece}, atom? position c rest = .ok (piece, more) →
      ∀ r, (∀ place q, piece r = .anchor place q → q = .once) → P (piece r))
    (hgroup : ∀ {pss r}, pss ≠ [] → P (.group pss r)) {value : String} {p : Pattern} (h : ofRegex value = .ok p) :
    p.alternatives ≠ [] ∧ AlternativesEverywhere P p.alternatives := by
  obtain ⟨raw, hraw, rfl⟩ := Result.map_eq_ok.mp h
  obtain ⟨hne, hraw⟩ := everywhere_of_readRegex hatom hgroup hraw ⟨trivial, trivial⟩ nofun
  refine ⟨?_, hP.everywhere_simplifiedAlternatives _ hraw⟩
  rw [← List.length_pos_iff] at hne ⊢
  exact (Piece.length_simplifiedAlternatives raw.alternatives).symm ▸ hne

end Pattern

end ItemQuery
