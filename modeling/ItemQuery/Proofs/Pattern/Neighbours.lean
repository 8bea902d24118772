import ItemQuery.Proofs.Pattern.Canonical
import ItemQuery.Proofs.Pattern.RegexText

/-! What is left after simplification, at every nesting level. Merging looks at the last piece only, and a merged piece
    is not compared with the one before it again. That does no harm as long as a sum of bounds is neither once, which
    takes an upper bound of zero, nor unbounded after a bound that was too large to be added. -/

namespace ItemQuery

/-- The sequences of alternatives at every nesting level: the alternatives and those of the groups inside of them. -/
inductive Level (pss : List (List Piece)) : List Piece → Prop
  | outer {ps : List Piece} (h : ps ∈ pss) : Level pss ps
  | inner {ps qs : List Piece} {qss : List (List Piece)} {r : Repetition} (h : Level pss ps)
      (hgroup : .group qss r ∈ ps) (hqs : qs ∈ qss) : Level pss qs

namespace Level
variable {P : Piece → Prop} {pss qss : List (List Piece)} {ps : List Piece}

theorem mono (hsub : pss ⊆ qss) (h : Level pss ps) : Level qss ps := by
  induction h with
  | outer h => exact .outer (hsub h)
  | inner _ hgroup hqs ih => exact .inner ih hgroup hqs

/-- The levels of a group are levels of the sequence that it stands in. -/
theorem of_group {r : Repetition} {qs : List Piece} (hps : ps ∈ pss) (hgroup : .group qss r ∈ ps) (h : Level qss qs) :
    Level pss qs := by
  induction h with
  | outer h => exact .inner (.outer hps) hgroup h
  | inner _ hinner hqs ih => exact .inner ih hinner hqs

theorem everywhere (hpss : AlternativesEverywhere P pss) (h : Level pss ps) : SequenceEverywhere P ps := by
  induction h with
  | outer h => exact alternativesEverywhere_iff.mp hpss _ h
  | inner _ hgroup hqs ih => exact alternativesEverywhere_iff.mp (sequenceEverywhere_iff.mp ih _ hgroup).2 _ hqs

theorem forall_mem (hpss : AlternativesEverywhere P pss) (h : Level pss ps) : ∀ p ∈ ps, P p :=
  fun p hp => (sequenceEverywhere_iff.mp (h.everywhere hpss) p hp).self

end Level

/-! ### Bounds -/

namespace Number

theorem exists_addCounts?_iff {a b : UInt32} : (∃ c, addCounts? a b = some c) ↔ a.toNat + b.toNat < UInt32.size := by
  unfold addCounts?
  split <;> simp_all

end Number

namespace Piece
variable {o a b m : Piece} {r t : Repetition}

theorem greedy_of_sum? {q : Repetition} (h : sum? r q = some t) : t.greedy = r.greedy := by
  unfold sum? at h
  split at h
  · cases h
  · obtain ⟨_, -, rfl⟩ := Option.map_eq_some_iff.mp h
    rfl
  · cases h
    rfl

theorem exists_sum? {q : Repetition} (hleast : r.least.toNat + q.least.toNat < UInt32.size)
    (hmost : ∀ x y, r.most = some x → q.most = some y → x.toNat + y.toNat < UInt32.size) : ∃ t, sum? r q = some t := by
  obtain ⟨least, hleast⟩ := Number.exists_addCounts?_iff.mpr hleast
  unfold sum?
  rw [hleast]
  cases hx : r.most with
  | none => exact ⟨_, rfl⟩
  | some x =>
    cases hy : q.most with
    | none => exact ⟨_, rfl⟩
    | some y =>
      obtain ⟨most, hmost⟩ := Number.exists_addCounts?_iff.mpr (hmost x y hx hy)
      simp only [hmost]
      exact ⟨_, rfl⟩

/-- The upper bound of a sum is the sum of two upper bounds. -/
theorem bounds_of_most {q : Repetition} {z : UInt32} (h : sum? r q = some t) (hz : t.most = some z) :
    ∃ x y, r.most = some x ∧ q.most = some y ∧ z.toNat = x.toNat + y.toNat := by
  obtain ⟨-, hboth, hnone⟩ := bounds_of_sum? h
  cases hx : r.most with
  | none => rw [hnone (Or.inl hx)] at hz; cases hz
  | some x =>
    cases hy : q.most with
    | none => rw [hnone (Or.inr hy)] at hz; cases hz
    | some y =>
      obtain ⟨w, hw, hsum⟩ := hboth x y hx hy
      rw [hw, Option.some.injEq] at hz
      exact ⟨x, y, rfl, rfl, hz ▸ hsum⟩

/-- Without bounds of zero, a sum is never once. -/
theorem most_of_sum? {q : Repetition} (h : sum? r q = some t) (hr : r.most ≠ some 0) (hq : q.most ≠ some 0) :
    t.isOnce = false ∧ t.most ≠ some 0 := by
  have hlarge : ∀ z, t.most = some z → 2 ≤ z.toNat := by
    intro z hz
    obtain ⟨x, y, hx, hy, hsum⟩ := bounds_of_most h hz
    have hpos : ∀ w : UInt32, w ≠ 0 → w.toNat ≠ 0 := fun w hw hzero => hw (UInt32.toNat_inj.mp hzero)
    have hx := hpos x fun hzero => hr (hx.trans (congrArg some hzero))
    have hy := hpos y fun hzero => hq (hy.trans (congrArg some hzero))
    omega
  constructor
  · rw [Bool.eq_false_iff]
    intro honce
    simp only [Repetition.isOnce, Bool.and_eq_true, beq_iff_eq] at honce
    exact absurd (hlarge 1 honce.2) (by decide)
  · exact fun hzero => absurd (hlarge 0 hzero) (by decide)

/-! ### Neighbours -/

/-- Neighbours that could be merged but are passed over: a bounded piece, then one of the same kind without an upper
    bound. -/
structure Overlooked (a b : Piece) : Prop where
  kind : sameKind a b = true
  greedy : a.count.greedy = b.count.greedy
  bounded : a.count.most ≠ none
  unbounded : b.count.most = none
  least : a.count.least.toNat + b.count.least.toNat < UInt32.size

/-- Only neighbours that are passed over could be merged. -/
def Near (a b : Piece) : Prop :=
  merge? a b ≠ none → Overlooked a b

theorem most_of_isOnce (h : r.isOnce = true) : r.most = some 1 := by
  simp only [Repetition.isOnce, Bool.and_eq_true, beq_iff_eq] at h
  exact h.2

/-- Literals that occur once are always merged. -/
theorem merge?_texts {x y : String} (hr : r.isOnce = true) (ht : t.isOnce = true) :
    merge? (text x r) (text y t) ≠ none := by
  simp [merge?, hr, ht]

theorem Near.literal? (h : Near a b) : a.literal? = none ∨ b.literal? = none := by
  by_contra hboth
  rw [not_or] at hboth
  obtain ⟨ha, hb⟩ := hboth
  cases a with
  | text x r =>
    cases b with
    | text y t =>
      have hr : r.isOnce = true := by simpa [Piece.literal?] using ha
      have ht : t.isOnce = true := by simpa [Piece.literal?] using hb
      have hnone := (h (merge?_texts hr ht)).unbounded
      exact Option.some_ne_none _ ((most_of_isOnce ht).symm.trans hnone)
    | _ => exact hb rfl
  | _ => exact ha rfl

/-! ### Single pieces -/

/-- A piece in its simplest form: no set of one character and no empty literal. -/
def Plain : Piece → Prop
  | set chars _ => chars.singleChar? = none
  | text value _ => value ≠ ""
  | anchor _ _ => True
  | group _ _ => True

theorem Plain.withCount (r : Repetition) (h : a.Plain) : (a.withCount r).Plain := by
  cases a <;> exact h

/-- Simplification leaves plain pieces, whatever their bounds are. -/
theorem settling_plain : Settling (fun _ => True) Plain fun _ _ => True where
  anchor _ := trivial
  char _ _ := by simp [Plain]
  set h _ := h
  text h _ := h
  group _ _ _ _ := trivial
  merge h ha _ := by
    cases merging_of_merge? h with
    | texts => exact fun hempty => ha (String.append_eq_empty_iff.mp hempty).1
    | anchors => trivial
    | sum => exact ha.withCount _
  closer _ _ _ _ := id
  apart _ _ _ := trivial

/-- A piece as it is read, with an upper bound that is not zero. -/
structure Read (p : Piece) : Prop where
  counted : p.count.most ≠ some 0
  anchor : ∀ place r, p = anchor place r → r = .once
  text : ∀ value r, p = text value r → value.length = 1

/-- What simplification makes of such pieces: a literal has one character or occurs once, and a group that occurs once
    has several alternatives. -/
structure Reduced (p : Piece) : Prop where
  plain : p.Plain
  counted : p.count.most ≠ some 0
  anchor : ∀ place r, p = anchor place r → r = .once
  text : ∀ value r, p = text value r → r.isOnce = false → value.length = 1
  lone : ∀ pss r, p = group pss r → pss.length = 1 → r.isOnce = false
  inner : ∀ pss r, p = group pss r → ∀ ps ∈ pss, ps.IsChain Near

theorem Reduced.sum {s : Repetition} (ha : a.Reduced) (hb : b.Reduced) (hanchor : ∀ place q, a ≠ .anchor place q)
    (hliteral : a.literal? = none ∨ b.literal? = none) (hkind : sameKind a b = true)
    (hsum : sum? a.count b.count = some s) : (a.withCount s).Reduced where
  plain := ha.plain.withCount s
  counted := by
    rw [count_withCount]
    exact (most_of_sum? hsum ha.counted hb.counted).2
  anchor place r h := by
    cases a with
    | anchor place q => exact absurd rfl (hanchor place q)
    | set | text | group => cases h
  text value r h honce := by
    cases a with
    | anchor | set | group => cases h
    | text x t =>
      cases h
      cases b with
      | anchor | set | group => simp [sameKind, withCount, same] at hkind
      | text y q =>
        have hxy : value = y := by simpa [sameKind, withCount, same] using hkind
        rcases hliteral with hnone | hnone
        · exact ha.text value t rfl (by simpa [literal?] using hnone)
        · rw [hxy]
          exact hb.text y q rfl (by simpa [literal?] using hnone)
  lone pss r h _ := by
    cases a with
    | anchor | set | text => cases h
    | group =>
      cases h
      exact (most_of_sum? hsum ha.counted hb.counted).1
  inner pss r h := by
    cases a with
    | anchor | set | text => cases h
    | group qss q =>
      cases h
      exact ha.inner pss q rfl

theorem Reduced.merge? (h : merge? a b = some m) (ha : a.Reduced) (hb : b.Reduced) : m.Reduced := by
  have hplain := settling_plain.merge h ha.plain hb.plain
  cases merging_of_merge? h with
  | texts hr hq =>
    refine ⟨hplain, ha.counted, nofun, ?_, nofun, nofun⟩
    rintro _ _ ⟨⟩ honce
    exact absurd hr (by simp [honce])
  | anchors => exact ha
  | sum hanchor hliteral hkind _ hsum => exact ha.sum hb hanchor hliteral hkind hsum

theorem sameKind_withCount (a b : Piece) (r : Repetition) : sameKind a (b.withCount r) = sameKind a b := by
  cases b <;> rfl

/-- What stands near a piece stands near its sum with another one. -/
theorem Near.sum {s : Repetition} (h : Near o a) (hanchor : ∀ place q, o ≠ anchor place q)
    (hkind : sameKind o a = true) (hgreedy : o.count.greedy = a.count.greedy) (hsum : sum? a.count b.count = some s)
    (hrest : sum? o.count s = some t) : Overlooked o (a.withCount s) := by
  have hleast := (bounds_of_sum? hsum).1
  have hfit := (bounds_of_sum? hrest).1
  have hsize := t.least.toNat_lt_size
  by_contra hnot
  have hbounded : o.count.most = none ∨ s.most ≠ none := by
    by_contra hother
    rw [not_or, not_not] at hother
    refine hnot ⟨sameKind_withCount o a s ▸ hkind, ?_, hother.1, ?_, ?_⟩
    · rw [count_withCount, greedy_of_sum? hsum, hgreedy]
    · rw [count_withCount, hother.2]
    · rw [count_withCount]
      omega
  -- The neighbours would have been merged before the sum, whose bounds are not smaller.
  have hmerge : merge? o a ≠ none := by
    refine (exists_sum? (by omega) fun x y hx hy => ?_).elim fun _ => merge?_ne_none hanchor hkind hgreedy
    obtain ⟨z, hz⟩ := Option.ne_none_iff_exists'.mp (hbounded.resolve_left (by rw [hx]; nofun))
    obtain ⟨y', w, hy', -, hzw⟩ := bounds_of_most hsum hz
    rw [hy, Option.some.injEq] at hy'
    obtain ⟨u, -, hu⟩ := (bounds_of_sum? hrest).2.1 x z hx hz
    have := u.toNat_lt_size
    rw [hy'] at *
    omega
  have hover := h hmerge
  exact hbounded.elim hover.bounded (absurd ((bounds_of_sum? hsum).2.2 (Or.inl hover.unbounded)))

theorem Near.merge? (h : merge? a b = some m) (ho : o.Reduced) (ha : a.Reduced) (hb : b.Reduced) (hnear : Near o a) :
    Near o m := by
  intro hmerge
  obtain ⟨n, hn⟩ := Option.ne_none_iff_exists'.mp hmerge
  cases merging_of_merge? h with
  | @texts x y r q hr hq =>
    cases merging_of_merge? hn with
    | texts ht _ =>
      have hnone := (hnear (merge?_texts ht hr)).unbounded
      exact absurd ((most_of_isOnce hr).symm.trans hnone) nofun
    | sum _ hliteral hkind _ _ =>
      -- A literal of several characters occurs once, and is merged with the next one.
      cases o with
      | anchor | set | group => simp [sameKind, withCount, same] at hkind
      | text v t =>
        have hv : v = x ++ y := by simpa [sameKind, withCount, same] using hkind
        have ht : t.isOnce = false := by simpa [Piece.literal?, hr] using hliteral
        have hlength := ho.text v t rfl ht
        have hx : x.length ≠ 0 := fun hzero => ha.plain (String.length_eq_zero_iff.mp hzero)
        have hy : y.length ≠ 0 := fun hzero => hb.plain (String.length_eq_zero_iff.mp hzero)
        rw [hv, String.length_append] at hlength
        omega
  | anchors => exact hnear hmerge
  | @sum _ _ s hanchor hliteral hkind hgreedy hsum =>
    have honce := (most_of_sum? hsum ha.counted hb.counted).1
    generalize hm : a.withCount s = m at hn
    have hcount : m.count.isOnce = false := by rw [← hm, count_withCount, honce]
    cases merging_of_merge? hn with
    | texts _ hq | anchors _ hq => exact absurd hq (by simpa [count] using hcount)
    | sum hother _ hkind' hgreedy' hsum' =>
      subst hm
      rw [sameKind_withCount] at hkind'
      rw [count_withCount] at hgreedy' hsum'
      exact hnear.sum hother hkind' (hgreedy'.trans (greedy_of_sum? hsum)) hsum hsum'

/-- Without bounds of zero, no neighbours are left but those that are passed over. -/
theorem settling_reduced : Settling Read Reduced Near where
  anchor h := ⟨trivial, h.counted, h.anchor, nofun, nofun, nofun⟩
  char _ h := by
    refine ⟨by simp [Plain], h.counted, nofun, ?_, nofun, nofun⟩
    rintro _ _ ⟨⟩ -
    simp
  set hnone h := ⟨hnone, h.counted, nofun, nofun, nofun, nofun⟩
  text hne h := by
    refine ⟨hne, h.counted, nofun, ?_, nofun, nofun⟩
    rintro value r hvalue -
    exact h.text value r hvalue
  group _ hlone hchain h := by
    refine ⟨trivial, h.counted, nofun, nofun, ?_, ?_⟩
    · rintro _ _ ⟨⟩
      exact hlone
    · rintro _ _ ⟨⟩
      exact hchain
  merge := Reduced.merge?
  closer := Near.merge?
  apart hnone _ _ hmerge := absurd hnone hmerge

/-! ### Fixed points -/

/-- Neighbours that are not merged. -/
def Unmerged (a b : Piece) : Prop :=
  merge? a b = none

theorem Overlooked.merge?_ne_none (h : Overlooked a b) (hb : b.Reduced) : merge? a b ≠ none := by
  have hanchor : ∀ place q, a ≠ anchor place q := by
    rintro place q rfl
    cases b with
    | anchor place' r =>
      have hunbounded := h.unbounded
      rw [hb.anchor place' r rfl] at hunbounded
      cases hunbounded
    | set | text | group =>
      have hkind := h.kind
      simp [sameKind, withCount, same] at hkind
  refine (exists_sum? h.least fun x y _ hy => ?_).elim fun _ => Piece.merge?_ne_none hanchor h.kind h.greedy
  rw [h.unbounded] at hy
  cases hy

/-- A chain of near pieces is one of pieces that are not merged if none is passed over. -/
theorem isChain_unmerged_iff {ps : List Piece} (hps : ∀ p ∈ ps, p.Reduced) (hnear : ps.IsChain Near) :
    ps.IsChain Unmerged ↔ ps.IsChain fun a b => ¬Overlooked a b := by
  rw [List.isChain_iff_getElem] at hnear ⊢
  rw [List.isChain_iff_getElem]
  refine forall₂_congr fun i hi => ⟨fun hnone hover => ?_, fun hnot => ?_⟩
  · exact hover.merge?_ne_none (hps _ (List.getElem_mem hi)) hnone
  · by_contra hmerge
    exact hnot (hnear i hi hmerge)

theorem length_pushMerged (rev : List Piece) (p : Piece) : (pushMerged rev p).length ≤ rev.length + 1 := by
  cases rev with
  | nil => exact Nat.le_refl _
  | cons last before =>
    simp only [pushMerged]
    split <;> simp

theorem length_foldl_pushMerged (ps rev : List Piece) : (ps.foldl pushMerged rev).length ≤ rev.length + ps.length := by
  induction ps generalizing rev with
  | nil => exact Nat.le_refl _
  | cons p ps ih =>
    have := ih (pushMerged rev p)
    have := length_pushMerged rev p
    rw [List.foldl_cons, List.length_cons]
    omega

/-- Pushing keeps all pieces only if none is merged. -/
theorem isChain_of_length {ps rev : List Piece} (hrev : rev.IsChain (flip Unmerged))
    (hlength : (ps.foldl pushMerged rev).length = rev.length + ps.length) :
    (ps.reverse ++ rev).IsChain (flip Unmerged) ∧ ps.foldl pushMerged rev = ps.reverse ++ rev := by
  induction ps generalizing rev with
  | nil => exact ⟨hrev, rfl⟩
  | cons p ps ih =>
    rw [List.foldl_cons, List.length_cons] at hlength
    have hpush : pushMerged rev p = p :: rev ∧ (p :: rev).IsChain (flip Unmerged) := by
      cases rev with
      | nil => exact ⟨rfl, .singleton p⟩
      | cons last before =>
        have hnone : merge? last p = none := by
          by_contra hsome
          obtain ⟨m, hm⟩ := Option.ne_none_iff_exists'.mp hsome
          have hless := length_foldl_pushMerged ps (pushMerged (last :: before) p)
          simp only [pushMerged, hm, List.length_cons] at hless hlength
          omega
        exact ⟨pushMerged_of_none before hnone, hrev.cons_cons hnone⟩
    rw [hpush.1] at hlength
    rw [List.foldl_cons, hpush.1, List.reverse_cons, List.append_assoc, List.singleton_append]
    exact ih hpush.2 (by rw [hlength, List.length_cons]; omega)

theorem foldl_pushMerged_of_isChain {ps rev : List Piece} (h : (ps.reverse ++ rev).IsChain (flip Unmerged)) :
    ps.foldl pushMerged rev = ps.reverse ++ rev := by
  induction ps generalizing rev with
  | nil => rfl
  | cons p ps ih =>
    rw [List.reverse_cons, List.append_assoc, List.singleton_append] at h ⊢
    have hpush : pushMerged rev p = p :: rev := by
      cases rev with
      | nil => rfl
      | cons last before => exact pushMerged_of_none before (List.isChain_cons_cons.mp h.right_of_append).1
    rw [List.foldl_cons, hpush, ih h]

/-- A piece with simplified alternatives. -/
def resimplified : Piece → Piece
  | group alternatives r => group (simplifiedAlternatives alternatives) r
  | p => p

theorem Reduced.simplified (h : a.Reduced) : a.simplified = [a.resimplified] := by
  cases a with
  | anchor =>
    rw [Piece.simplified]
    rfl
  | set chars r =>
    have hnone : chars.singleChar? = none := h.plain
    rw [Piece.simplified, hnone]
    rfl
  | text value r =>
    have hne : value ≠ "" := h.plain
    rw [Piece.simplified, if_neg (by simpa using hne)]
    rfl
  | group pss r =>
    rw [Piece.simplified, resimplified]
    split
    next only honly =>
      have hlone : pss.length = 1 := by rw [← length_simplifiedAlternatives pss, honly, List.length_singleton]
      rw [if_neg (by rw [h.lone pss r rfl hlone]; exact Bool.false_ne_true), honly]
    next => rfl

/-- A reduced sequence is simplified already if no neighbours are merged and its groups are simplified. -/
theorem simplifiedSequence_eq_self_iff {ps : List Piece} (hps : ∀ p ∈ ps, p.Reduced) :
    simplifiedSequence [] ps = ps ↔
      ps.IsChain Unmerged ∧ ∀ qss r, group qss r ∈ ps → simplifiedAlternatives qss = qss := by
  have hmap : ps.flatMap simplified = ps.map resimplified := by
    rw [← List.flatMap_singleton' (ps.map resimplified), List.flatMap_map]
    exact List.flatMap_congr fun p hp => (hps p hp).simplified
  rw [simplifiedSequence_eq_foldl, hmap]
  constructor
  · intro heq
    have hlength := congrArg List.length heq
    rw [List.length_reverse] at hlength
    obtain ⟨hchain, hfold⟩ := @isChain_of_length (ps.map resimplified) [] .nil (by simpa using hlength)
    rw [hfold, List.append_nil, List.reverse_reverse] at heq
    rw [heq, List.append_nil, List.isChain_reverse] at hchain
    refine ⟨hchain, fun qss r hgroup => ?_⟩
    have hsame := List.map_inj_left.mp (heq.trans (List.map_id ps).symm) _ hgroup
    exact (Piece.group.inj hsame).1
  · rintro ⟨hchain, hgroups⟩
    have hsame : ps.map resimplified = ps := by
      refine (List.map_congr_left fun p hp => ?_).trans (List.map_id ps)
      cases p with
      | group qss r => exact congrArg (group · r) (hgroups qss r hp)
      | anchor | set | text => rfl
    rw [← List.reverse_reverse ps, List.isChain_reverse, ← List.append_nil ps.reverse] at hchain
    rw [hsame, foldl_pushMerged_of_isChain hchain, List.append_nil, List.reverse_reverse]

mutual

theorem simplifiedAlternatives_of_isChain : ∀ {pss : List (List Piece)}, AlternativesEverywhere Reduced pss →
    (∀ ps, Level pss ps → ps.IsChain Unmerged) → simplifiedAlternatives pss = pss
  | [], _, _ => by rw [simplifiedAlternatives]
  | ps :: pss, h, hchain => by
    have hps := (simplifiedSequence_eq_self_iff fun p hp => (sequenceEverywhere_iff.mp h.1 p hp).self).mpr
      ⟨hchain ps (.outer List.mem_cons_self), simplifiedGroups_of_isChain h.1 fun qss r hgroup qs hqs =>
        hchain qs (hqs.of_group List.mem_cons_self hgroup)⟩
    rw [simplifiedAlternatives, hps, simplifiedAlternatives_of_isChain h.2 fun qs hqs =>
      hchain qs (hqs.mono (List.subset_cons_self ps pss))]

theorem simplifiedGroups_of_isChain : ∀ {ps : List Piece}, SequenceEverywhere Reduced ps →
    (∀ qss r, group qss r ∈ ps → ∀ qs, Level qss qs → qs.IsChain Unmerged) →
    ∀ qss r, group qss r ∈ ps → simplifiedAlternatives qss = qss
  | [], _, _, _, _, hgroup => absurd hgroup List.not_mem_nil
  | p :: ps, h, hchain, qss, r, hgroup => by
    rcases List.mem_cons.mp hgroup with heq | hgroup
    · exact simplifiedGroup_of_isChain h.1 (fun qss r hp => hchain qss r (hp ▸ List.mem_cons_self)) qss r heq.symm
    · exact simplifiedGroups_of_isChain h.2 (fun qss r hq => hchain qss r (List.mem_cons_of_mem p hq)) qss r hgroup

theorem simplifiedGroup_of_isChain : ∀ {p : Piece}, p.Everywhere Reduced →
    (∀ qss r, p = group qss r → ∀ qs, Level qss qs → qs.IsChain Unmerged) →
    ∀ qss r, p = group qss r → simplifiedAlternatives qss = qss
  | .group pss t, h, hchain, qss, r, heq => by
    cases heq
    exact simplifiedAlternatives_of_isChain h.2 (hchain pss t rfl)

end

theorem simplifiedAlternatives_eq_map (pss : List (List Piece)) :
    simplifiedAlternatives pss = pss.map (simplifiedSequence []) := by
  induction pss with
  | nil => rw [simplifiedAlternatives, List.map_nil]
  | cons ps pss ih => rw [simplifiedAlternatives, ih, List.map_cons]

/-- Reduced alternatives are simplified already if no neighbours are merged at any level. -/
theorem simplifiedAlternatives_eq_self_iff {pss : List (List Piece)} (h : AlternativesEverywhere Reduced pss) :
    simplifiedAlternatives pss = pss ↔ ∀ ps, Level pss ps → ps.IsChain Unmerged := by
  refine ⟨fun heq ps hlevel => ?_, simplifiedAlternatives_of_isChain h⟩
  have hfixed : ∀ {qss : List (List Piece)}, simplifiedAlternatives qss = qss →
      ∀ qs ∈ qss, simplifiedSequence [] qs = qs := by
    intro qss heq
    rw [simplifiedAlternatives_eq_map] at heq
    exact List.map_inj_left.mp (heq.trans (List.map_id qss).symm)
  suffices hps : simplifiedSequence [] ps = ps from
    ((simplifiedSequence_eq_self_iff (hlevel.forall_mem h)).mp hps).1
  induction hlevel with
  | outer hps => exact hfixed heq _ hps
  | inner hlevel hgroup hqs ih =>
    exact hfixed (((simplifiedSequence_eq_self_iff (hlevel.forall_mem h)).mp ih).2 _ _ hgroup) _ hqs

end Piece

/-! ### Reading -/

namespace Pattern

/-- No repetition of the pattern has an upper bound of zero. -/
def Counted (p : Pattern) : Prop :=
  AlternativesEverywhere (fun x => x.count.most ≠ some 0) p.alternatives

theorem length_of_atom? {position : Nat} {c : Char} {rest more : List Char} {piece : Repetition → Piece}
    (h : atom? position c rest = .ok (piece, more)) {r q : Repetition} {value : String} (hpiece : piece r = .text value q) :
    value.length = 1 := by
  unfold atom? at h
  split at h
  · split at h <;> cases h
    cases hpiece
  · cases h
    cases hpiece
  · cases h
    cases hpiece
  · cases h
    cases hpiece
  · split at h <;> cases h
    unfold escaped at hpiece
    split at hpiece <;> cases hpiece <;> first | rfl | simp
  · split at h <;> cases h
    cases hpiece
    simp

/-- An anchor is read once, and a literal character by character. -/
theorem read_of_ofRegexRaw {value : String} {raw : Pattern} (h : ofRegexRaw value = .ok raw) (hcounted : raw.Counted) :
    AlternativesEverywhere Piece.Read raw.alternatives := by
  have hatoms := (everywhere_of_readRegex
    (P := fun x => (∀ place r, x = .anchor place r → r = .once) ∧ ∀ text r, x = .text text r → text.length = 1)
    (fun hatom r hanchor => ⟨fun place q => hanchor place q, fun text q => length_of_atom? hatom⟩)
    (fun _ => ⟨nofun, nofun⟩) h ⟨trivial, trivial⟩ nofun).2
  exact hatoms.combine (fun _ hatom hmost => ⟨hmost, hatom.1, hatom.2⟩) hcounted

/-- A regular expression is read as plain pieces at every nesting level. If no repetition has an upper bound of zero, no
    neighbours are literals that occur once, no group that occurs once has a single alternative, and simplifying again
    changes something exactly where a bounded piece is followed by one of the same kind without an upper bound. -/
theorem canonical_of_ofRegex {value : String} {p : Pattern} (h : ofRegex value = .ok p) :
    (∀ ps, Level p.alternatives ps → ∀ x ∈ ps, x.Plain) ∧
      ((∀ raw, ofRegexRaw value = .ok raw → raw.Counted) →
        (∀ ps, Level p.alternatives ps → ps.IsChain fun a b => a.literal? = none ∨ b.literal? = none) ∧
        (∀ ps, Level p.alternatives ps → ∀ qs r, .group [qs] r ∈ ps → r.isOnce = false) ∧
        (p.simplify = p ↔ ∀ ps, Level p.alternatives ps → ps.IsChain fun a b => ¬a.Overlooked b)) := by
  obtain ⟨raw, hraw, rfl⟩ := Result.map_eq_ok.mp h
  constructor
  · have htrivial := (alternativesEverywhere_iff_leaves (fun _ _ => trivial) raw.alternatives).mpr fun _ _ => trivial
    exact fun ps hps => hps.forall_mem (Piece.settling_plain.simplifiedAlternatives raw.alternatives htrivial).1
  · intro hcounted
    obtain ⟨hdone, hchains⟩ := Piece.settling_reduced.simplifiedAlternatives raw.alternatives
      (read_of_ofRegexRaw hraw (hcounted raw hraw))
    have hnear : ∀ ps, Level raw.simplify.alternatives ps → ps.IsChain Piece.Near := by
      intro ps hps
      cases hps with
      | outer hps => exact hchains ps hps
      | inner hlevel hgroup hqs => exact (hlevel.forall_mem hdone _ hgroup).inner _ _ rfl _ hqs
    refine ⟨fun ps hps => (hnear ps hps).imp fun _ _ => Piece.Near.literal?, ?_, ?_⟩
    · exact fun ps hps qs r hgroup => (hps.forall_mem hdone _ hgroup).lone _ _ rfl rfl
    · have hfixed := Piece.simplifiedAlternatives_eq_self_iff hdone
      refine (Pattern.mk.injEq _ _ ▸ hfixed).trans (forall₂_congr fun ps hps => ?_)
      exact Piece.isChain_unmerged_iff (hps.forall_mem hdone) (hnear ps hps)

/-- A bound that is too large to be added keeps two pieces apart, also when the second one has lost its own bound. -/
theorem canonical_of_ofRegex_unbounded : ∃ p, ofRegex "a\x7b0,4294967295\x7da?a*" = .ok p ∧
    (∀ ps, Level p.alternatives ps → ps.IsChain fun a b => a.literal? = none ∨ b.literal? = none) ∧
    p.simplify ≠ p := by
  have hraw : ofRegexRaw "a\x7b0,4294967295\x7da?a*" =
      .ok ⟨[[.text "a" ⟨0, some 4294967295, true⟩, .text "a" ⟨0, some 1, true⟩, .text "a" .any]]⟩ := by
    iterate 3 refine (readRegex_atom (by decide) (fun _ => rfl) (by rintro _ _ ⟨⟩)).trans ?_
    exact readRegex.eq_def ..
  have hread : ofRegex "a\x7b0,4294967295\x7da?a*" =
      .ok ⟨[[.text "a" ⟨0, some 4294967295, true⟩, .text "a" .any]]⟩ := by
    rw [ofRegex, hraw]
    rfl
  have hcounted : ∀ raw, ofRegexRaw "a\x7b0,4294967295\x7da?a*" = .ok raw → raw.Counted := by
    rintro raw h
    cases hraw.symm.trans h
    simp [Counted, AlternativesEverywhere, SequenceEverywhere, Piece.Everywhere, Piece.count, Repetition.any]
  obtain ⟨hliterals, -, hfixed⟩ := (canonical_of_ofRegex hread).2 hcounted
  refine ⟨_, hread, hliterals, fun heq => ?_⟩
  have hchain := hfixed.mp heq _ (.outer List.mem_cons_self)
  exact (List.isChain_cons_cons.mp hchain).1 ⟨by rfl, rfl, Option.some_ne_none _, rfl, by decide⟩

/-- A literal that is left out and the same literal once are merged to one that occurs once, next to another. -/
theorem exists_ofRegex_literals : ∃ p a b, ofRegex "xa\x7b0\x7da" = .ok p ∧ Level p.alternatives [a, b] ∧
    a.literal? = some "x" ∧ b.literal? = some "a" ∧ p.simplify ≠ p := by
  have hraw : ofRegexRaw "xa\x7b0\x7da" =
      .ok ⟨[[.literal "x", .text "a" ⟨0, some 0, true⟩, .literal "a"]]⟩ := by
    iterate 3 refine (readRegex_atom (by decide) (fun _ => rfl) (by rintro _ _ ⟨⟩)).trans ?_
    exact readRegex.eq_def ..
  have hread : ofRegex "xa\x7b0\x7da" = .ok ⟨[[.literal "x", .literal "a"]]⟩ := by
    rw [ofRegex, hraw]
    rfl
  refine ⟨⟨[[.literal "x", .literal "a"]]⟩, .literal "x", .literal "a", hread, .outer List.mem_cons_self, rfl, rfl, ?_⟩
  intro heq
  have hmerged : [Piece.literal "xa"] = [.literal "x", .literal "a"] :=
    List.head_eq_of_cons_eq (congrArg Pattern.alternatives heq)
  exact absurd (congrArg List.length hmerged) (by decide)

end Pattern

end ItemQuery
