import ItemQuery.Pattern.Simplify

/-! The canonical form of a sequence of units: characters, sets that occur once, and any run. Units are merged
    from the left; taking the merged pieces apart and merging them again gives the same pieces. Counts that get
    out of range end a piece, and they end it again at the same place. -/

namespace ItemQuery.Piece

/-! ### Units and merged pieces -/

section
variable (P : CharSet → Prop)

/-- The pieces before merging, with sets that satisfy `P`. -/
inductive IsUnit : Piece → Prop
  | char (c : Char) : IsUnit (literal c.toString)
  | set {chars : CharSet} (h : P chars) : IsUnit (set chars .once)
  | run : IsUnit anyRun

/-- The pieces that units are merged to. -/
inductive IsMerged : Piece → Prop
  | text {value : String} (h : value ≠ "") : IsMerged (literal value)
  | closed {chars : CharSet} {n : UInt32} (h : P chars) (hn : n ≠ 0) : IsMerged (set chars ⟨n, some n, true⟩)
  | opened {n : UInt32} (h : n ≠ 0 → P (.ofClass .any)) : IsMerged (set (.ofClass .any) ⟨n, none, true⟩)

end

/-- The units of a merged piece. -/
def units : Piece → List Piece
  | text value _ => value.toList.map fun c => literal c.toString
  | set chars r => List.replicate r.least.toNat (set chars .once) ++ if r.most = none then [set chars .any] else []
  | p => [p]

/-- The first unit of `p` is not merged into `last`. -/
def Apart : Piece → Piece → Prop
  | text _ _, text _ _ => False
  | set a r, set b q => a = b → Number.addCounts? r.least 1 = none ∧ q.least ≠ 0
  | _, _ => True

/-- Merged pieces after the start, the last one first. -/
inductive Canonical (P : CharSet → Prop) : List Piece → Prop
  | start : Canonical P [at_ .start]
  | cons {p last : Piece} {before : List Piece} (h : Canonical P (last :: before)) (hp : IsMerged P p)
      (hapart : Apart last p) : Canonical P (p :: last :: before)

/-! ### Merging units -/

theorem merge?_literal (x y : String) : merge? (literal x) (literal y) = some (literal (x ++ y)) :=
  rfl

theorem sameKind_set {a b : CharSet} {r q : Repetition} : sameKind (set a r) (set b q) = true ↔ a = b := by
  simp [sameKind, withCount, same]

theorem merge?_set {a b : CharSet} {r q : Repetition} (hr : r.greedy = true) (hq : q.greedy = true) :
    merge? (set a r) (set b q) = if a = b then (sum? r q).map (set a) else none := by
  by_cases h : a = b
  · have hkind : sameKind (set a r) (set b q) = true := sameKind_set.mpr h
    simp only [merge?, hkind, count, hr, hq, BEq.rfl, Bool.and_self, if_true, if_pos h]
    rfl
  · have hkind : sameKind (set a r) (set b q) = false := by
      rw [← Bool.not_eq_true, sameKind_set]
      exact h
    simp only [merge?, hkind, Bool.false_and, Bool.false_eq_true, if_false, if_neg h]

theorem addCounts?_zero (n : UInt32) : Number.addCounts? n 0 = some n := by
  have hn : n.toNat + (0 : UInt32).toNat < UInt32.size := n.toNat_lt_size
  rw [Number.addCounts?, if_pos hn]
  simp

/-- A set that occurs once adds one to the count. -/
theorem sum?_once_closed (n : UInt32) :
    sum? ⟨n, some n, true⟩ .once = (Number.addCounts? n 1).map fun m => ⟨m, some m, true⟩ := by
  simp only [sum?, Repetition.once]
  cases h : Number.addCounts? n 1 with
  | none => rfl
  | some m => simp only [h, Option.map_some]

theorem sum?_once_opened (n : UInt32) :
    sum? ⟨n, none, true⟩ .once = (Number.addCounts? n 1).map fun m => ⟨m, none, true⟩ := by
  simp only [sum?, Repetition.once]
  cases h : Number.addCounts? n 1 <;> rfl

/-- Any run makes a count open. -/
theorem sum?_any (n : UInt32) (most : Option UInt32) : sum? ⟨n, most, true⟩ .any = some ⟨n, none, true⟩ := by
  simp only [sum?, Repetition.any, addCounts?_zero]

theorem ne_zero_of_addCounts? {n m : UInt32} (h : Number.addCounts? n 1 = some m) : m ≠ 0 := by
  unfold Number.addCounts? at h
  split at h
  · rename_i hlt
    cases h
    intro hzero
    have hnat := congrArg UInt32.toNat hzero
    rw [UInt32.toNat_ofNat_of_lt' hlt] at hnat
    have hone : (1 : UInt32).toNat = 1 := rfl
    have hnil : (0 : UInt32).toNat = 0 := rfl
    omega
  · cases h

section
variable {P : CharSet → Prop}

/-- The pieces stay canonical if the merged piece is apart whenever the last one was. -/
theorem Canonical.replace {last m : Piece} {before : List Piece} (h : Canonical P (last :: before))
    (hstart : last ≠ at_ .start) (hm : IsMerged P m) (hapart : ∀ other, Apart other last → Apart other m) :
    Canonical P (m :: before) := by
  cases h with
  | start => exact absurd rfl hstart
  | cons h _ hp => exact .cons h hm (hapart _ hp)

/-- Pushing a unit that is not merged. -/
theorem Canonical.push {last u : Piece} {before : List Piece} (h : Canonical P (last :: before)) (hu : IsMerged P u)
    (hnone : merge? last u = none) (hapart : Apart last u) : Canonical P (pushMerged (last :: before) u) := by
  simp only [pushMerged, hnone]
  exact .cons h hu hapart

theorem Canonical.push_char {last : Piece} {before : List Piece} (h : Canonical P (last :: before)) (c : Char) :
    Canonical P (pushMerged (last :: before) (literal c.toString)) := by
  have hchar : IsMerged P (literal c.toString) := .text (by simp)
  cases h with
  | start => exact Canonical.push .start hchar rfl trivial
  | cons hbefore hlast hp =>
    cases hlast with
    | @text value hvalue =>
      simp only [pushMerged, merge?_literal]
      refine (Canonical.cons hbefore (.text hvalue) hp).replace nofun (.text (by simp)) fun other hother => ?_
      cases other <;> exact hother
    | closed hchars hn => exact Canonical.push (.cons hbefore (.closed hchars hn) hp) hchar rfl trivial
    | opened hany => exact Canonical.push (.cons hbefore (.opened hany) hp) hchar rfl trivial

/-- A set of a larger count is apart from what the set was apart from. -/
theorem Apart.of_set {chars : CharSet} {r q : Repetition} (hq : r.least ≠ 0 → q.least ≠ 0) {other : Piece}
    (h : Apart other (set chars r)) : Apart other (set chars q) := by
  cases other with
  | set a t => exact fun ha => ⟨(h ha).1, hq (h ha).2⟩
  | _ => exact h

theorem Canonical.push_set {last : Piece} {before : List Piece} (h : Canonical P (last :: before)) {chars : CharSet}
    (hchars : P chars) : Canonical P (pushMerged (last :: before) (set chars .once)) := by
  have hset : IsMerged P (set chars .once) := .closed hchars (by decide)
  have hone : (Repetition.once).least ≠ 0 := by decide
  cases h with
  | start => exact Canonical.push .start hset rfl trivial
  | cons hbefore hlast hp =>
    cases hlast with
    | text hvalue => exact Canonical.push (.cons hbefore (.text hvalue) hp) hset rfl trivial
    | @closed a n ha hn =>
      have hall := Canonical.cons hbefore (.closed ha hn) hp
      have hmerge : merge? (set a ⟨n, some n, true⟩) (set chars .once) = _ := merge?_set rfl rfl
      by_cases hsame : a = chars
      · rw [if_pos hsame, sum?_once_closed] at hmerge
        cases hm : Number.addCounts? n 1 with
        | none => exact hall.push hset (by rw [hmerge, hm]; rfl) fun _ => ⟨hm, hone⟩
        | some m =>
          rw [hm] at hmerge
          simp only [pushMerged, hmerge, Option.map_some]
          refine hall.replace nofun (.closed ha (ne_zero_of_addCounts? hm)) fun other => ?_
          exact Apart.of_set fun _ => ne_zero_of_addCounts? hm
      · rw [if_neg hsame] at hmerge
        exact hall.push hset hmerge fun hcontra => absurd hcontra hsame
    | @opened n hany =>
      have hall := Canonical.cons hbefore (.opened hany) hp
      have hmerge : merge? (set (.ofClass .any) ⟨n, none, true⟩) (set chars .once) = _ := merge?_set rfl rfl
      by_cases hsame : CharSet.ofClass .any = chars
      · rw [if_pos hsame, sum?_once_opened] at hmerge
        cases hm : Number.addCounts? n 1 with
        | none => exact hall.push hset (by rw [hmerge, hm]; rfl) fun _ => ⟨hm, hone⟩
        | some m =>
          rw [hm] at hmerge
          simp only [pushMerged, hmerge, Option.map_some]
          refine hall.replace nofun (.opened fun _ => hsame ▸ hchars) fun other => ?_
          exact Apart.of_set fun _ => ne_zero_of_addCounts? hm
      · rw [if_neg hsame] at hmerge
        exact hall.push hset hmerge fun hcontra => absurd hcontra hsame

theorem Canonical.push_run {last : Piece} {before : List Piece} (h : Canonical P (last :: before)) :
    Canonical P (pushMerged (last :: before) anyRun) := by
  have hrun : IsMerged P anyRun := .opened (absurd rfl)
  cases h with
  | start => exact Canonical.push .start hrun rfl trivial
  | cons hbefore hlast hp =>
    cases hlast with
    | text hvalue => exact Canonical.push (.cons hbefore (.text hvalue) hp) hrun rfl trivial
    | @closed a n ha hn =>
      have hall := Canonical.cons hbefore (.closed ha hn) hp
      have hmerge : merge? (set a ⟨n, some n, true⟩) anyRun = _ := merge?_set rfl rfl
      by_cases hsame : a = .ofClass .any
      · rw [if_pos hsame, sum?_any, Option.map_some] at hmerge
        subst hsame
        simp only [pushMerged, hmerge]
        exact hall.replace nofun (.opened fun _ => ha) fun other => Apart.of_set (fun _ => hn)
      · rw [if_neg hsame] at hmerge
        exact hall.push hrun hmerge fun hcontra => absurd hcontra hsame
    | @opened n hany =>
      have hall := Canonical.cons hbefore (.opened hany) hp
      have hmerge : merge? (set (.ofClass .any) ⟨n, none, true⟩) anyRun = _ := merge?_set rfl rfl
      rw [if_pos rfl, sum?_any, Option.map_some] at hmerge
      simp only [pushMerged, hmerge]
      exact hall

/-- Merging a unit keeps the pieces canonical. -/
theorem Canonical.pushMerged {rev : List Piece} (h : Canonical P rev) {u : Piece} (hu : IsUnit P u) :
    Canonical P (pushMerged rev u) := by
  cases rev with
  | nil => cases h
  | cons last before =>
    cases hu with
    | char c => exact h.push_char c
    | set hchars => exact h.push_set hchars
    | run => exact h.push_run

theorem Canonical.foldl_pushMerged {us : List Piece} (hus : ∀ u ∈ us, IsUnit P u) {rev : List Piece}
    (h : Canonical P rev) : Canonical P (us.foldl Piece.pushMerged rev) := by
  induction us generalizing rev with
  | nil => exact h
  | cons u us ih =>
    exact ih (fun v hv => hus v (List.mem_cons_of_mem u hv)) (h.pushMerged (hus u List.mem_cons_self))

end

/-! ### Merging the units of a merged piece -/

theorem foldl_literals (value : String) (cs : List Char) (before : List Piece) :
    (cs.map fun c => literal c.toString).foldl pushMerged (literal value :: before)
      = literal (value ++ String.ofList cs) :: before := by
  induction cs generalizing value with
  | nil => simp
  | cons c cs ih =>
    have hpush : pushMerged (literal value :: before) (literal c.toString) = literal (value ++ c.toString) :: before := rfl
    rw [List.map_cons, List.foldl_cons, hpush, ih]
    congr 2
    apply String.toList_injective
    simp

theorem foldl_sets (chars : CharSet) (before : List Piece) {j k : Nat} (h : j + k < UInt32.size) :
    (List.replicate k (set chars .once)).foldl pushMerged
        (set chars ⟨.ofNat j, some (.ofNat j), true⟩ :: before)
      = set chars ⟨.ofNat (j + k), some (.ofNat (j + k)), true⟩ :: before := by
  induction k generalizing j with
  | zero => rfl
  | succ k ih =>
    have hsum : Number.addCounts? (.ofNat j) 1 = some (.ofNat (j + 1)) := by
      have hj : (UInt32.ofNat j).toNat = j := UInt32.toNat_ofNat_of_lt' (by omega)
      have hone : (1 : UInt32).toNat = 1 := rfl
      rw [Number.addCounts?, hj, hone, if_pos (by omega)]
    have hpush : pushMerged (set chars ⟨.ofNat j, some (.ofNat j), true⟩ :: before) (set chars .once)
        = set chars ⟨.ofNat (j + 1), some (.ofNat (j + 1)), true⟩ :: before := by
      have hmerge : merge? (set chars ⟨.ofNat j, some (.ofNat j), true⟩) (set chars .once) = _ := merge?_set rfl rfl
      rw [if_pos rfl, sum?_once_closed, hsum] at hmerge
      simp only [pushMerged, hmerge, Option.map_some]
    rw [List.replicate_succ, List.foldl_cons, hpush, ih (by omega), Nat.add_assoc, Nat.add_comm 1 k]

/-- What is not merged is pushed. -/
theorem pushMerged_of_none {last u : Piece} (before : List Piece) (h : merge? last u = none) :
    pushMerged (last :: before) u = u :: last :: before := by
  simp only [pushMerged, h]

theorem merge?_set_eq_none {last : Piece} {chars : CharSet} {r : Repetition} (hr : r.greedy = true)
    (hlast : last = at_ .start ∨ (∃ value, last = literal value) ∨ ∃ a q, last = set a q ∧ q.greedy = true ∧
      (a = chars → sum? q r = none)) : merge? last (set chars r) = none := by
  rcases hlast with rfl | ⟨value, rfl⟩ | ⟨a, q, rfl, hq, hsum⟩
  · rfl
  · rfl
  · rw [merge?_set hq hr]
    split
    · rename_i hsame
      rw [hsum hsame]
      rfl
    · rfl

section
variable {P : CharSet → Prop}

/-- The last of canonical pieces: the start, a text, or a set with a closed or open count. -/
theorem Canonical.last_cases {last : Piece} {before : List Piece} (h : Canonical P (last :: before)) :
    last = at_ .start ∨ (∃ value, last = literal value) ∨
      ∃ a n most, last = set a ⟨n, most, true⟩ ∧ (most = none ∨ most = some n) := by
  cases h with
  | start => exact Or.inl rfl
  | cons _ hlast _ =>
    cases hlast with
    | text _ => exact Or.inr (Or.inl ⟨_, rfl⟩)
    | closed _ _ => exact Or.inr (Or.inr ⟨_, _, _, rfl, Or.inr rfl⟩)
    | opened _ => exact Or.inr (Or.inr ⟨_, _, _, rfl, Or.inl rfl⟩)

/-- The first unit of a set that stands apart is pushed. -/
theorem Canonical.pushMerged_apart {last : Piece} {before : List Piece} (h : Canonical P (last :: before))
    {chars : CharSet} {r q : Repetition} (hapart : Apart last (set chars r))
    (hq : (q = .once ∧ r.least ≠ 0) ∨ (q = .any ∧ r.least = 0)) :
    Piece.pushMerged (last :: before) (set chars q) = set chars q :: last :: before := by
  refine pushMerged_of_none before (merge?_set_eq_none ?_ ?_)
  · rcases hq with ⟨rfl, -⟩ | ⟨rfl, -⟩ <;> rfl
  · rcases h.last_cases with hlast | hlast | ⟨a, n, most, rfl, hmost⟩
    · exact Or.inl hlast
    · exact Or.inr (Or.inl hlast)
    · refine Or.inr (Or.inr ⟨a, _, rfl, rfl, fun hsame => ?_⟩)
      obtain ⟨hfull, hleast⟩ := hapart hsame
      rcases hq with ⟨rfl, -⟩ | ⟨-, hzero⟩
      · rcases hmost with rfl | rfl
        · rw [sum?_once_opened, hfull]
          rfl
        · rw [sum?_once_closed, hfull]
          rfl
      · exact absurd hzero hleast

/-- Merging the units of a piece that stands apart gives the piece. -/
theorem Canonical.foldl_units {p last : Piece} {before : List Piece} (h : Canonical P (last :: before))
    (hp : IsMerged P p) (hapart : Apart last p) :
    (units p).foldl Piece.pushMerged (last :: before) = p :: last :: before := by
  cases hp with
  | @text value hvalue =>
    have hne : value.toList ≠ [] := fun hnil => hvalue (String.toList_eq_nil_iff.mp hnil)
    obtain ⟨c, cs, hcs⟩ := List.exists_cons_of_ne_nil hne
    have hnone : merge? last (literal c.toString) = none := by
      rcases h.last_cases with rfl | ⟨value, rfl⟩ | ⟨a, n, most, rfl, -⟩
      · rfl
      · exact absurd hapart id
      · rfl
    rw [literal, units, hcs, List.map_cons, List.foldl_cons, pushMerged_of_none before hnone, foldl_literals]
    congr 2
    apply String.toList_injective
    simp [hcs]
  | @closed chars n hchars hn =>
    have hnat : n.toNat ≠ 0 := fun hzero => hn (UInt32.toNat_inj.mp hzero)
    obtain ⟨k, hk⟩ := Nat.exists_eq_add_one_of_ne_zero hnat
    have hsize := n.toNat_lt_size
    have hfirst := h.pushMerged_apart hapart (Or.inl ⟨rfl, hn⟩)
    have hrest := foldl_sets chars (last :: before) (j := 1) (k := k) (by omega)
    have hn : UInt32.ofNat (1 + k) = n := by
      rw [Nat.add_comm, ← hk, UInt32.ofNat_toNat]
    rw [hn] at hrest
    simp only [units, reduceCtorEq, if_false, List.append_nil]
    rw [hk, List.replicate_succ, List.foldl_cons, hfirst]
    exact hrest
  | @opened n hany =>
    simp only [units, if_true, List.foldl_append, List.foldl_cons, List.foldl_nil]
    by_cases hzero : n = 0
    · have hfirst := h.pushMerged_apart hapart (Or.inr ⟨rfl, hzero⟩)
      rw [hzero]
      exact hfirst
    · have hnat : n.toNat ≠ 0 := fun hnil => hzero (UInt32.toNat_inj.mp hnil)
      obtain ⟨k, hk⟩ := Nat.exists_eq_add_one_of_ne_zero hnat
      have hsize := n.toNat_lt_size
      have hfirst := h.pushMerged_apart hapart (Or.inl ⟨rfl, hzero⟩)
      have hrest := foldl_sets (.ofClass .any) (last :: before) (j := 1) (k := k) (by omega)
      have hn : UInt32.ofNat (1 + k) = n := by
        rw [Nat.add_comm, ← hk, UInt32.ofNat_toNat]
      have hmerge : merge? (set (.ofClass .any) ⟨n, some n, true⟩) (set (.ofClass .any) .any) = _ := merge?_set rfl rfl
      rw [if_pos rfl, sum?_any, Option.map_some] at hmerge
      rw [hn] at hrest
      rw [hk, List.replicate_succ, List.foldl_cons, hfirst]
      refine (congrArg (Piece.pushMerged · (set (.ofClass .any) .any)) hrest).trans ?_
      simp only [Piece.pushMerged, hmerge]

/-- Canonical pieces are the merged units of themselves. -/
theorem Canonical.foldl_flatMap_units {rev : List Piece} (h : Canonical P rev) :
    (rev.reverse.flatMap units).foldl Piece.pushMerged [] = rev := by
  induction h with
  | start => rfl
  | cons h hp hapart ih =>
    rw [List.reverse_cons, List.flatMap_append, List.foldl_append, ih, List.flatMap_singleton]
    exact h.foldl_units hp hapart

/-- The end is never merged. -/
theorem Canonical.pushMerged_finish {rev : List Piece} (h : Canonical P rev) :
    Piece.pushMerged rev (at_ .finish) = at_ .finish :: rev := by
  cases rev with
  | nil => cases h
  | cons last before =>
    refine pushMerged_of_none before ?_
    rcases h.last_cases with rfl | ⟨value, rfl⟩ | ⟨a, n, most, rfl, -⟩ <;> rfl

/-- Canonical pieces are the start and merged pieces. -/
theorem Canonical.reverse_eq {rev : List Piece} (h : Canonical P rev) :
    ∃ body, rev.reverse = at_ .start :: body ∧ ∀ p ∈ body, IsMerged P p := by
  induction h with
  | start => exact ⟨[], rfl, nofun⟩
  | @cons p last before _ hp _ ih =>
    obtain ⟨body, hbody, hall⟩ := ih
    refine ⟨body ++ [p], by rw [List.reverse_cons, hbody, List.cons_append], fun q hq => ?_⟩
    rcases List.mem_append.mp hq with hq | hq
    · exact hall q hq
    · rw [List.mem_singleton.mp hq]
      exact hp

end

/-- Simplifying a sequence merges what its pieces are simplified to. -/
theorem simplifiedSequence_eq_foldl (ps rev : List Piece) :
    simplifiedSequence rev ps = ((ps.flatMap simplified).foldl pushMerged rev).reverse := by
  induction ps generalizing rev with
  | nil => rw [simplifiedSequence]; rfl
  | cons p ps ih => rw [simplifiedSequence, ih, List.flatMap_cons, List.foldl_append]

end ItemQuery.Piece
