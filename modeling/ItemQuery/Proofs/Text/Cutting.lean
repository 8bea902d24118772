import Mathlib.Data.List.DropRight
import ItemQuery.Text.Blank

/-! Cutting a text at a mark that its first part does not hold, trimming the ends of a text, and writing it in small
    letters. -/

namespace ItemQuery.Text

/-- What is asked of the characters of a text is tested one by one, and not for all characters that there are. -/
instance (priority := high) decidableForallMem (p : Char → Prop) [DecidablePred p] (cs : List Char) :
    Decidable (∀ c ∈ cs, p c) :=
  List.decidableBAll p cs

variable {p : Char → Bool} {mark : Char} {cs ds : List Char}

/-! ### Small letters -/

/-- Capitals are moved behind the other letters of ASCII, and the other characters stay where they are. -/
theorem toNat_toLower (c : Char) :
    c.toLower.toNat = if 65 ≤ c.toNat ∧ c.toNat ≤ 90 then c.toNat + 32 else c.toNat := by
  split
  · next hupper =>
    have hmoved : c.toLower.val = c.val + 32 := congrArg Char.val (dif_pos hupper)
    have hcode := congrArg UInt32.toNat hmoved
    simp only [UInt32.toNat_add, UInt32.reduceToNat] at hcode
    simp only [Char.toNat] at hupper ⊢
    omega
  · next hupper => exact congrArg Char.toNat (dif_neg hupper)

theorem toList_toLower (s : String) : s.toLower.toList = s.toList.map Char.toLower :=
  String.toList_map

/-! ### Trimming -/

theorem dropWhile_of_head? (h : ∀ c, cs.head? = some c → p c = false) : cs.dropWhile p = cs := by
  cases cs with
  | nil => rfl
  | cons c cs => exact List.dropWhile_cons_of_neg (by simp [h c rfl])

theorem head?_of_dropWhile (h : cs.dropWhile p = cs) : ∀ c, cs.head? = some c → p c = false := by
  intro c hc
  obtain ⟨rest, rfl⟩ := List.head?_eq_some_iff.mp hc
  rw [Bool.eq_false_iff]
  intro hp
  have hlength := (List.dropWhile_sublist p (l := rest)).length_le
  rw [← List.dropWhile_cons_of_pos hp, h, List.length_cons] at hlength
  omega

/-- What is trimmed to itself has nothing to trim at its ends. -/
theorem trimWhile_eq_self_iff :
    trimWhile p cs = cs ↔ ∀ c, cs.head? = some c ∨ cs.getLast? = some c → p c = false := by
  simp only [trimWhile, dropEndWhile, or_imp, forall_and, ← List.head?_reverse]
  constructor
  · intro h
    have hlength := congrArg List.length h
    have hfirst : cs.dropWhile p = cs := by
      refine (List.dropWhile_sublist p).eq_of_length_le ?_
      rw [List.length_reverse] at hlength
      rw [← hlength]
      have hdrop := (List.dropWhile_sublist p (l := (cs.dropWhile p).reverse)).length_le
      rwa [List.length_reverse] at hdrop
    rw [hfirst, List.reverse_eq_iff] at h
    exact ⟨head?_of_dropWhile hfirst, head?_of_dropWhile h⟩
  · rintro ⟨hfirst, hlast⟩
    rw [dropWhile_of_head? hfirst, dropWhile_of_head? hlast, List.reverse_reverse]

theorem trimWhile_of_forall (h : ∀ c ∈ cs, p c = false) : trimWhile p cs = cs :=
  trimWhile_eq_self_iff.mpr fun c hc => h c (hc.elim List.mem_of_head? List.mem_of_getLast?)

theorem mem_of_mem_trimWhile {c : Char} (h : c ∈ trimWhile p cs) : c ∈ cs := by
  rw [trimWhile, dropEndWhile, List.mem_reverse] at h
  exact (List.dropWhile_sublist p).mem (List.mem_reverse.mp ((List.dropWhile_sublist p).mem h))

theorem mem_trimWhile {c : Char} (h : c ∈ cs) (hc : p c = false) : c ∈ trimWhile p cs := by
  have hdrop : ∀ {ds : List Char}, c ∈ ds → c ∈ ds.dropWhile p := by
    intro ds hmem
    rw [← List.takeWhile_append_dropWhile (p := p) (l := ds), List.mem_append] at hmem
    exact hmem.resolve_left fun htake => absurd (List.mem_takeWhile_imp htake) (by simp [hc])
  exact List.mem_reverse.mpr (hdrop (List.mem_reverse.mpr (hdrop h)))

theorem trimWhile_append_left (h : ∀ c ∈ cs, p c = true) : trimWhile p (cs ++ ds) = trimWhile p ds := by
  rw [trimWhile, List.dropWhile_append_of_pos h, trimWhile]

theorem trimWhile_append_right (h : ∀ c ∈ ds, p c = true) : trimWhile p (cs ++ ds) = trimWhile p cs := by
  have hreverse : ∀ c ∈ ds.reverse, p c = true := fun c hc => h c (List.mem_reverse.mp hc)
  rw [trimWhile, trimWhile, List.dropWhile_append]
  split
  next hnil => rw [List.isEmpty_iff.mp hnil, List.dropWhile_eq_nil_iff.mpr h]
  next => rw [dropEndWhile, List.reverse_append, List.dropWhile_append_of_pos hreverse, dropEndWhile]

/-- What was dropped at the start would have been trimmed. -/
theorem trimWhile_dropWhile {q : Char → Bool} (h : ∀ c, q c = true → p c = true) :
    trimWhile p (cs.dropWhile q) = trimWhile p cs := by
  conv_rhs => rw [← List.takeWhile_append_dropWhile (p := q) (l := cs)]
  exact (trimWhile_append_left fun c hc => h c (List.mem_takeWhile_imp hc)).symm

theorem trimWhile_dropEndWhile : trimWhile p (dropEndWhile p cs) = trimWhile p cs := by
  have hcs : cs = dropEndWhile p cs ++ (cs.reverse.takeWhile p).reverse := by
    rw [dropEndWhile, ← List.reverse_append, List.takeWhile_append_dropWhile, List.reverse_reverse]
  conv_rhs => rw [hcs]
  exact (trimWhile_append_right fun c hc => List.mem_takeWhile_imp (List.mem_reverse.mp hc)).symm

theorem trimWhile_trimWhile : trimWhile p (trimWhile p cs) = trimWhile p cs := by
  rw [trimWhile.eq_1 p cs, trimWhile_dropEndWhile, trimWhile, List.dropWhile_idempotent]

theorem dropWhile_append_of_head? (h : ∀ c, ds.head? = some c → p c = false) :
    (cs ++ ds).dropWhile p = cs.dropWhile p ++ ds := by
  rw [List.dropWhile_append]
  split
  next hnil => rw [List.isEmpty_iff.mp hnil, List.nil_append, dropWhile_of_head? h]
  next => rfl

/-- A text around characters that stay is trimmed at its ends only. -/
theorem trimWhile_append_append {mid : List Char} (hne : mid ≠ []) (h : ∀ c ∈ mid, p c = false) :
    trimWhile p (cs ++ (mid ++ ds)) = cs.dropWhile p ++ (mid ++ dropEndWhile p ds) := by
  have hfirst : ∀ c, (mid ++ ds).head? = some c → p c = false := by
    intro c hc
    rw [List.head?_append_of_ne_nil _ hne] at hc
    exact h c (List.mem_of_head? hc)
  have hlast : ∀ c, (mid.reverse ++ (cs.dropWhile p).reverse).head? = some c → p c = false := by
    intro c hc
    rw [List.head?_append_of_ne_nil _ (by simpa using hne)] at hc
    exact h c (List.mem_reverse.mp (List.mem_of_head? hc))
  rw [trimWhile, dropWhile_append_of_head? hfirst, dropEndWhile, List.reverse_append, List.reverse_append,
    List.append_assoc, dropWhile_append_of_head? hlast]
  simp [dropEndWhile]

theorem isBlank_of_isSpacing {c : Char} (h : isSpacing c = true) : isBlank c = true := by
  simp only [isSpacing, Bool.or_eq_true, beq_iff_eq] at h
  rcases h with ((rfl | rfl) | rfl) | rfl <;> decide

theorem isBlank_eq_false_of_isDigit {c : Char} (h : c.isDigit = true) : isBlank c = false := by
  have hcode := Char.isDigit_iff_toNat.mp h
  simp only [isBlank, Bool.or_eq_false_iff, Bool.and_eq_false_iff, decide_eq_false_iff_not, beq_eq_false_iff_ne]
  simp only [Char.reduceToNat] at hcode
  omega

/-! ### Cutting -/

/-- A text is cut at the first mark. -/
theorem cut?_append_append (h : ∀ c ∈ cs, c ≠ mark) (more rest : List Char) :
    cut? (mark :: more) (cs ++ mark :: (more ++ rest)) = some (cs, rest) := by
  induction cs with
  | nil => simp [cut?]
  | cons c cs ih =>
    rw [List.forall_mem_cons] at h
    simp [cut?, ih h.2, Ne.symm h.1]

theorem cut?_append (h : ∀ c ∈ cs, c ≠ mark) (rest : List Char) :
    cut? [mark] (cs ++ mark :: rest) = some (cs, rest) :=
  cut?_append_append h [] rest

theorem cut?_eq_none (h : ∀ c ∈ cs, c ≠ mark) (more : List Char) : cut? (mark :: more) cs = none := by
  induction cs with
  | nil => rfl
  | cons c cs ih =>
    rw [List.forall_mem_cons] at h
    simp [cut?, ih h.2, Ne.symm h.1]

end ItemQuery.Text
