import ItemQuery.Proofs.Calendar.Texts
import ItemQuery.Proofs.Query.Forest
import ItemQuery.Proofs.Query.Handles
import ItemQuery.Proofs.Result
import ItemQuery.Proofs.Sql.Atoms
import ItemQuery.Proofs.Sql.Naming
import ItemQuery.Proofs.Sql.Tidy

/-! The parts of criteria are tidy: literals, names of properties, and the aliases that tables get from the initials of
    their types. -/

namespace ItemQuery.Sql

/-! ### Literals -/

theorem isInert_of_isDigit {c : Char} (h : c.isDigit = true) : isInert c = true := by
  have hne : ∀ x : Char, x.isDigit = false → c ≠ x := by
    rintro x hx rfl
    rw [h] at hx
    cases hx
  simp [isInert, hne '-' (by decide), hne '/' (by decide), hne '\'' (by decide), hne '[' (by decide),
    hne '"' (by decide)]

theorem head?_ne_of_inert {cs : List Char} (h : ∀ c ∈ cs, isInert c = true) : cs.head? ≠ some '-' := by
  intro hhead
  exact absurd (h '-' (List.mem_of_head? hhead)) (by decide)

theorem tidy_minus {cs : List Char} (h : ∀ c ∈ cs, isInert c = true) : Tidy ('-' :: cs) :=
  .minus (head?_ne_of_inert h) (tidy_of_inert h)

theorem isInert_toString (n : Nat) : ∀ c ∈ (toString n).toList, isInert c = true :=
  fun _ hc => isInert_of_isDigit (Number.isDigit_of_mem_toString hc)

theorem tidy_toString (k : Int) : Tidy (toString k).toList := by
  cases k with
  | ofNat k => exact tidy_of_inert (isInert_toString k)
  | negSucc k =>
    have htext : (toString (Int.negSucc k)).toList = '-' :: (toString (k + 1)).toList := by
      have hsign : toString (Int.negSucc k) = "-" ++ toString (k + 1) := rfl
      simp [hsign]
    rw [htext]
    exact tidy_minus (isInert_toString (k + 1))

section
variable {digits : List Char} (hdigits : ∀ c ∈ digits, isInert c = true) (point : Int)
include hdigits

theorem isInert_positional (layout : Number.Layout) : ∀ c ∈ Number.positional layout digits point, isInert c = true := by
  have hzeros : ∀ n, ∀ c ∈ Number.zeros n, isInert c = true := by
    intro n c hc
    rw [List.eq_of_mem_replicate hc]
    rfl
  have hending : ∀ c ∈ (if layout.keepsPoint then ['.', '0'] else []), isInert c = true := by
    cases layout.keepsPoint <;> decide
  unfold Number.positional
  dsimp only
  split
  · exact List.forall_mem_cons.mpr ⟨rfl, List.forall_mem_cons.mpr ⟨rfl, List.forall_mem_append.mpr ⟨hzeros _, hdigits⟩⟩⟩
  · split
    · exact List.forall_mem_append.mpr ⟨List.forall_mem_append.mpr ⟨hdigits, hzeros _⟩, hending⟩
    · refine List.forall_mem_append.mpr ⟨fun c hc => hdigits c (List.mem_of_mem_take hc), ?_⟩
      exact List.forall_mem_cons.mpr ⟨rfl, fun c hc => hdigits c (List.mem_of_mem_drop hc)⟩

theorem tidy_scientific : Tidy (Number.scientific digits point) ∧ (Number.scientific digits point).head? ≠ some '-' := by
  have hexponent : Tidy ('e' :: (toString (point - 1)).toList) := .inert rfl (tidy_toString _)
  have hhead : ∀ d ∈ digits, d ≠ '-' := by
    rintro d hd rfl
    exact absurd (hdigits _ hd) (by decide)
  match digits with
  | [] => exact ⟨hexponent, nofun⟩
  | [d] => exact ⟨.inert (hdigits d (by simp)) hexponent, fun h => hhead d (by simp) (Option.some.inj h)⟩
  | d :: d' :: rest =>
    refine ⟨.inert (hdigits d (by simp)) (.inert rfl ?_), fun h => hhead d (by simp) (Option.some.inj h)⟩
    exact tidy_append_of_inert (fun c hc => hdigits c (List.mem_cons_of_mem d hc)) hexponent

end

theorem tidy_decimalText (layout : Number.Layout) (x : Float) : Tidy (Number.decimalText layout x).toList := by
  unfold Number.decimalText
  obtain ⟨negative, exponent, fraction⟩ := Number.fields x
  dsimp only
  split
  · split
    · exact tidy_of_inert (by decide)
    · split
      · exact tidy_minus (by decide)
      · exact tidy_of_inert (by decide)
  · have hsigned : ∀ {body : List Char}, Tidy body ∧ body.head? ≠ some '-' →
        Tidy (String.ofList (if negative then '-' :: body else body)).toList := by
      rintro body ⟨hbody, hhead⟩
      rw [String.toList_ofList]
      cases negative with
      | true => exact .minus hhead hbody
      | false => exact hbody
    have hinert : ∀ {body : List Char}, (∀ c ∈ body, isInert c = true) → Tidy body ∧ body.head? ≠ some '-' :=
      fun h => ⟨tidy_of_inert h, head?_ne_of_inert h⟩
    refine hsigned ?_
    split
    · exact hinert (by cases layout.keepsPoint <;> decide)
    · have hdigits : ∀ c ∈ Nat.toDigits 10 (Number.magnitude x).shortest.1, isInert c = true :=
        fun c hc => isInert_of_isDigit (Nat.isDigit_of_mem_toDigits (by decide) (by decide) hc)
      split
      · exact tidy_scientific hdigits _
      · exact hinert (isInert_positional hdigits _ layout)

theorem doubled_of_not_mem {quote : Char} {cs : List Char} (h : quote ∉ cs) : Text.doubled quote cs = cs := by
  induction cs with
  | nil => rfl
  | cons c cs ih =>
    rw [List.mem_cons, not_or] at h
    rw [Text.doubled, if_neg (Ne.symm h.1), ih h.2]

theorem tidy_literal (l : Literal) : Tidy (Dialect.sqlServer.literal l).toList := by
  cases l with
  | bool b => cases b <;> exact tidy_of_inert (by decide)
  | integer n => exact tidy_toString n.toInt
  | float x => exact tidy_decimalText .literal x
  | string s => exact tidy_quoted s
  | dateTime t =>
    have hquote : '\'' ∉ t.isoText.toList := fun hmem => absurd (DateTime.isDateChar_isoText t _ hmem) (by decide)
    have htext : (Dialect.sqlServer.literal (.dateTime t)).toList = '\'' :: (t.isoText.toList ++ ['\'']) := by
      simp [Dialect.literal, Dialect.dateTimeLiteral]
    rw [htext, ← doubled_of_not_mem hquote]
    exact .quoted _ nofun .nil

/-! ### Names -/

theorem isInert_of_isWord {cs : List Char} (h : IsWord cs) : ∀ c ∈ cs, isInert c = true := by
  have hmark : ∀ x ∈ ['-', '/', '\'', '[', '"'], startsWord x = false ∧ continuesWord x = false := by decide
  obtain ⟨d, ds, rfl⟩ := List.exists_cons_of_ne_nil h.ne_nil
  have hinert : ∀ {c : Char}, startsWord c = true ∨ continuesWord c = true → isInert c = true := by
    intro c hc
    by_contra hinert
    rw [isInert, Bool.not_eq_true, Bool.not_eq_false'] at hinert
    obtain ⟨hstart, hcontinue⟩ := hmark c (List.contains_iff_mem.mp hinert)
    rcases hc with hc | hc
    · simp [hstart] at hc
    · simp [hcontinue] at hc
  exact List.forall_mem_cons.mpr ⟨hinert (.inl (h.head d rfl)), fun c hc => hinert (.inr (h.tail c hc))⟩

theorem tidy_identifier (name : String) : Tidy (Dialect.sqlServer.identifier name).toList := by
  rw [Dialect.identifier]
  split
  · rw [Dialect.quoteIdentifier, Text.toList_quotedBy]
    exact .bracketed _ (by simp) .nil
  · next hquoting =>
    rw [Bool.not_eq_true] at hquoting
    exact tidy_of_inert (isInert_of_isWord (isWord_of_needsQuoting hquoting))

/-! ### Aliases -/

/-- A name in which nothing starts a quote or a comment. -/
def IsInertName (name : String) : Prop :=
  ∀ c ∈ name.toList, isInert c = true

theorem isInert_of_isSmall {c : Char} (h : IsSmall c) : isInert c = true := by
  rcases h with hdigit | hlarge | rfl
  · exact isInert_of_isDigit hdigit
  · have hne : ∀ x : Char, x.toNat ≤ 0x5B → c ≠ x := by
      rintro x hx rfl
      omega
    simp [isInert, hne '-' (by decide), hne '/' (by decide), hne '\'' (by decide), hne '[' (by decide),
      hne '"' (by decide)]
  · rfl

theorem IsSmallName.isInertName {name : String} (h : IsSmallName name) : IsInertName name :=
  fun c hc => isInert_of_isSmall (h c hc)

/-- No table of the query was given an alias. -/
def Unnamed (q : Query) : Prop :=
  ∀ entry ∈ q.tables, entry.2.aliasName = none

theorem isInertName_of_ofQuery {ctx : Context} {q : Query} {names : Aliases} (hq : Unnamed q)
    (h : Aliases.ofQuery ctx q = .ok names) (id : TableId) : IsInertName (names.name id) := by
  have hfold : ∀ {ids : List TableId} {start names : Aliases}, (∀ entry ∈ start, IsInertName entry.2) →
      ids.foldlM (Aliases.add ctx q) start = .ok names → ∀ entry ∈ names, IsInertName entry.2 := by
    intro ids
    induction ids with
    | nil =>
      rintro start names hstart hrun
      cases hrun
      exact hstart
    | cons id ids ih =>
      intro start names hstart hrun
      rw [List.foldlM_cons] at hrun
      obtain ⟨more, hmore, hrun⟩ := Result.bind_eq_ok.mp hrun
      obtain ⟨item, hitem, hmore⟩ := Result.bind_eq_ok.mp hmore
      cases hmore
      refine ih (List.forall_mem_append.mpr ⟨hstart, List.forall_mem_singleton.mpr ?_⟩) hrun
      rw [hq (id, item) (Arena.mem_toList.mpr (Query.item_eq_ok.mp hitem))]
      exact ((isSmallName_baseName ctx q id item).freshName _).isInertName
  rw [Aliases.name]
  cases hfind : names.find? (·.1 == id) with
  | none =>
    unfold IsInertName
    decide
  | some entry => exact hfold (List.forall_mem_nil _) h entry (List.mem_of_find?_eq_some hfind)

end ItemQuery.Sql
