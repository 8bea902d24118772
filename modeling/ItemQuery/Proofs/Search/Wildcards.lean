import ItemQuery.Proofs.Search.Values

/-! Patterns in search boxes, under any settings that tell their characters apart. A wildcard text is read as runs and
    literals, and what is written for these is read as the same pattern. With an escape it is bound to be one alternative;
    without one nothing keeps a delimiter inside a literal from cutting the text. -/

namespace ItemQuery.Search

open Pattern

variable {s : SearchSettings} {cs ds : List Char} {x : Piece} {p : Pattern} {value : String}

/-- Settings whose delimiters, escape character and wildcards are told apart, and are no white space. -/
structure Distinct (s : SearchSettings) : Prop where
  delimiter : ∀ c ∈ s.orDelimiters.toList, Text.isBlank c = false ∧ c ∉ WildcardSyntax.simpleSearch.anyRun
  escape : ∀ escape, s.escape = some escape →
    Text.isBlank escape = false ∧ escape ∉ WildcardSyntax.simpleSearch.anyRun ∧ escape ∉ s.orDelimiters.toList

theorem Distinct.escapes {escape : Char} (hs : Distinct s) (h : s.escape = some escape) : Escapes s escape where
  eq := h
  blank := (hs.escape escape h).1
  run := (hs.escape escape h).2.1
  delimiter := (hs.escape escape h).2.2
  delimiters c hc := (hs.delimiter c hc).2

/-! ### What is read -/

/-- A character that stands in a text and, without an escape, is no wildcard. -/
def Legible (s : SearchSettings) (cs : List Char) (c : Char) : Prop :=
  c ∈ cs ∧ (s.escape = none → c ∉ WildcardSyntax.simpleSearch.anyRun)

/-- A run or a character, as it is read from a text. -/
inductive Mark (s : SearchSettings) (cs : List Char) : Piece → Prop
  | run : Mark s cs .anyRun
  | char {c : Char} (h : Legible s cs c) : Mark s cs (.literal c.toString)

theorem Mark.mono (h : Mark s ds x) (hsub : ∀ c ∈ ds, c ∈ cs) : Mark s cs x := by
  cases h with
  | run => exact .run
  | char h => exact .char ⟨hsub _ h.1, h.2⟩

theorem Mark.simplified (h : Mark s cs x) : x.simplified = [x] := by
  cases h with
  | run => rfl
  | @char c _ => exact simplified_literal c

theorem Mark.isUnit (h : Mark s cs x) : Piece.IsUnit (fun _ => False) x := by
  cases h with
  | run => exact .run
  | char _ => exact .char _

theorem marks_of_wildcardPieces {position : Nat} {ps : List Piece}
    (h : wildcardPieces (wildcards s) position cs = .ok ps) : ∀ x ∈ ps, Mark s cs x := by
  have hcons : ∀ {r : Result (List Piece)} {first : Piece} {ps : List Piece} {cs ds : List Char},
      r.map (first :: ·) = .ok ps → Mark s cs first → (∀ c ∈ ds, c ∈ cs) →
        (∀ qs, r = .ok qs → ∀ x ∈ qs, Mark s ds x) → ∀ x ∈ ps, Mark s cs x := by
    intro r first ps cs ds hr hfirst hsub hrest x hx
    obtain ⟨qs, hqs, rfl⟩ := Result.map_eq_ok.mp hr
    rcases List.mem_cons.mp hx with rfl | hx
    · exact hfirst
    · exact (hrest qs hqs x hx).mono hsub
  generalize hS : wildcards s = S at h
  have hescape : S.escape = s.escape := hS ▸ rfl
  have hruns : S.anyRun = WildcardSyntax.simpleSearch.anyRun := hS ▸ rfl
  have hsingle : S.singleChar = none := hS ▸ rfl
  have hdigit : S.singleDigit = none := hS ▸ rfl
  have hbrackets : S.brackets = false := hS ▸ rfl
  fun_induction wildcardPieces S position cs generalizing ps with
  | case1 =>
    cases h
    exact fun _ hx => absurd hx List.not_mem_nil
  | case2 position c heq next more ih =>
    have hnone : s.escape = none → next ∉ WildcardSyntax.simpleSearch.anyRun := fun hnone => by
      simp [hescape, hnone] at heq
    exact hcons h (.char ⟨by simp, hnone⟩) (by simp +contextual) fun qs hqs => ih hqs
  | case3 position c heq =>
    cases h
    rw [List.forall_mem_singleton]
    exact .char ⟨List.mem_singleton_self c, fun hnone => by simp [hescape, hnone] at heq⟩
  | case4 position c rest _ _ ih => exact hcons h .run (by simp +contextual) fun qs hqs => ih hqs
  | case5 position c rest _ _ heq => simp [hsingle] at heq
  | case6 position c rest _ _ _ heq => simp [hdigit] at heq
  | case7 position c rest _ _ _ _ heq => simp [hbrackets] at heq
  | case8 position c rest _ _ _ _ heq => simp [hbrackets] at heq
  | case9 position c rest _ hrun _ _ _ ih =>
    have hliteral : c ∉ WildcardSyntax.simpleSearch.anyRun := by
      rwa [← hruns, ← List.contains_iff_mem]
    exact hcons h (.char ⟨List.mem_cons_self, fun _ => hliteral⟩) (by simp +contextual) fun qs hqs => ih hqs

/-! ### Merging -/

/-- All characters of a text have the property. -/
def Letters (Q : Char → Prop) : Piece → Prop
  | .text value _ => ∀ c ∈ value.toList, Q c
  | _ => True

theorem Mark.letters (h : Mark s cs x) : Letters (Legible s cs) x := by
  cases h with
  | run => trivial
  | char h => simpa [Piece.literal, Letters] using h

theorem letters_merge? {Q : Char → Prop} {a b m : Piece} (h : Piece.merge? a b = some m) (ha : Letters Q a)
    (hb : Letters Q b) : Letters Q m := by
  unfold Piece.merge? at h
  split at h
  · split at h
    · cases h
      simp only [Letters, String.toList_append, List.forall_mem_append]
      exact ⟨ha, hb⟩
    · split at h
      · obtain ⟨r, -, rfl⟩ := Option.map_eq_some_iff.mp h
        exact ha
      · cases h
  · split at h <;> cases h
    trivial
  · cases h
  · split at h
    · obtain ⟨r, -, rfl⟩ := Option.map_eq_some_iff.mp h
      cases a <;> exact ha
    · cases h

theorem letters_foldl {Q : Char → Prop} {us rev : List Piece} (hus : ∀ u ∈ us, Letters Q u)
    (hrev : ∀ x ∈ rev, Letters Q x) : ∀ x ∈ us.foldl Piece.pushMerged rev, Letters Q x := by
  refine List.foldlRecOn us Piece.pushMerged (motive := fun rev => ∀ x ∈ rev, Letters Q x) hrev fun rev hrev u hu => ?_
  cases rev with
  | nil => exact List.forall_mem_singleton.mpr (hus u hu)
  | cons last before =>
    rw [List.forall_mem_cons] at hrev
    simp only [Piece.pushMerged]
    split
    next m hm => exact List.forall_mem_cons.mpr ⟨letters_merge? hm hrev.1 (hus u hu), hrev.2⟩
    next => exact List.forall_mem_cons.mpr ⟨hus u hu, List.forall_mem_cons.mpr hrev⟩

/-! ### What is written -/

/-- A text for pieces that is read as their units. With an escape, it is one alternative once its delimiters are
    escaped; without one, its characters are those of the pieces. -/
structure Writes (s : SearchSettings) (cs : List Char) (ps : List Piece) (shown : List Char) : Prop where
  text : sequenceText (wildcards s) '*' ps = .ok shown
  spells : ∃ qs, Spells (wildcards s) shown qs ∧ qs.flatMap Piece.simplified = ps.flatMap Piece.units
  escaped : Escaped s shown
  chars : s.escape = none → ∀ c ∈ shown, c ∈ WildcardSyntax.simpleSearch.anyRun ∨ c ∈ cs

theorem writes_nil (s : SearchSettings) (cs : List Char) : Writes s cs [] [] :=
  ⟨rfl, ⟨[], spells_nil _, rfl⟩, .nil, fun _ _ => nofun⟩

theorem Writes.cons {ps : List Piece} {first rest : List Char} (h : Writes s cs [x] first) (h' : Writes s cs ps rest) :
    Writes s cs (x :: ps) (first ++ rest) where
  text := by
    have hfirst := h.text
    rw [sequenceText] at hfirst
    obtain ⟨shown, hshown, hfirst⟩ := Result.bind_eq_ok.mp hfirst
    cases hfirst
    rw [sequenceText, hshown, Result.ok_bind, h'.text]
    simp [bind, Except.bind, pure, Except.pure]
  spells := by
    obtain ⟨qs, hspells, hqs⟩ := h.spells
    obtain ⟨rs, hspells', hrs⟩ := h'.spells
    refine ⟨qs ++ rs, hspells.append hspells', ?_⟩
    rw [List.flatMap_append, List.flatMap_cons, hqs, hrs, List.flatMap_singleton]
  escaped := h.escaped.append h'.escaped
  chars hnone := List.forall_mem_append.mpr ⟨h.chars hnone, h'.chars hnone⟩

theorem sequenceText_singleton {shown : List Char} (h : pieceText (wildcards s) '*' x = .ok shown) :
    sequenceText (wildcards s) '*' [x] = .ok shown := by
  rw [sequenceText, h, Result.ok_bind, sequenceText]
  exact congrArg Except.ok (List.append_nil shown)

theorem writes_run (hs : Distinct s) (cs : List Char) : Writes s cs [.anyRun] ['*'] := by
  have hrun : '*' ∈ WildcardSyntax.simpleSearch.anyRun := by decide
  have hne : s.escape ≠ some '*' := fun heq => (hs.escape '*' heq).2.1 hrun
  exact ⟨rfl, ⟨[.anyRun], spells_run rfl hne, rfl⟩, .plain hne .nil,
    fun _ => List.forall_mem_singleton.mpr (.inl hrun)⟩

theorem escapeLiteral_plain {S : WildcardSyntax} (h : ∀ c ∈ cs, S.isSpecial c = false) :
    escapeLiteral S cs = .ok cs ∧ Spells S cs (cs.map fun c => .literal c.toString) := by
  induction cs with
  | nil => exact ⟨rfl, spells_nil S⟩
  | cons c cs ih =>
    rw [List.forall_mem_cons] at h
    obtain ⟨htext, hspells⟩ := ih h.2
    refine ⟨?_, (spells_literal h.1).append hspells⟩
    simp only [escapeLiteral, h.1, htext]
    rfl

theorem writes_literal (hs : Distinct s) (h : ∀ c ∈ value.toList, Legible s cs c) :
    ∃ shown, Writes s cs [.literal value] shown := by
  cases hescape : s.escape with
  | some escape =>
    have hescapes := hs.escapes hescape
    obtain ⟨shown, qs, htext, hspells, hqs⟩ := escapeLiteral_spells (clear_wildcards hescapes) value.toList
    have hpiece : pieceText (wildcards s) '*' (.literal value) = .ok shown := by
      simp only [Piece.literal, pieceText, htext]
      exact repeated_once shown none
    have hescaped : Escaped s shown := by
      cases htext.symm.trans (escapeLiteral_wildcards hescapes value.toList)
      exact escaped_literalChars hescapes value.toList
    refine ⟨shown, sequenceText_singleton hpiece, ⟨qs, hspells, ?_⟩, hescaped, fun hnone => ?_⟩
    · rw [hqs, List.flatMap_singleton]
      rfl
    · cases hescape.symm.trans hnone
  | none =>
    have hplain : ∀ c ∈ value.toList, (wildcards s).isSpecial c = false := by
      intro c hc
      have hrun := (h c hc).2 hescape
      simpa [WildcardSyntax.isSpecial, wildcards, hescape, WildcardSyntax.simpleSearch] using hrun
    obtain ⟨htext, hspells⟩ := escapeLiteral_plain hplain
    have hpiece : pieceText (wildcards s) '*' (.literal value) = .ok value.toList := by
      simp only [Piece.literal, pieceText, htext]
      exact repeated_once value.toList none
    have hescaped : ∀ cs : List Char, Escaped s cs := by
      intro cs
      induction cs with
      | nil => exact .nil
      | cons c cs ih => exact .plain (by simp [hescape]) ih
    refine ⟨_, sequenceText_singleton hpiece, ⟨_, hspells, ?_⟩, hescaped _, fun _ c hc => .inr (h c hc).1⟩
    rw [List.flatMap_map, List.flatMap_singleton]
    simp only [simplified_literal]
    rw [← List.map_eq_flatMap]
    rfl

/-- Merged pieces of legible characters can be written. -/
theorem exists_writes (hs : Distinct s) {ps : List Piece}
    (hmerged : ∀ x ∈ ps, Piece.IsMerged (fun _ => False) x) (hletters : ∀ x ∈ ps, Letters (Legible s cs) x) :
    ∃ shown, Writes s cs ps shown := by
  induction ps with
  | nil => exact ⟨[], writes_nil s cs⟩
  | cons x ps ih =>
    rw [List.forall_mem_cons] at hmerged hletters
    obtain ⟨rest, hrest⟩ := ih hmerged.2 hletters.2
    obtain ⟨first, hfirst⟩ : ∃ first, Writes s cs [x] first := by
      cases hmerged.1 with
      | text hne => exact writes_literal hs hletters.1
      | closed hfalse => exact hfalse.elim
      | @opened n hnone =>
        obtain rfl : n = 0 := Decidable.of_not_not hnone
        exact ⟨['*'], writes_run hs cs⟩
    exact ⟨first ++ rest, hfirst.cons hrest⟩

/-- What was read is written, and what is written is read as the same pattern. -/
theorem exists_written (hs : Distinct s) (h : ofWildcard (wildcards s) value = .ok p) :
    ∃ shown, toWildcard (wildcards s) p = .ok shown ∧ ofWildcard (wildcards s) shown = .ok p ∧
      Escaped s shown.toList ∧
      (s.escape = none → ∀ c ∈ shown.toList, c ∈ WildcardSyntax.simpleSearch.anyRun ∨ c ∈ value.toList) := by
  obtain ⟨raw, hraw, -⟩ := Result.map_eq_ok.mp h
  obtain ⟨ps, hps, -⟩ := Result.map_eq_ok.mp hraw
  have hmarks := marks_of_wildcardPieces hps
  have hsimplified : ps.flatMap Piece.simplified = ps :=
    (List.flatMap_congr fun x hx => (hmarks x hx).simplified).trans (List.flatMap_singleton' ps)
  have hcanonical := Piece.Canonical.foldl_pushMerged (fun u hu => (hmarks u hu).isUnit) .start
  have hstart : ∀ x ∈ [Piece.at_ .start], Letters (Legible s value.toList) x := List.forall_mem_singleton.mpr trivial
  have hletters := letters_foldl (fun u hu => (hmarks u hu).letters) hstart
  obtain ⟨body, hbody, hmerged⟩ := hcanonical.reverse_eq
  have hp := ofWildcard_eq hps (by rw [hsimplified]) hcanonical
  rw [h, hbody] at hp
  cases hp
  have hmem : ∀ x ∈ body, Letters (Legible s value.toList) x := fun x hx =>
    hletters x (List.mem_reverse.mp (hbody ▸ List.mem_cons_of_mem _ hx))
  obtain ⟨shown, hwrites⟩ := exists_writes hs hmerged hmem
  obtain ⟨qs, hspells, hqs⟩ := hwrites.spells
  -- The units of the pattern are merged to what the units of the text were merged to.
  have hagain : (qs.flatMap Piece.simplified).foldl Piece.pushMerged [.at_ .start] =
      ps.foldl Piece.pushMerged [.at_ .start] := by
    have hunits := hcanonical.foldl_flatMap_units
    rw [hbody, List.flatMap_cons, ← hqs] at hunits
    exact hunits
  have hread : wildcardPieces (wildcards s) 0 (String.ofList shown).toList = .ok qs := by
    rw [String.toList_ofList]
    exact hspells.wildcardPieces
  refine ⟨String.ofList shown, toWildcard_anchored rfl hwrites.text, ?_, ?_, ?_⟩
  · rw [ofWildcard_eq hread hagain hcanonical, hbody]
  · rw [String.toList_ofList]
    exact hwrites.escaped
  · rw [String.toList_ofList]
    exact hwrites.chars

/-! ### Reading back -/

theorem exists_cut (hescape : s.escape = none) : ∀ cs : List Char, ∃ first pieces, cut s cs = first :: pieces
  | [] => ⟨[], [], rfl⟩
  | c :: cs => by
    by_cases hmark : c ∈ s.orDelimiters.toList
    · exact ⟨_, _, cut_mark ⟨hmark, by simp [hescape]⟩ cs⟩
    · obtain ⟨first, pieces, hcut⟩ := exists_cut hescape cs
      exact ⟨_, _, cut_plain ⟨hmark, by simp [hescape]⟩ hcut⟩

/-- Without an escape no piece holds a delimiter. -/
theorem not_mem_of_mem_cut (hescape : s.escape = none) :
    ∀ {cs piece : List Char}, piece ∈ cut s cs → ∀ c ∈ piece, c ∉ s.orDelimiters.toList
  | [], piece, h => by
    rw [List.mem_singleton.mp h]
    exact nofun
  | c :: cs, piece, h => by
    by_cases hmark : c ∈ s.orDelimiters.toList
    · rw [cut_mark ⟨hmark, by simp [hescape]⟩] at h
      rcases List.mem_cons.mp h with rfl | h
      · exact nofun
      · exact not_mem_of_mem_cut hescape h
    · obtain ⟨first, pieces, hcut⟩ := exists_cut hescape cs
      rw [cut_plain ⟨hmark, by simp [hescape]⟩ hcut] at h
      have hrest : ∀ piece ∈ cut s cs, ∀ c ∈ piece, c ∉ s.orDelimiters.toList := fun _ => not_mem_of_mem_cut hescape
      rw [hcut, List.forall_mem_cons] at hrest
      rcases List.mem_cons.mp h with rfl | h
      · exact List.forall_mem_cons.mpr ⟨hmark, hrest.1⟩
      · exact hrest.2 piece h

/-- Without an escape no alternative holds a delimiter. -/
theorem not_mem_of_mem_alternatives (hescape : s.escape = none) {shown alternative : String}
    (h : alternative ∈ alternatives s shown) : ∀ c ∈ alternative.toList, c ∉ s.orDelimiters.toList := by
  obtain ⟨piece, hpiece, rfl⟩ := List.mem_map.mp (List.mem_filter.mp h).1
  rw [String.toList_ofList]
  exact fun c hc => not_mem_of_mem_cut hescape hpiece c (Text.mem_of_mem_trimWhile hc)

/-- Criteria that are joined to one that is neither a list nor a chain of alternatives are this one alone. -/
theorem eq_singleton_of_combine {es : List Expr} {e : Expr} (h : combine es = some e)
    (hlist : ∀ l items negated table, e ≠ .inList l items negated table) (hor : ∀ l r, e ≠ .logical .or l r) :
    es = [e] := by
  have hnone : ∀ {op negated}, valueList? op negated es ≠ some e := by
    intro op negated hvalues
    obtain ⟨items, -, hvalues⟩ := Option.bind_eq_some_iff.mp hvalues
    obtain ⟨left, -, rfl⟩ := Option.map_eq_some_iff.mp hvalues
    exact hlist _ _ _ _ rfl
  obtain ⟨-, hequal | hunequal⟩ | hjoin := of_combine h
  · exact absurd hequal hnone
  · exact absurd hunequal hnone
  · match es with
    | [] => cases hjoin
    | first :: rest =>
      obtain rfl : rest.foldl (.logical .or) first = e := Option.some.inj hjoin
      rcases List.eq_nil_or_concat' rest with rfl | ⟨front, last, rfl⟩
      · rfl
      · rw [List.foldl_append] at hor
        exact absurd rfl (hor _ _)

/-- What is left of a text without the escapes of its delimiters has no white space at its ends either. -/
theorem trimmed_of_escapeDelimiters (hs : Distinct s) {shown : String}
    (h : Trimmed (escapeDelimiters s shown).toList) : Trimmed shown.toList := by
  cases hescape : s.escape with
  | none => simpa [escapeDelimiters, hescape] using h
  | some escape =>
    have htext : (escapeDelimiters s shown).toList =
        shown.toList.flatMap fun c => if c ∈ s.orDelimiters.toList then [escape, c] else [c] := by
      simp [escapeDelimiters, hescape]
    rw [htext] at h
    generalize shown.toList = cs at h
    simp only [Trimmed, Text.trimWhile_eq_self_iff, or_imp, forall_and] at h ⊢
    refine ⟨fun c hc => ?_, fun c hc => h.2 c ?_⟩
    · obtain ⟨rest, rfl⟩ := List.head?_eq_some_iff.mp hc
      by_cases hmark : c ∈ s.orDelimiters.toList
      · exact (hs.delimiter c hmark).1
      · exact h.1 c (by simp [hmark])
    · obtain ⟨front, rfl⟩ := List.getLast?_eq_some_iff.mp hc
      rw [List.flatMap_append, List.flatMap_singleton, List.getLast?_append]
      split <;> rfl

/-- A text is read as a pattern if it has wildcards. -/
theorem alternative_eq_like {r : PropertyRef} {alternative : String} :
    Reader.alternative { settings := s, dataType := .string } (.property r) alternative =
        .ok (.like (.property r) (.pattern p) false) ↔
      ofWildcard (wildcards s) alternative = .ok p ∧ p.hasWildcards = true := by
  simp only [Reader.alternative, DataType.isNumeric, Reader.textual, Reader.allowsWildcards, Reader.defaultOp,
    reduceCtorEq, if_false, Bool.false_eq_true, or_self, if_true, decide_false, Bool.or_self]
  rw [Result.bind_eq_ok]
  constructor
  · rintro ⟨pattern, hpattern, h⟩
    cases hliteral : pattern.literal? with
    | some literal =>
      rw [hliteral] at h
      cases h
    | none =>
      rw [hliteral] at h
      cases h
      exact ⟨hpattern, by rw [Pattern.hasWildcards, hliteral]; rfl⟩
  · rintro ⟨hpattern, hwild⟩
    have hliteral : p.literal? = none := Option.isNone_iff_eq_none.mp hwild
    exact ⟨p, hpattern, by rw [hliteral]⟩

theorem ne_empty_of_hasWildcards (h : ofWildcard (wildcards s) value = .ok p) (hwild : p.hasWildcards = true) :
    value ≠ "" := by
  rintro rfl
  have hpieces : wildcardPieces (wildcards s) 0 "".toList = .ok [] := by rw [String.toList_empty, wildcardPieces]
  have hempty : ofWildcard (wildcards s) "" = .ok (ofText "") := ofWildcard_of_wildcardPieces hpieces
  cases hempty.symm.trans h
  cases hwild

/-- A pattern that was read from a text with wildcards can always be written. With an escape what is written is read as
    the same criterion; without one it is if and only if no delimiter stands in it. -/
theorem exists_render_like (hs : Distinct s) (r : PropertyRef) (h : ofWildcard (wildcards s) value = .ok p)
    (hwild : p.hasWildcards = true) :
    ∃ shown, render s (.like (.property r) (.pattern p) false) = .ok shown ∧
      (Trimmed shown.toList →
        (Reader.read { settings := s, dataType := .string } r shown =
            .ok (some (.like (.property r) (.pattern p) false)) ↔
          (s.escape = none → ∀ c ∈ shown.toList, c ∉ s.orDelimiters.toList))) := by
  obtain ⟨shown, htext, hread, hescaped, hchars⟩ := exists_written hs h
  refine ⟨escapeDelimiters s shown, ?_, fun htrim => ?_⟩
  · show termText s (.like (.property r) (.pattern p) false) = _
    rw [termText, htext]
    rfl
  have hne : shown.toList ≠ [] := fun hnil => ne_empty_of_hasWildcards hread hwild (String.toList_inj.mp hnil)
  constructor
  · intro hagain hescape
    -- The criterion is what one alternative is read as, and without an escape this one holds no delimiter.
    have hplain : escapeDelimiters s shown = shown := by rw [escapeDelimiters, hescape]
    rw [hplain] at hagain ⊢
    unfold Reader.read at hagain
    simp only [reduceCtorEq, or_self, if_false] at hagain
    split at hagain
    next => cases hagain
    next =>
      obtain ⟨es, hes, hcombine⟩ := Result.bind_eq_ok.mp hagain
      obtain rfl := eq_singleton_of_combine (Except.ok.inj hcombine) (fun _ _ _ _ heq => by cases heq)
        fun _ _ heq => by cases heq
      obtain ⟨alternative, hmem, halternative⟩ := Result.exists_of_mem hes (List.mem_singleton_self _)
      obtain ⟨shown', htext', -, -, hchars'⟩ := exists_written hs (alternative_eq_like.mp halternative).1
      obtain rfl : shown = shown' := Except.ok.inj (htext.symm.trans htext')
      intro c hc hmark
      rcases hchars' hescape c hc with hrun | hletter
      · exact (hs.delimiter c hmark).2 hrun
      · exact not_mem_of_mem_alternatives hescape hmem c hletter hmark
  · intro hfree
    have hcuts : Cuts s (escapeDelimiters s shown).toList [shown.toList] := by
      cases hescape : s.escape with
      | some escape => exact (hescaped.bound (hs.escapes hescape)).cuts
      | none =>
        have hplain : escapeDelimiters s shown = shown := by rw [escapeDelimiters, hescape]
        have hmarks := hfree hescape
        rw [hplain] at hmarks ⊢
        exact (bound_of_forall fun c hc => ⟨hmarks c hc, by simp [hescape]⟩).cuts
    have halternatives : alternatives s (escapeDelimiters s shown) = [shown] := by
      have hpieces := alternatives_of_trimmed hcuts
        (List.forall_mem_singleton.mpr ⟨hne, trimmed_of_escapeDelimiters hs htrim⟩)
      rwa [List.map_singleton, String.ofList_toList] at hpieces
    have hterms : (alternatives s (escapeDelimiters s shown)).mapM
        (Reader.alternative { settings := s, dataType := .string } (.property r)) =
          .ok [.like (.property r) (.pattern p) false] := by
      rw [halternatives, List.mapM_cons, alternative_eq_like.mpr ⟨hread, hwild⟩]
      rfl
    have hfull : (alternatives s (escapeDelimiters s shown)).isEmpty = false := by rw [halternatives]; rfl
    simp only [Reader.read, hfull, hterms, Bool.false_eq_true, if_false, reduceCtorEq, or_self, Result.ok_bind]
    rfl

/-- `;a~**` is written with its delimiter escaped. -/
theorem exists_render_like_tilde :
    let s : SearchSettings := { orDelimiters := ";|", escape := some '~' }
    let r : PropertyRef := { table := ⟨0, 0⟩, name := "name" }
    ∃ p, (Distinct s ∧ ofWildcard (wildcards s) ";a~**" = .ok p ∧ p.hasWildcards = true ∧ Trimmed "~;a~**".toList) ∧
      render s (.like (.property r) (.pattern p) false) = .ok "~;a~**" ∧
      Reader.read { settings := s, dataType := .string } r "~;a~**" =
        .ok (some (.like (.property r) (.pattern p) false)) := by
  intro s r
  have hs : Distinct s := ⟨by decide, fun escape hescape => by cases hescape; decide⟩
  have htrim : Trimmed "~;a~**".toList := by rw [Trimmed]; decide
  have hpieces : wildcardPieces (wildcards s) 0 ";a~**".toList =
      .ok [.literal ";", .literal "a", .literal "*", .anyRun] := by
    simp [wildcardPieces, s, wildcards, WildcardSyntax.simpleSearch, Except.map]
  obtain ⟨p, hp, hwild, hrender⟩ : ∃ p, ofWildcard (wildcards s) ";a~**" = .ok p ∧ p.hasWildcards = true ∧
      render s (.like (.property r) (.pattern p) false) = .ok "~;a~**" :=
    ⟨_, ofWildcard_of_wildcardPieces hpieces, rfl, by decide +kernel⟩
  obtain ⟨shown, hshown, hread⟩ := exists_render_like hs r hp hwild
  obtain rfl : "~;a~**" = shown := Except.ok.inj (hrender.symm.trans hshown)
  exact ⟨p, ⟨hs, hp, hwild, htrim⟩, hrender, (hread htrim).mpr fun hnone => by cases hnone⟩

/-- `a|b*` under a bar as delimiter and without an escape is read as the text `a` or the pattern `b*`. -/
theorem exists_read_render_ne :
    let s : SearchSettings := { orDelimiters := "|", escape := none }
    let r : PropertyRef := { table := ⟨0, 0⟩, name := "name" }
    ∃ p e, (Distinct s ∧ ofWildcard (wildcards s) "a|b*" = .ok p ∧ p.hasWildcards = true ∧ Trimmed "a|b*".toList) ∧
      render s (.like (.property r) (.pattern p) false) = .ok "a|b*" ∧
      Reader.read { settings := s, dataType := .string } r "a|b*" = .ok (some e) ∧
      e ≠ .like (.property r) (.pattern p) false := by
  intro s r
  have hs : Distinct s := ⟨by decide, nofun⟩
  have htrim : Trimmed "a|b*".toList := by rw [Trimmed]; decide
  have hpieces : wildcardPieces (wildcards s) 0 "a|b*".toList =
      .ok [.literal "a", .literal "|", .literal "b", .anyRun] := by
    simp [wildcardPieces, s, wildcards, WildcardSyntax.simpleSearch, Except.map]
  obtain ⟨p, hp, hwild, hrender⟩ : ∃ p, ofWildcard (wildcards s) "a|b*" = .ok p ∧ p.hasWildcards = true ∧
      render s (.like (.property r) (.pattern p) false) = .ok "a|b*" :=
    ⟨_, ofWildcard_of_wildcardPieces hpieces, rfl, rfl⟩
  have hsplit : (Reader.read { settings := s, dataType := .string } r "a|b*").toOption.join.map
      (fun e => (e.flatten .or).length) = some 2 := by decide +kernel
  obtain ⟨e, hread, hlength⟩ := Option.map_eq_some_iff.mp hsplit
  refine ⟨p, e, ⟨hs, hp, hwild, htrim⟩, hrender, Result.toOption_eq_some.mp (Option.join_eq_some_iff.mp hread), ?_⟩
  rintro rfl
  cases hlength

end ItemQuery.Search
