import ItemQuery.Proofs.Search.Pieces

/-! Texts and patterns in search boxes. The wildcards of search boxes have an escape and no sets, so a pattern that can
    be written is read as one that is found in the same texts, and a text without wildcards as itself; the text of a
    pattern holds its escapes in pairs, so that a delimiter can be escaped once more. -/

namespace ItemQuery

namespace Pattern

/-- A text whose special characters are made literal is read as itself. -/
theorem ofWildcard_escapeLiteral {S : WildcardSyntax} (hs : Clear S) {value : String} (hne : value ≠ "")
    {shown : List Char} (h : escapeLiteral S value.toList = .ok shown) :
    ofWildcard S (String.ofList shown) = .ok (ofText value) := by
  obtain ⟨shown', ps, htext, hspells, hps⟩ := escapeLiteral_spells hs value.toList
  cases htext.symm.trans h
  have hread : wildcardPieces S 0 (String.ofList shown).toList = .ok ps := by
    rw [String.toList_ofList]
    exact hspells.wildcardPieces
  have hrev : (ps.flatMap Piece.simplified).foldl Piece.pushMerged [.at_ .start] = [.literal value, .at_ .start] := by
    obtain ⟨c, cs, hcs⟩ := List.exists_cons_of_ne_nil fun hnil => hne (String.toList_inj.mp hnil)
    have hpush : Piece.pushMerged [.at_ .start] (.literal c.toString) = [.literal c.toString, .at_ .start] := rfl
    have hvalue : c.toString ++ String.ofList cs = value := by
      rw [← String.toList_inj, hcs]
      simp
    rw [hps, hcs, List.map_cons, List.foldl_cons, hpush, Piece.foldl_literals, hvalue]
  have hcanonical : Piece.Canonical (Writable S 'x') [.literal value, .at_ .start] := .cons .start (.text hne) trivial
  have hempty : value.isEmpty = false := by simpa [String.isEmpty_iff] using hne
  rw [ofWildcard_eq hread hrev hcanonical, ofText, textPieces, hempty]
  rfl

theorem literal?_ofText {value : String} (hne : value ≠ "") : (ofText value).literal? = some value := by
  have hempty : value.isEmpty = false := by simpa [String.isEmpty_iff] using hne
  simp [literal?, ofText, ofSequence, textPieces, hempty, Piece.at_, Piece.isAnchor, literalText?, Piece.literal,
    Piece.literal?, Repetition.isOnce, Repetition.once]

/-! ### Patterns that are read -/

theorem ordered_of_wildcardPieces {s : WildcardSyntax} {position : Nat} {cs : List Char} {ps : List Piece}
    (h : wildcardPieces s position cs = .ok ps) : SequenceOrdered ps := by
  have hcons : ∀ {r : Result (List Piece)} {p : Piece} {ps : List Piece}, r.map (p :: ·) = .ok ps →
      (∀ qs, r = .ok qs → SequenceOrdered qs) → p.Ordered → SequenceOrdered ps := by
    intro r p ps hr hrest hp
    obtain ⟨qs, hqs, rfl⟩ := Result.map_eq_ok.mp hr
    exact ⟨hp, hrest qs hqs⟩
  have honce : Repetition.once.Ordered := Repetition.ordered_of_isOnce rfl
  fun_induction wildcardPieces s position cs generalizing ps with
  | case1 =>
    cases h
    trivial
  | case3 =>
    cases h
    exact ⟨honce, trivial⟩
  | case8 => cases h
  | case4 _ _ _ _ _ ih => exact hcons h (fun qs hqs => ih hqs) (by rintro _ ⟨⟩)
  | case2 _ _ _ _ _ ih | case5 _ _ _ _ _ _ ih | case6 _ _ _ _ _ _ _ ih | case7 _ _ _ _ _ _ _ _ _ _ _ ih
  | case9 _ _ _ _ _ _ _ _ ih => exact hcons h (fun qs hqs => ih hqs) honce

theorem ordered_of_ofWildcard {s : WildcardSyntax} {value : String} {p : Pattern} (h : ofWildcard s value = .ok p) :
    p.Ordered := by
  obtain ⟨raw, hraw, rfl⟩ := Result.map_eq_ok.mp h
  obtain ⟨ps, hps, rfl⟩ := Result.map_eq_ok.mp hraw
  have hat : ∀ place, (Piece.at_ place).Ordered := fun _ => Repetition.ordered_of_isOnce rfl
  refine Ordered.simplify ⟨⟨hat .start, ?_⟩, trivial⟩
  exact sequenceOrdered_append.mpr ⟨ordered_of_wildcardPieces hps, hat .finish, trivial⟩

/-- A pattern without wildcards that was read is found in its text alone. -/
theorem finds_of_ofWildcard {s : WildcardSyntax} {value literal : String} {p : Pattern} (h : ofWildcard s value = .ok p)
    (hliteral : p.literal? = some literal) (cs : List Char) : p.Finds cs ↔ cs = literal.toList := by
  refine finds_iff_of_literal? (ordered_of_ofWildcard h) hliteral ?_ cs
  obtain ⟨ra, rb, body, rfl, -⟩ := eq_of_literal? hliteral
  have hfixed := fixed_alternatives.mp (sound_of_ofWildcard h).fixed _ (List.mem_singleton_self _)
  rw [fixed_sequence] at hfixed
  have hstart := hfixed _ List.mem_cons_self .start ra (by simp [Piece.leaves])
  have hfinish := hfixed (.anchor .finish rb) (by simp) .finish rb (by simp [Piece.leaves])
  simp [isFirm, Piece.count, List.getLast?_cons, hstart.1, hfinish.1]

end Pattern

namespace Search

open Pattern

/-! ### Escapes -/

variable {s : SearchSettings} {escape : Char} {cs ds shown : List Char}

/-- Settings with an escape character that is told apart: it is no wildcard, no delimiter and no white space, and the
    wildcards are no delimiters. -/
structure Escapes (s : SearchSettings) (escape : Char) : Prop where
  eq : s.escape = some escape
  blank : Text.isBlank escape = false
  run : escape ∉ WildcardSyntax.simpleSearch.anyRun
  delimiter : escape ∉ s.orDelimiters.toList
  delimiters : ∀ c ∈ s.orDelimiters.toList, c ∉ WildcardSyntax.simpleSearch.anyRun

theorem escapes_default : Escapes {} '\\' := by
  refine ⟨rfl, ?_, ?_, ?_, ?_⟩ <;> decide

theorem clear_wildcards (hs : Escapes s escape) : Clear (wildcards s) := by
  have hrun : ('*' : Char) ≠ escape := fun h => hs.run (h ▸ by decide)
  refine ⟨?_, ?_, ?_, ?_, ?_, ?_⟩ <;> simp [wildcards, WildcardSyntax.simpleSearch, hs.eq, hrun.symm]

/-- A text whose escapes stand in front of characters that are no delimiters. -/
inductive Escaped (s : SearchSettings) : List Char → Prop
  | nil : Escaped s []
  | plain {c : Char} {cs : List Char} (h : s.escape ≠ some c) (hrest : Escaped s cs) : Escaped s (c :: cs)
  | pair {escape c : Char} {cs : List Char} (hescape : s.escape = some escape) (h : c ∉ s.orDelimiters.toList)
    (hrest : Escaped s cs) : Escaped s (escape :: c :: cs)

theorem Escaped.append (h : Escaped s cs) (h' : Escaped s ds) : Escaped s (cs ++ ds) := by
  induction h with
  | nil => exact h'
  | plain hc _ ih => exact .plain hc ih
  | pair hescape hc _ ih => exact .pair hescape hc ih

theorem Escaped.replicate (h : Escaped s cs) (n : Nat) : Escaped s (List.replicate n cs).flatten := by
  induction n with
  | zero => exact .nil
  | succ n ih =>
    rw [List.replicate_succ, List.flatten_cons]
    exact h.append ih

theorem escaped_run : Escaped {} ['*'] :=
  .plain (by decide) .nil

/-- Delimiters get an escape, and the cut takes it away again. -/
theorem Escaped.bound (hs : Escapes s escape) {value : String} (h : Escaped s value.toList) :
    Bound s (escapeDelimiters s value).toList value.toList := by
  have htext : (escapeDelimiters s value).toList =
      value.toList.flatMap fun c => if c ∈ s.orDelimiters.toList then [escape, c] else [c] := by
    simp [escapeDelimiters, hs.eq]
  rw [htext]
  generalize value.toList = cs at h
  induction h with
  | nil => exact .nil
  | @plain c cs hc hrest ih =>
    by_cases hmark : c ∈ s.orDelimiters.toList
    · simpa [hmark] using Bound.delimiter hs.eq hmark ih
    · simpa [hmark] using Bound.plain ⟨hmark, hc⟩ ih
  | @pair first c cs hescape hc hrest ih =>
    obtain rfl : escape = first := Option.some.inj (hs.eq.symm.trans hescape)
    simpa [hc, hs.delimiter] using Bound.escaped hescape hc ih

/-- A character of a plain text, behind an escape if it is special. -/
def literalChar (s : SearchSettings) (escape c : Char) : List Char :=
  if (wildcards s).isSpecial c then [escape, c] else [c]

theorem isSpecial_iff (hs : Escapes s escape) {c : Char} :
    (wildcards s).isSpecial c = true ↔ c ∈ WildcardSyntax.simpleSearch.anyRun ∨ c = escape := by
  simp only [WildcardSyntax.isSpecial, wildcards, WildcardSyntax.simpleSearch, hs.eq]
  simp [@eq_comm _ escape]

theorem escapeLiteral_wildcards (hs : Escapes s escape) (cs : List Char) :
    escapeLiteral (wildcards s) cs = .ok (cs.flatMap (literalChar s escape)) := by
  induction cs with
  | nil => rfl
  | cons c cs ih =>
    have hescape : (wildcards s).escape = some escape := hs.eq
    simp only [escapeLiteral, ih, hescape, List.flatMap_cons, literalChar]
    cases (wildcards s).isSpecial c <;> rfl

theorem escaped_literalChars (hs : Escapes s escape) (cs : List Char) : Escaped s (cs.flatMap (literalChar s escape)) := by
  induction cs with
  | nil => exact .nil
  | cons c cs ih =>
    rw [List.flatMap_cons, literalChar]
    split
    next h =>
      refine .pair hs.eq (fun hmark => ?_) ih
      rcases (isSpecial_iff hs).mp h with hrun | rfl
      · exact hs.delimiters c hmark hrun
      · exact hs.delimiter hmark
    next h =>
      refine .plain (fun heq => h ((isSpecial_iff hs).mpr (.inr ?_))) ih
      exact (Option.some.inj (hs.eq.symm.trans heq)).symm

/-- Only a run can be repeated without an end. -/
theorem escaped_repeated {unit : List Char} {r : Repetition} {run : Option Char} (hunit : Escaped s unit)
    (hrun : ∀ c ∈ run, s.escape ≠ some c) (h : repeated unit r run = .ok shown) : Escaped s shown := by
  unfold repeated at h
  split at h
  next =>
    split at h
    next =>
      cases h
      exact hunit.replicate _
    next => cases h
  next c _ =>
    cases h
    exact (hunit.replicate _).append (.plain (hrun c rfl) .nil)
  next => cases h

mutual

theorem escaped_pieceText : ∀ (p : Piece) {shown : List Char}, pieceText .simpleSearch '*' p = .ok shown →
    Escaped {} shown
  | .anchor place r, shown, h => by cases h
  | .text value r, shown, h => by
    obtain ⟨unit, hunit, h⟩ := Result.bind_eq_ok.mp h
    have hliteral := escapeLiteral_wildcards escapes_default value.toList
    cases hliteral.symm.trans hunit
    exact escaped_repeated (escaped_literalChars escapes_default value.toList) (fun c hc => by cases hc) h
  | .set chars r, shown, h => by
    have hset : charSetText .simpleSearch chars =
        .error (.unsupported "character classes cannot be expressed in this wildcard syntax") := rfl
    have hsingle : WildcardSyntax.simpleSearch.singleChar = none := rfl
    simp only [pieceText, hsingle, hset] at h
    split at h
    next =>
      split at h
      next =>
        cases h
        exact escaped_run
      next => cases h
    next => cases h
  | .group alternatives r, shown, h => by
    rw [pieceText] at h
    split at h
    next => exact escaped_groupText alternatives h
    next => cases h

theorem escaped_sequenceText : ∀ (ps : List Piece) {shown : List Char},
    sequenceText .simpleSearch '*' ps = .ok shown → Escaped {} shown
  | [], shown, h => by
    cases h
    exact .nil
  | p :: ps, shown, h => by
    rw [sequenceText] at h
    obtain ⟨first, hfirst, h⟩ := Result.bind_eq_ok.mp h
    obtain ⟨rest, hrest, h⟩ := Result.bind_eq_ok.mp h
    cases h
    exact (escaped_pieceText p hfirst).append (escaped_sequenceText ps hrest)

theorem escaped_groupText : ∀ (pss : List (List Piece)) {shown : List Char},
    groupText .simpleSearch '*' pss = .ok shown → Escaped {} shown
  | [], shown, h => by cases h
  | [ps], shown, h => escaped_sequenceText ps h
  | _ :: _ :: _, shown, h => by cases h

end

theorem escaped_toWildcard {p : Pattern} (hp : p.Sound) {value : String} (h : toWildcard .simpleSearch p = .ok value) :
    Escaped {} value.toList := by
  obtain ⟨run, -, body, text, first, last, hrun, htext, -, -, -, hvalue⟩ := exists_of_toWildcard hp h
  cases hrun
  have hopened : ∀ b : Bool, Escaped {} (if b then ['*'] else [])
    | true => escaped_run
    | false => .nil
  rw [hvalue]
  exact ((hopened _).append (escaped_sequenceText body htext)).append (hopened _)

/-! ### Reading back -/

/-- The text of a pattern is cut into one piece, which is read as a pattern that is found in the same texts. -/
theorem exists_ofWildcard_search {p : Pattern} (hp : p.Sound) {value : String}
    (h : toWildcard (wildcards {}) p = .ok value) : Cuts {} (escapeDelimiters {} value).toList [value.toList] ∧
      ∃ q, ofWildcard (wildcards {}) value = .ok q ∧ ∀ s, q.Finds s ↔ p.Finds s :=
  ⟨((escaped_toWildcard hp h).bound escapes_default).cuts,
    exists_ofWildcard_finds clear_simpleSearch hp (.inr ⟨rfl, rfl⟩) h⟩

/-- A text without white space at its ends. -/
def Trimmed (cs : List Char) : Prop :=
  Text.trimWhile Text.isBlank cs = cs

theorem getLast?_literalChars (s : SearchSettings) (escape : Char) (cs : List Char) :
    (cs.flatMap (literalChar s escape)).getLast? = cs.getLast? := by
  rcases List.eq_nil_or_concat cs with rfl | ⟨front, c, rfl⟩
  · rfl
  · have hlast : (literalChar s escape c).getLast? = some c := by
      unfold literalChar
      split <;> rfl
    simp [List.flatMap_append, List.getLast?_append, hlast]

theorem trimmed_literalChars (hs : Escapes s escape) (hcs : Trimmed cs) :
    Trimmed (cs.flatMap (literalChar s escape)) := by
  simp only [Trimmed, Text.trimWhile_eq_self_iff, or_imp, forall_and, getLast?_literalChars] at hcs ⊢
  refine ⟨fun c hc => ?_, hcs.2⟩
  cases cs with
  | nil => cases hc
  | cons first rest =>
    rw [List.flatMap_cons, literalChar] at hc
    split at hc
    next =>
      cases hc
      exact hs.blank
    next => exact hcs.1 c hc

theorem literalText_eq (hs : Escapes s escape) {value : String} (hne : value ≠ "") : literalText s value =
    .ok (escapeDelimiters s (String.ofList (value.toList.flatMap (literalChar s escape)))) := by
  have hempty : value.isEmpty = false := by simpa [String.isEmpty_iff] using hne
  have hbody : sequenceText (wildcards s) '*' [.literal value] = .ok (value.toList.flatMap (literalChar s escape)) := by
    simp only [sequenceText, Piece.literal, pieceText, escapeLiteral_wildcards hs, Result.ok_bind, repeated_once]
    exact congrArg Except.ok (List.append_nil _)
  have htext : toWildcard (wildcards s) (ofText value) =
      .ok (String.ofList (value.toList.flatMap (literalChar s escape))) := by
    have hanchored : toWildcard (wildcards s) (ofSequence (.at_ .start :: [.literal value] ++ [.at_ .finish])) = _ :=
      toWildcard_anchored rfl hbody
    rw [ofText, textPieces, hempty]
    exact hanchored
  have hescape : s.escape.isNone = false := by rw [hs.eq]; rfl
  simp only [literalText, htext, Result.ok_bind, hescape, Bool.false_and, Bool.false_eq_true, if_false]
  rfl

/-- A plain text is cut into one piece, which is read as the text. -/
theorem exists_of_literalText (hs : Escapes s escape) {value shown : String} (hne : value ≠ "")
    (htrim : Trimmed value.toList) (h : literalText s value = .ok shown) :
    ∃ piece, Cuts s shown.toList [piece] ∧ piece ≠ [] ∧ Trimmed piece ∧
      ofWildcard (wildcards s) (String.ofList piece) = .ok (ofText value) := by
  refine ⟨value.toList.flatMap (literalChar s escape), ?_, ?_, trimmed_literalChars hs htrim, ?_⟩
  · have hescaped : Escaped s (String.ofList (value.toList.flatMap (literalChar s escape))).toList := by
      rw [String.toList_ofList]
      exact escaped_literalChars hs _
    have hbound := hescaped.bound hs
    rw [String.toList_ofList] at hbound
    cases (literalText_eq hs hne).symm.trans h
    exact hbound.cuts
  · obtain ⟨c, cs, hcs⟩ := List.exists_cons_of_ne_nil fun hnil => hne (String.toList_inj.mp hnil)
    rw [hcs, List.flatMap_cons, literalChar]
    split <;> exact nofun
  · exact ofWildcard_escapeLiteral (clear_wildcards hs) hne (escapeLiteral_wildcards hs _)

end Search
end ItemQuery
