import ItemQuery.Proofs.Sql.Atoms

/-! A text literal, and a name with its owner, are one token wherever the generator puts them, and the token gives
    back the text and the name. -/

namespace ItemQuery.Sql

/-- Joining words changes nothing in a single token. -/
theorem push_single (source : List Char) (t : Token) : (Joining.push source {} t).done = [t] := by
  unfold Joining.push
  split
  · split
    · rfl
    · split <;> rfl
  · rename_i word _
    by_cases hword : word = .between <;> simp [joinLast?, hword]
  · rfl

/-- A text that is one token up to its end. -/
theorem tokenize_of_scanToken? {s : String} {kind : TokenKind} (hne : s.toList ≠ [])
    (hblank : ∀ c, s.toList.head? = some c → Text.isBlank c = false)
    (hscan : scanToken? s.toList = some (kind, s.toList, [])) : tokenize s = .ok [⟨kind, s, 0⟩] := by
  have hall : scanAll (s.toList.length + 1) 0 s.toList = .ok [⟨kind, s, 0⟩] := by
    obtain ⟨c, cs, hcons⟩ := List.exists_cons_of_ne_nil hne
    have htext : String.ofList (c :: cs) = s := by
      rw [← hcons, String.ofList_toList]
    have hend : ∀ fuel offset, scanAll fuel offset [] = .ok [] := by
      intro fuel offset
      cases fuel <;> rfl
    rw [hcons] at hscan hblank ⊢
    rw [scanAll]
    simp only [spanWhile, List.takeWhile_cons, List.dropWhile_cons, hblank c rfl, Bool.false_eq_true, if_false,
      byteLength, Nat.add_zero, hscan, htext, hend, Except.map]
  simp only [tokenize, hall, Except.map, List.foldl_cons, List.foldl_nil, push_single, List.reverse_singleton]

/-- The text is a token of this kind: the only one when nothing follows, and the first one, with all the rest left,
    when something follows that can follow it. -/
structure IsToken (kind : TokenKind) (text : String) (follows : List Char → Prop) : Prop where
  alone : tokenize text = .ok [⟨kind, text, 0⟩]
  apart : ∀ rest, follows rest → scanToken? (text.toList ++ rest) = some (kind, text.toList, rest)

theorem IsToken.of_scanToken? {kind : TokenKind} {text : String} {follows : List Char → Prop} (hne : text.toList ≠ [])
    (hblank : ∀ c, text.toList.head? = some c → Text.isBlank c = false) (hnil : follows [])
    (hscan : ∀ rest, follows rest → scanToken? (text.toList ++ rest) = some (kind, text.toList, rest)) :
    IsToken kind text follows where
  alone := by
    have hall := hscan [] hnil
    rw [List.append_nil] at hall
    exact tokenize_of_scanToken? hne hblank hall
  apart := hscan

/-- A literal is one token before anything but a quote. -/
theorem isToken_quoted (s : String) :
    IsToken .string (Text.quoted s) fun rest => rest.head? ≠ some '\'' := by
  have hshape : (Text.quoted s).toList = '\'' :: (Text.doubled '\'' s.toList ++ ['\'']) := Text.toList_quotedBy _ _ _
  refine .of_scanToken? ?_ ?_ nofun fun rest hrest => scanToken?_string s hrest
  · rw [hshape]
    exact List.cons_ne_nil _ _
  · intro c hc
    rw [hshape] at hc
    cases hc
    rfl

/-- A name with its owner is one token before every delimiter. -/
theorem isToken_dotted (d : Dialect) {owner : String} (hne : owner ≠ "") (howner : ∀ c ∈ owner.toList, c.isAlpha = true)
    (name : String) : IsToken .identifier (owner ++ "." ++ d.identifier name) Delimited := by
  have hlist : owner.toList ≠ [] := fun h => hne (String.toList_eq_nil_iff.mp h)
  refine .of_scanToken? ?_ ?_ delimited_nil fun rest hrest =>
    scanToken?_dotted hlist howner (segment_identifier d name hrest) hrest
  · simp [hlist]
  · intro c hc
    obtain ⟨first, more, hcons⟩ := List.exists_cons_of_ne_nil hlist
    rw [String.toList_append, String.toList_append, hcons] at hc
    cases hc
    exact isBlank_eq_false_of_isAlpha (howner _ (by rw [hcons]; exact List.mem_cons_self))

/-- **Quoting is undone by the lexer.** A literal is exactly one token, whose value is the text; a name after an owner
    of letters is exactly one token in both dialects, whose parts are the owner and the name. Neither ends early nor
    takes anything of what follows. -/
theorem quoting_undone :
    (∀ value, IsToken .string (Text.quoted value) (fun rest => rest.head? ≠ some '\'')
      ∧ Token.stringValue ⟨.string, Text.quoted value, 0⟩ = value)
    ∧ ∀ (d : Dialect) (owner name : String), owner ≠ "" → (∀ c ∈ owner.toList, c.isAlpha = true) →
      IsToken .identifier (owner ++ "." ++ d.identifier name) Delimited
        ∧ Token.segments ⟨.identifier, owner ++ "." ++ d.identifier name, 0⟩ = [owner, name] := by
  refine ⟨fun value => ⟨isToken_quoted value, Token.stringValue_quoted rfl⟩, fun d owner name hne howner => ?_⟩
  refine ⟨isToken_dotted d hne howner name, Token.segments_dotted ?_ rfl⟩
  exact isWord_of_isAlpha (fun h => hne (String.toList_eq_nil_iff.mp h)) howner

/-- A name of quotes, brackets, points and blanks after an owner that is a keyword. -/
theorem quoting_undone_marks :
    tokenize "And.[]].[[\"\" or]" = .ok [⟨.identifier, "And.[]].[[\"\" or]", 0⟩]
      ∧ Token.segments ⟨.identifier, "And.[]].[[\"\" or]", 0⟩ = ["And", "].[[\"\" or"] := by
  have h := quoting_undone.2 .sqlServer "And" "].[[\"\" or" (by decide) (by decide)
  have hshape : "And" ++ "." ++ Dialect.identifier .sqlServer "].[[\"\" or" = "And.[]].[[\"\" or]" := by
    decide +kernel
  rw [hshape] at h
  exact ⟨h.1.alone, h.2⟩

end ItemQuery.Sql
