import ItemQuery.Sql.Token

/-! Quoting by doubling is undone by reading: a recognizer stops at the closing quote of a quoted text, whatever
    the text holds, and the value of the token is the text. -/

namespace ItemQuery
namespace Text

theorem undoubled_doubled (quote : Char) (cs : List Char) : undoubled quote (doubled quote cs) = cs := by
  induction cs with
  | nil => rfl
  | cons c cs ih =>
    by_cases hc : c = quote
    · simp [doubled, hc, undoubled, ih]
    · rw [doubled, if_neg hc]
      cases hd : doubled quote cs with
      | nil =>
        rw [hd, undoubled] at ih
        rw [undoubled, ih]
      | cons d ds => rw [undoubled, if_neg (fun h => hc h.1), ← hd, ih]

theorem between?_append (opening closing : Char) (body : List Char) :
    between? opening closing (opening :: (body ++ [closing])) = some body := by
  simp [between?]

theorem toList_quotedBy (opening closing : Char) (s : String) :
    (quotedBy opening closing s).toList = opening :: (doubled closing s.toList ++ [closing]) := by
  rw [quotedBy, String.toList_ofList]

end Text

namespace Sql

theorem quotedTail?_cons {quote c : Char} (hc : c ≠ quote) {cs : List Char} (hcs : cs ≠ []) :
    quotedTail? quote (c :: cs) = (quotedTail? quote cs).map (·.after [c]) := by
  cases cs with
  | nil => exact absurd rfl hcs
  | cons d ds => rw [quotedTail?, if_neg hc]

/-- A quoted text ends at its closing quote, if no further quote follows. -/
theorem quotedTail?_doubled {quote : Char} {rest : List Char} (h : rest.head? ≠ some quote) (body : List Char) :
    quotedTail? quote (Text.doubled quote body ++ quote :: rest) = some (Text.doubled quote body ++ [quote], rest) := by
  induction body with
  | nil =>
    cases rest with
    | nil => simp [Text.doubled, quotedTail?]
    | cons d ds =>
      have hd : d ≠ quote := fun hd => h (by rw [hd, List.head?_cons])
      simp [Text.doubled, quotedTail?, hd]
  | cons c cs ih =>
    by_cases hc : c = quote
    · simp [Text.doubled, hc, quotedTail?, ih, Split.after]
    · rw [Text.doubled, if_neg hc, List.cons_append, quotedTail?_cons hc (by simp), ih]
      rfl

theorem Token.stringValue_quoted {t : Token} {s : String} (h : t.text = Text.quoted s) : t.stringValue = s := by
  have hlist : t.text.toList = '\'' :: (Text.doubled '\'' s.toList ++ ['\'']) := by
    rw [h, Text.quoted, Text.toList_quotedBy]
  rw [stringValue, hlist]
  change String.ofList (Text.undoubled '\''
    ((Text.between? '\'' '\'' ('\'' :: (Text.doubled '\'' s.toList ++ ['\'']))).getD _)) = s
  rw [Text.between?_append, Option.getD_some, Text.undoubled_doubled, String.ofList_toList]

theorem quoted_inj {s s' : String} : Text.quoted s = Text.quoted s' ↔ s = s' := by
  refine ⟨fun h => ?_, congrArg _⟩
  have hvalue := Token.stringValue_quoted (t := ⟨.string, Text.quoted s, 0⟩) rfl
  exact hvalue.symm.trans (Token.stringValue_quoted (t := ⟨.string, Text.quoted s, 0⟩) h)

/-- The marks around a part of a name: brackets, or double quotes. -/
def IsNameMarks (opening closing : Char) : Prop :=
  (opening = '[' ∧ closing = ']') ∨ (opening = '"' ∧ closing = '"')

theorem Token.segmentValue_quotedBy {opening closing : Char} (h : IsNameMarks opening closing) (s : String) :
    segmentValue (Text.quotedBy opening closing s).toList = s := by
  have hbetween := Text.between?_append opening closing (Text.doubled closing s.toList)
  rw [Text.toList_quotedBy, segmentValue]
  rcases h with ⟨rfl, rfl⟩ | ⟨rfl, rfl⟩
  · simp only [hbetween, Text.undoubled_doubled, String.ofList_toList]
  · have hbracket : Text.between? '[' ']' ('"' :: (Text.doubled '"' s.toList ++ ['"'])) = none := rfl
    simp only [hbracket, hbetween, Text.undoubled_doubled, String.ofList_toList]

end Sql
end ItemQuery
