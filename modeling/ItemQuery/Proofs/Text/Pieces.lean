import Mathlib.Data.List.Basic
import ItemQuery.Text.Blank

/-! Cutting a text at the marks between its pieces, and at the white space between its words. Pieces that hold no
    mark come back from the text that joins them. -/

namespace ItemQuery.Text

variable {p : Char → Bool} {cs : List Char}

/-! ### Pieces -/

theorem splitAt_of_forall (h : ∀ c ∈ cs, p c = false) : splitAt p cs = [cs] := by
  induction cs with
  | nil => rfl
  | cons c cs ih =>
    rw [List.forall_mem_cons] at h
    rw [splitAt, ih h.2, if_neg (by simp [h.1])]

/-- The first piece ends at the first mark. -/
theorem splitAt_append_cons (h : ∀ c ∈ cs, p c = false) {mark : Char} (hmark : p mark = true) (rest : List Char) :
    splitAt p (cs ++ mark :: rest) = cs :: splitAt p rest := by
  induction cs with
  | nil => rw [List.nil_append, splitAt, if_pos hmark]
  | cons c cs ih =>
    rw [List.forall_mem_cons] at h
    rw [List.cons_append, splitAt, ih h.2, if_neg (by simp [h.1])]

theorem pieces_of_forall {s : String} (h : ∀ c ∈ s.toList, p c = false) : pieces p s = [s] := by
  rw [pieces, splitAt_of_forall h, List.map_singleton, String.ofList_toList]

/-- Joined texts without the mark are the pieces of what they are joined to. -/
theorem pieces_intercalate {mark : Char} {texts : List String} (hne : texts ≠ [])
    (h : ∀ text ∈ texts, ∀ c ∈ text.toList, c ≠ mark) :
    pieces (· == mark) ((String.singleton mark).intercalate texts) = texts := by
  have hfree : ∀ text ∈ texts, ∀ c ∈ text.toList, (c == mark) = false := fun text htext c hc =>
    beq_eq_false_iff_ne.mpr (h text htext c hc)
  induction texts with
  | nil => exact absurd rfl hne
  | cons text texts ih =>
    rw [List.forall_mem_cons] at hfree
    cases texts with
    | nil => rw [String.intercalate_singleton, pieces_of_forall hfree.1]
    | cons next texts =>
      have hrest := ih (List.cons_ne_nil _ _) (fun other hother => h other (List.mem_cons_of_mem _ hother)) hfree.2
      rw [pieces] at hrest
      rw [String.intercalate_cons_cons, pieces, String.toList_append, String.toList_append, String.toList_singleton,
        List.append_assoc, List.singleton_append, splitAt_append_cons hfree.1 (beq_self_eq_true mark), List.map_cons,
        hrest, String.ofList_toList]

/-! ### Words -/

theorem words_of_forall {s : String} (hne : s ≠ "") (h : ∀ c ∈ s.toList, isBlank c = false) : words s = [s] := by
  have hnil : s.toList ≠ [] := fun hnil => hne (String.toList_eq_nil_iff.mp hnil)
  rw [words, splitAt_of_forall h, List.filter_cons_of_pos (by simpa using hnil), List.filter_nil, List.map_singleton,
    String.ofList_toList]

/-- The first word ends at the first white space. -/
theorem words_append {s : String} (hne : s ≠ "") (h : ∀ c ∈ s.toList, isBlank c = false) (t : String) :
    words (s ++ " " ++ t) = s :: words t := by
  have hnil : s.toList ≠ [] := fun hnil => hne (String.toList_eq_nil_iff.mp hnil)
  have hspace : " ".toList = [' '] := rfl
  rw [words, String.toList_append, String.toList_append, hspace, List.append_assoc, List.singleton_append,
    splitAt_append_cons h (by decide), List.filter_cons_of_pos (by simpa using hnil), List.map_cons,
    String.ofList_toList, words]

end ItemQuery.Text
