import Mathlib.Algebra.Order.Group.Nat
import ItemQuery.Aml.Select
import ItemQuery.Proofs.Sql.Recognizers

/-! The text of a select list. A list is written with commas between its entries and parentheses around the entries of
    the table behind a foreign key, and is read back as it was, if its names can stand in one. -/

namespace ItemQuery.Aml

variable {fuel : Nat} {cs rest : List Char} {name : String} {n : SelectNode} {ns : List SelectNode}

/-! ### Names -/

/-- A name that can stand in a select list. -/
structure IsField (name : String) : Prop where
  nonempty : name ≠ ""
  chars : ∀ c ∈ name.toList, isFieldChar c = true

theorem isBlank_eq_false_of_isFieldChar {c : Char} (h : isFieldChar c = true) : Text.isBlank c = false := by
  have hall : ∀ d ∈ Sql.blanks, isFieldChar d = false := by decide +kernel
  rw [Bool.eq_false_iff]
  intro hblank
  rw [hall c (Sql.mem_blanks hblank)] at h
  cases h

theorem isSpacing_eq_false_of_isFieldChar {c : Char} (h : isFieldChar c = true) : Text.isSpacing c = false := by
  rw [Bool.eq_false_iff]
  intro hspacing
  exact absurd (Text.isBlank_of_isSpacing hspacing) (by simp [isBlank_eq_false_of_isFieldChar h])

theorem IsField.toList_ne_nil (h : IsField name) : name.toList ≠ [] := fun hnil =>
  h.nonempty (String.toList_eq_nil_iff.mp hnil)

theorem skipSpacing_of_head? (h : ∀ c, cs.head? = some c → Text.isSpacing c = false) : skipSpacing cs = cs :=
  Text.dropWhile_of_head? h

theorem mem_of_mem_skipSpacing {c : Char} (h : c ∈ skipSpacing cs) : c ∈ cs :=
  (List.dropWhile_sublist _).mem h

mutual

/-- The names of an entry and of the entries inside. -/
def SelectNode.names : SelectNode → List String
  | .node name children => name :: namesIn children

/-- The names of all entries. -/
def namesIn : List SelectNode → List String
  | [] => []
  | n :: ns => n.names ++ namesIn ns

end

/-! ### Written lists -/

mutual

/-- An entry as it is written. -/
def SelectNode.chars : SelectNode → List Char
  | .node name children =>
    name.toList ++ if children.isEmpty then [] else '(' :: (listChars children ++ [')'])

/-- Entries with commas between them. -/
def listChars : List SelectNode → List Char
  | [] => []
  | n :: ns => n.chars ++ if ns.isEmpty then [] else ',' :: listChars ns

end

/-- An entry as it is written. -/
def SelectNode.text (n : SelectNode) : String :=
  String.ofList n.chars

/-- Entries with commas between them. -/
def listText (ns : List SelectNode) : String :=
  String.ofList (listChars ns)

theorem text_node (name : String) (children : List SelectNode) :
    (SelectNode.node name children).text =
      if children.isEmpty then name else name ++ "(" ++ listText children ++ ")" := by
  rw [SelectNode.text, SelectNode.chars, listText]
  split
  · rw [List.append_nil, String.ofList_toList]
  · refine String.toList_inj.mp ?_
    simp

theorem intercalate_text (ns : List SelectNode) : ",".intercalate (ns.map SelectNode.text) = listText ns := by
  induction ns with
  | nil => rfl
  | cons n ns ih =>
    cases ns with
    | nil => simp [listText, listChars, SelectNode.text]
    | cons m ns =>
      rw [List.map_cons] at ih
      rw [List.map_cons, List.map_cons, String.intercalate_cons_cons, ih]
      refine String.toList_inj.mp ?_
      simp [listText, listChars, SelectNode.text]

/-! ### Reading -/

/-- The entries in parentheses after a name, if there are any. -/
def inner? (fuel : Nat) : List Char → Option (List SelectNode × List Char)
  | '(' :: body => (selectList? fuel body).bind fun found => (closing? found.2).map fun after => (found.1, after)
  | _ => none

/-- An entry is a name and maybe entries in parentheses. -/
theorem selectNode?_succ (fuel : Nat) (cs : List Char) :
    selectNode? (fuel + 1) cs =
      let name := (skipSpacing cs).takeWhile isFieldChar
      let rest := skipSpacing ((skipSpacing cs).dropWhile isFieldChar)
      if name.isEmpty then none
      else some ((inner? fuel rest).elim (.node (String.ofList name) [], rest) fun found =>
        (.node (String.ofList name) found.1, found.2)) := by
  rw [selectNode?]
  dsimp only
  split
  · rfl
  · generalize skipSpacing ((skipSpacing cs).dropWhile isFieldChar) = rest
    split
    next children after hfound =>
      have hinner : inner? fuel rest = some (children, after) := hfound
      rw [hinner]
      rfl
    next hnone =>
      have hinner : inner? fuel rest = none := hnone
      rw [hinner]
      rfl

theorem selectList?_succ (fuel : Nat) (cs : List Char) :
    selectList? (fuel + 1) cs = (selectNode? fuel cs).map fun found =>
      (found.1 :: (moreNodes fuel found.2).1, (moreNodes fuel found.2).2) :=
  rfl

/-- After a comma there is a list, or nothing is read. -/
theorem moreNodes_comma (fuel : Nat) (cs : List Char) :
    moreNodes (fuel + 1) (',' :: cs) = (selectList? (fuel + 1) cs).getD ([], ',' :: cs) := by
  rw [moreNodes, selectList?_succ]
  cases selectNode? fuel cs <;> rfl

theorem moreNodes_of_head? (h : cs.head? ≠ some ',') (fuel : Nat) : moreNodes fuel cs = ([], cs) := by
  cases fuel with
  | zero => rfl
  | succ fuel =>
    rw [moreNodes]
    intro rest hrest
    exact h (hrest ▸ rfl)

/-- What follows an entry in its list, or the list around it. -/
def Closes (rest : List Char) : Prop :=
  ∀ c, rest.head? = some c → c = ',' ∨ c = ')'

theorem Closes.skipSpacing (h : Closes rest) : skipSpacing rest = rest := by
  refine skipSpacing_of_head? fun c hc => ?_
  rcases h c hc with rfl | rfl <;> decide

theorem Closes.inner? (h : Closes rest) (fuel : Nat) : inner? fuel rest = none := by
  unfold Aml.inner?
  split
  next body => exact absurd (h '(' rfl) (by decide)
  next => rfl

/-- A name ends where its characters end. -/
theorem selectNode?_name (h : IsField name) {tail : List Char}
    (htail : ∀ c, tail.head? = some c → isFieldChar c = false ∧ Text.isSpacing c = false) (fuel : Nat) :
    selectNode? (fuel + 1) (name.toList ++ tail) =
      some ((inner? fuel tail).elim (.node name [], tail) fun found => (.node name found.1, found.2)) := by
  have hstart : skipSpacing (name.toList ++ tail) = name.toList ++ tail := by
    refine skipSpacing_of_head? fun c hc => ?_
    rw [List.head?_append_of_ne_nil _ h.toList_ne_nil] at hc
    exact isSpacing_eq_false_of_isFieldChar (h.chars c (List.mem_of_head? hc))
  have htake : (name.toList ++ tail).takeWhile isFieldChar = name.toList := by
    have hnone : tail.takeWhile isFieldChar = [] := by
      cases tail with
      | nil => rfl
      | cons c tail => exact List.takeWhile_cons_of_neg (by simp [(htail c rfl).1])
    rw [List.takeWhile_append_of_pos h.chars, hnone, List.append_nil]
  have hdrop : (name.toList ++ tail).dropWhile isFieldChar = tail := by
    rw [List.dropWhile_append_of_pos h.chars, Text.dropWhile_of_head? fun c hc => (htail c hc).1]
  have hrest : skipSpacing tail = tail := skipSpacing_of_head? fun c hc => (htail c hc).2
  have hname : name.toList.isEmpty = false := by simpa using h.nonempty
  simp only [selectNode?_succ, hstart, htake, hdrop, hrest, hname, Bool.false_eq_true, if_false, String.ofList_toList]

mutual

/-- A written entry is read back, with enough fuel for its characters. -/
theorem selectNode?_chars : ∀ n : SelectNode, (∀ name ∈ n.names, IsField name) → ∀ (fuel : Nat) (rest : List Char),
    Closes rest → 3 * (n.chars ++ rest).length + 1 ≤ fuel → selectNode? fuel (n.chars ++ rest) = some (n, rest)
  | .node name children, hnames, fuel, rest, hrest, hfuel => by
    obtain ⟨fuel, rfl⟩ : ∃ k, fuel = k + 1 := ⟨fuel - 1, by omega⟩
    rw [SelectNode.names, List.forall_mem_cons] at hnames
    rw [SelectNode.chars] at hfuel ⊢
    have hcloses : ∀ c, rest.head? = some c → isFieldChar c = false ∧ Text.isSpacing c = false := by
      intro c hc
      rcases hrest c hc with rfl | rfl <;> decide
    by_cases hempty : children.isEmpty = true
    · obtain rfl := List.isEmpty_iff.mp hempty
      rw [if_pos hempty, List.append_nil, selectNode?_name hnames.1 hcloses, hrest.inner?]
      rfl
    · rw [if_neg hempty] at hfuel ⊢
      have hparen : Closes (')' :: rest) := by
        rintro c ⟨⟩
        exact .inr rfl
      have hlist := selectList?_chars children (fun hnil => hempty (hnil ▸ rfl)) hnames.2 fuel (')' :: rest)
        (by rintro c ⟨⟩; rfl) (by simp at hfuel ⊢; omega)
      have hinner : inner? fuel ('(' :: (listChars children ++ ')' :: rest)) = some (children, rest) := by
        rw [inner?, hlist]
        simp only [Option.bind_some, closing?, hparen.skipSpacing, hrest.skipSpacing, Option.map_some]
      have htail : name.toList ++ '(' :: (listChars children ++ [')']) ++ rest
          = name.toList ++ '(' :: (listChars children ++ ')' :: rest) := by simp
      rw [htail, selectNode?_name hnames.1 (by rintro c ⟨⟩; decide), hinner]
      rfl

/-- A written list is read back, with enough fuel for its characters. -/
theorem selectList?_chars : ∀ ns : List SelectNode, ns ≠ [] → (∀ name ∈ namesIn ns, IsField name) →
    ∀ (fuel : Nat) (rest : List Char), (∀ c, rest.head? = some c → c = ')') → 3 * (listChars ns ++ rest).length + 2 ≤ fuel →
      selectList? fuel (listChars ns ++ rest) = some (ns, rest)
  | [], hne, _, _, _, _, _ => absurd rfl hne
  | n :: ns, _, hnames, fuel, rest, hrest, hfuel => by
    obtain ⟨fuel, rfl⟩ : ∃ k, fuel = k + 1 := ⟨fuel - 1, by omega⟩
    rw [namesIn, List.forall_mem_append] at hnames
    obtain ⟨c, chars, hchars⟩ : ∃ c chars, n.chars = c :: chars := by
      obtain ⟨name, children⟩ := n
      rw [SelectNode.names, List.forall_mem_cons] at hnames
      obtain ⟨c, chars, hname⟩ := List.exists_cons_of_ne_nil hnames.1.1.toList_ne_nil
      exact ⟨c, _, by rw [SelectNode.chars, hname, List.cons_append]⟩
    rw [listChars, List.append_assoc] at hfuel ⊢
    by_cases hempty : ns.isEmpty = true
    · obtain rfl := List.isEmpty_iff.mp hempty
      rw [if_pos hempty, List.nil_append] at hfuel ⊢
      have hmore : moreNodes fuel rest = ([], rest) := by
        refine moreNodes_of_head? (fun hcomma => ?_) fuel
        exact absurd (hrest ',' hcomma) (by decide)
      rw [selectList?_succ, selectNode?_chars n hnames.1 fuel rest (fun c hc => .inr (hrest c hc)) (by omega),
        Option.map_some, hmore]
    · rw [if_neg hempty, List.cons_append] at hfuel ⊢
      rw [List.length_append, List.length_cons, hchars, List.length_cons] at hfuel
      obtain ⟨fuel, rfl⟩ : ∃ k, fuel = k + 1 := ⟨fuel - 1, by omega⟩
      have hlist := selectList?_chars ns (fun hnil => hempty (hnil ▸ rfl)) hnames.2 (fuel + 1) rest hrest (by omega)
      have hnode := selectNode?_chars n hnames.1 (fuel + 1) (',' :: (listChars ns ++ rest))
        (by rintro c ⟨⟩; exact .inl rfl) (by simp at hfuel; simp [hchars]; omega)
      rw [selectList?_succ, hnode, Option.map_some, moreNodes_comma, hlist]
      rfl

end

theorem exists_mem_listChars (hne : ns ≠ []) (h : ∀ name ∈ namesIn ns, IsField name) :
    ∃ c ∈ listChars ns, isFieldChar c = true := by
  obtain ⟨⟨name, children⟩, ns, rfl⟩ := List.exists_cons_of_ne_nil hne
  have hname : IsField name := h name List.mem_cons_self
  obtain ⟨c, chars, hchars⟩ := List.exists_cons_of_ne_nil hname.toList_ne_nil
  have hc : c ∈ name.toList := hchars ▸ List.mem_cons_self
  refine ⟨c, ?_, hname.chars c hc⟩
  rw [listChars, SelectNode.chars]
  exact List.mem_append_left _ (List.mem_append_left _ hc)

theorem readSelect_listText (hne : ns ≠ []) (h : ∀ name ∈ namesIn ns, IsField name) :
    readSelect (listText ns) = .ok ns := by
  have hlist := selectList?_chars ns hne h (3 * (listChars ns).length + 3) [] (by rintro c ⟨⟩) (by simp)
  rw [List.append_nil] at hlist
  simp only [readSelect, listText, String.toList_ofList, hlist]
  rfl

theorem isEmpty_trim_listText (hne : ns ≠ []) (h : ∀ name ∈ namesIn ns, IsField name) :
    (Text.trim (listText ns)).isEmpty = false := by
  obtain ⟨c, hc, hfield⟩ := exists_mem_listChars hne h
  have hmem : c ∈ Text.trimWhile Text.isBlank (listText ns).toList := by
    refine Text.mem_trimWhile ?_ (isBlank_eq_false_of_isFieldChar hfield)
    rwa [listText, String.toList_ofList]
  rw [Bool.eq_false_iff, Text.trim, ne_eq, String.isEmpty_iff, String.ofList_eq_empty_iff]
  exact List.ne_nil_of_mem hmem

/-! ### Accepted lists -/

/-- The names come from the text and can stand in a select list; so does what is left. -/
structure Within (cs : List Char) (names : List String) (rest : List Char) : Prop where
  fields : ∀ name ∈ names, IsField name ∧ ∀ c ∈ name.toList, c ∈ cs
  rest : ∀ c ∈ rest, c ∈ cs

theorem Within.mono {names : List String} {cs' : List Char} (h : Within cs names rest) (hcs : ∀ c ∈ cs, c ∈ cs') :
    Within cs' names rest where
  fields name hname := ⟨(h.fields name hname).1, fun c hc => hcs c ((h.fields name hname).2 c hc)⟩
  rest c hc := hcs c (h.rest c hc)

theorem Within.append {names names' : List String} {rest' : List Char} (h : Within cs names rest)
    (h' : Within rest names' rest') : Within cs (names ++ names') rest' where
  fields := List.forall_mem_append.mpr ⟨h.fields, (h'.mono h.rest).fields⟩
  rest := (h'.mono h.rest).rest

theorem within_closing? {after : List Char} (h : closing? cs = some after) : ∀ c ∈ after, c ∈ cs := by
  unfold closing? at h
  split at h
  next rest hrest =>
    cases h
    intro c hc
    exact mem_of_mem_skipSpacing (hrest ▸ List.mem_cons_of_mem _ (mem_of_mem_skipSpacing hc))
  next => cases h

theorem within_inner? (hlist : ∀ cs ns rest, selectList? fuel cs = some (ns, rest) → Within cs (namesIn ns) rest)
    {found : List SelectNode × List Char} (h : inner? fuel cs = some found) : Within cs (namesIn found.1) found.2 := by
  unfold inner? at h
  split at h
  next body =>
    obtain ⟨inside, hinside, h⟩ := Option.bind_eq_some_iff.mp h
    obtain ⟨after, hafter, rfl⟩ := Option.map_eq_some_iff.mp h
    have hwithin := hlist body inside.1 inside.2 hinside
    refine Within.mono ⟨hwithin.fields, fun c hc => ?_⟩ fun c hc => List.mem_cons_of_mem _ hc
    exact hwithin.rest c (within_closing? hafter c hc)
  next => cases h

theorem within_selectNode? (hlist : ∀ cs ns rest, selectList? fuel cs = some (ns, rest) → Within cs (namesIn ns) rest)
    (h : selectNode? (fuel + 1) cs = some (n, rest)) : Within cs n.names rest := by
  rw [selectNode?_succ] at h
  dsimp only at h
  split at h
  next => cases h
  next hempty =>
    generalize hname : (skipSpacing cs).takeWhile isFieldChar = name at h hempty
    generalize htail : skipSpacing ((skipSpacing cs).dropWhile isFieldChar) = tail at h
    have hfield : IsField (String.ofList name) := by
      refine ⟨fun hnil => hempty ?_, fun c hc => ?_⟩
      · rw [String.ofList_eq_empty_iff.mp hnil]
        rfl
      · rw [String.toList_ofList, ← hname] at hc
        exact List.mem_takeWhile_imp hc
    have hwithin : Within cs [String.ofList name] tail := by
      refine ⟨List.forall_mem_singleton.mpr ⟨hfield, fun c hc => ?_⟩, fun c hc => ?_⟩
      · rw [String.toList_ofList, ← hname] at hc
        exact mem_of_mem_skipSpacing ((List.takeWhile_sublist _).mem hc)
      · rw [← htail] at hc
        exact mem_of_mem_skipSpacing ((List.dropWhile_sublist _).mem (mem_of_mem_skipSpacing hc))
    cases hinner : inner? fuel tail with
    | none =>
      rw [hinner] at h
      cases h
      exact hwithin
    | some found =>
      rw [hinner] at h
      cases h
      exact hwithin.append (within_inner? hlist hinner)

/-- What the readers take, one level of calls after the other. -/
theorem within_reads (fuel : Nat) :
    (∀ cs n rest, selectNode? fuel cs = some (n, rest) → Within cs n.names rest) ∧
    (∀ cs ns rest, selectList? fuel cs = some (ns, rest) → Within cs (namesIn ns) rest) ∧
    (∀ cs, Within cs (namesIn (moreNodes fuel cs).1) (moreNodes fuel cs).2) := by
  induction fuel with
  | zero =>
    refine ⟨?_, ?_, fun cs => ⟨List.forall_mem_nil _, fun c hc => hc⟩⟩
    · rintro cs n rest ⟨⟩
    · rintro cs ns rest ⟨⟩
  | succ fuel ih =>
    obtain ⟨hnode, hlist, hmore⟩ := ih
    have hlist' : ∀ cs ns rest, selectList? (fuel + 1) cs = some (ns, rest) → Within cs (namesIn ns) rest := by
      intro cs ns rest h
      rw [selectList?_succ] at h
      obtain ⟨found, hfound, heq⟩ := Option.map_eq_some_iff.mp h
      cases heq
      exact (hnode cs found.1 found.2 hfound).append (hmore found.2)
    refine ⟨fun cs n rest h => within_selectNode? hlist h, hlist', fun cs => ?_⟩
    by_cases hcomma : cs.head? = some ','
    · obtain ⟨cs, rfl⟩ := List.head?_eq_some_iff.mp hcomma
      rw [moreNodes_comma]
      cases hread : selectList? (fuel + 1) cs with
      | none => exact ⟨List.forall_mem_nil _, fun c hc => hc⟩
      | some found => exact (hlist' cs found.1 found.2 hread).mono fun c hc => List.mem_cons_of_mem _ hc
    · rw [moreNodes_of_head? hcomma]
      exact ⟨List.forall_mem_nil _, fun c hc => hc⟩

theorem within_readSelect {text : String} (h : readSelect text = .ok ns) :
    ∀ name ∈ namesIn ns, IsField name ∧ ∀ c ∈ name.toList, c ∈ text.toList := by
  unfold readSelect at h
  dsimp only at h
  split at h
  next => cases h
  next found rest hread =>
    split at h
    next =>
      cases h
      exact ((within_reads _).2.1 _ _ _ hread).fields
    next => cases h

end ItemQuery.Aml
