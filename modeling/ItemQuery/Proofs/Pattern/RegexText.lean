import ItemQuery.Proofs.Number.Digits
import ItemQuery.Proofs.Pattern.Everywhere
import ItemQuery.Proofs.Pattern.Rendering
import ItemQuery.Proofs.Text.Cutting

/-! The text of a regular expression, read piece by piece. What follows a piece never starts with the sign of a
    quantifier, so a written piece is read up to its own end; a class is read entry by entry, as none of them starts
    with a dash, a bracket or the sign for a negation. -/

namespace ItemQuery

/-- The repetition that is read where this one is written: nothing is written for once, greedy or not. -/
def Repetition.written (r : Repetition) : Repetition :=
  if r.isOnce then .once else r

namespace Pattern

/-! ### Classes -/

/-- Whether an entry is read as it is written: a class inside of brackets is not that of all characters, and the end
    of a range needs no escape. -/
def classWritable : SetItem → Bool
  | .char _ => true
  | .range _ high => classChar high == [high]
  | .cls kind => kind != .any

/-- Whether a text does not start with this character. -/
def Avoids (c : Char) (cs : List Char) : Prop :=
  cs.head? ≠ some c

theorem rangeFrom_of_avoids {low : Char} {cs : List Char} (h : Avoids '-' cs) :
    rangeFrom low cs = (.char low, cs) := by
  unfold rangeFrom
  split
  next => exact absurd rfl h
  next => rfl

theorem rangeFrom_dash {low high : Char} (h : high ≠ ']') (cs : List Char) :
    rangeFrom low ('-' :: high :: cs) = (.range low high, cs) :=
  if_neg h

theorem classEntry?_classChar (c : Char) (cs : List Char) :
    classEntry? (classChar c ++ cs) = some (rangeFrom c cs) := by
  unfold classChar
  split
  next h => rcases h with rfl | rfl | rfl | rfl <;> rfl
  next h =>
    simp only [not_or] at h
    rw [List.singleton_append]
    unfold classEntry?
    split <;> simp_all

theorem classEntry?_classItemText {item : SetItem} (h : classWritable item = true) {cs : List Char}
    (hcs : Avoids '-' cs) : classEntry? (classItemText item ++ cs) = some (item, cs) := by
  cases item with
  | char c => rw [classItemText, classEntry?_classChar, rangeFrom_of_avoids hcs]
  | range low high =>
    have hhigh : classChar high = [high] := by simpa [classWritable] using h
    have hne : high ≠ ']' := by
      rintro rfl
      exact absurd hhigh (by decide)
    rw [classItemText, hhigh, List.append_assoc, classEntry?_classChar]
    exact congrArg some (rangeFrom_dash hne cs)
  | cls kind =>
    cases kind with
    | any => cases h
    | digit | word | space => rfl

/-- The first character of an entry is none with a meaning in its place. -/
theorem avoids_classItemText (item : SetItem) (cs : List Char) :
    ∃ c more, classItemText item ++ cs = c :: more ∧ c ≠ '-' ∧ c ≠ ']' ∧ c ≠ '^' := by
  have hchar (x : Char) (cs : List Char) :
      ∃ c more, classChar x ++ cs = c :: more ∧ c ≠ '-' ∧ c ≠ ']' ∧ c ≠ '^' := by
    unfold classChar
    split
    next => exact ⟨'\\', _, rfl, by decide⟩
    next h =>
      simp only [not_or] at h
      exact ⟨x, cs, rfl, h.2.2.2, h.2.1, h.2.2.1⟩
  cases item with
  | char x => exact hchar x cs
  | range low high =>
    rw [classItemText, List.append_assoc]
    exact hchar low _
  | cls kind => cases kind <;> exact ⟨'\\', _, rfl, by decide⟩

theorem classItems?_text {items : List SetItem} (h : items.all classWritable = true) (rest : List Char) {first : Bool}
    (hfirst : first = true → items ≠ []) :
    classItems? first (items.flatMap classItemText ++ ']' :: rest) = some (items, rest) := by
  induction items generalizing first with
  | nil =>
    cases first with
    | true => exact absurd rfl (hfirst rfl)
    | false =>
      rw [List.flatMap_nil, List.nil_append, classItems?]
      simp
  | cons item items ih =>
    rw [List.all_cons, Bool.and_eq_true] at h
    have hrest := @ih h.2 false (by simp)
    have havoids : Avoids '-' (items.flatMap classItemText ++ ']' :: rest) := by
      cases items with
      | nil => exact fun heq => absurd heq (by simp)
      | cons next items =>
        obtain ⟨c, more, hnext, hc, -⟩ := avoids_classItemText next (items.flatMap classItemText ++ ']' :: rest)
        rw [List.flatMap_cons, List.append_assoc, hnext]
        exact fun heq => hc (Option.some.inj heq)
    have hentry := classEntry?_classItemText h.1 havoids
    obtain ⟨c, more, htext, -, hc, -⟩ := avoids_classItemText item (items.flatMap classItemText ++ ']' :: rest)
    rw [htext] at hentry
    rw [List.flatMap_cons, List.append_assoc, htext, classItems?, if_neg (fun heq => hc heq.1)]
    split
    next hnone => rw [hnone] at hentry; cases hentry
    next found more' hsome =>
      rw [hsome] at hentry
      cases hentry
      rw [hrest]
      rfl

/-- Whether a set is read as it is written. -/
def setWritable (chars : CharSet) : Bool :=
  chars.isClass .any || (!chars.items.isEmpty && chars.items.all classWritable)

theorem class?_text {items : List SetItem} (h : items.all classWritable = true) (hne : items ≠ []) (inverted : Bool)
    (rest : List Char) : class? ((if inverted then ['^'] else []) ++ items.flatMap classItemText ++ ']' :: rest) =
      some (⟨items, inverted⟩, rest) := by
  have hitems : classItems? true _ = _ := classItems?_text h rest fun _ => hne
  cases inverted with
  | true =>
    show (classItems? true (items.flatMap classItemText ++ ']' :: rest)).map _ = _
    rw [hitems]
    rfl
  | false =>
    obtain ⟨item, others, rfl⟩ := List.exists_cons_of_ne_nil hne
    obtain ⟨c, more, htext, -, -, hc⟩ := avoids_classItemText item (others.flatMap classItemText ++ ']' :: rest)
    simp only [List.flatMap_cons, List.append_assoc, Bool.false_eq_true, if_false, List.nil_append, htext] at hitems ⊢
    unfold class?
    split
    next heq => cases heq; exact absurd rfl hc
    next => rw [hitems]; rfl

/-! ### Quantifiers -/

/-- A text that starts with no quantifier. -/
def Calm (cs : List Char) : Prop :=
  ∀ c, cs.head? = some c → c ≠ '*' ∧ c ≠ '+' ∧ c ≠ '?' ∧ c ≠ '{'

theorem calm_nil : Calm [] :=
  nofun

theorem calm_cons {c : Char} (h : c ≠ '*' ∧ c ≠ '+' ∧ c ≠ '?' ∧ c ≠ '{') (cs : List Char) : Calm (c :: cs) := by
  intro d hd
  cases hd
  exact h

theorem quantifier_of_calm {cs : List Char} (h : Calm cs) : quantifier cs = (.once, cs) := by
  have hbare : bareQuantifier? cs = none := by
    unfold bareQuantifier?
    split
    next => exact absurd rfl (h _ rfl).1
    next => exact absurd rfl (h _ rfl).2.1
    next => exact absurd rfl (h _ rfl).2.2.1
    next => exact absurd rfl (h _ rfl).2.2.2
    next => rfl
  rw [quantifier, hbare]

theorem readCount_toString (n : UInt32) :
    Number.readUInt32? (Text.trimWhile Text.isBlank (toString n.toNat).toList) = some n := by
  rw [Text.trimWhile_of_forall fun c hc => Text.isBlank_eq_false_of_isDigit (Number.isDigit_of_mem_toString hc),
    Number.readUInt32?, Number.natural?_toString, Option.bind_some, if_pos n.toNat_lt_size, UInt32.ofNat_toNat]

theorem ne_of_mem_toString {n : Nat} {c x : Char} (hc : c ∈ (toString n).toList) (hx : x.isDigit = false) :
    c ≠ x := by
  rintro rfl
  rw [Number.isDigit_of_mem_toString hc] at hx
  cases hx

/-- The bounds as they stand between braces. -/
def boundsText (least : UInt32) : Option UInt32 → List Char
  | none => (toString least.toNat).toList ++ [',']
  | some most =>
    if most = least then (toString least.toNat).toList
    else (toString least.toNat).toList ++ ',' :: (toString most.toNat).toList

theorem bounds?_boundsText (least : UInt32) (most : Option UInt32) :
    bounds? (boundsText least most) = some (least, most) := by
  have hcomma : ∀ c ∈ (toString least.toNat).toList, c ≠ ',' := fun c hc => ne_of_mem_toString hc (by decide)
  cases most with
  | none =>
    simp only [bounds?, boundsText, Text.cut?_append hcomma, readCount_toString, Option.map_some]
  | some most =>
    rw [boundsText]
    split
    next heq => simp only [bounds?, Text.cut?_eq_none hcomma, readCount_toString, Option.map_some, heq]
    next =>
      have hne : (toString most.toNat).toList ≠ [] := Number.toString_toList_ne_nil _
      rw [bounds?, Text.cut?_append hcomma]
      split
      next heq => cases heq
      next heq => exact absurd (congrArg (·.elim [] Prod.snd) heq) hne
      next heq =>
        cases heq
        simp only [readCount_toString, Option.bind_some, Option.map_some]

theorem ne_brace_of_mem_boundsText {least : UInt32} {most : Option UInt32} {c : Char}
    (hc : c ∈ boundsText least most) : c ≠ '}' := by
  have hdigit : ∀ {n : Nat}, c ∈ (toString n).toList → c ≠ '}' := fun hc => ne_of_mem_toString hc (by decide)
  unfold boundsText at hc
  split at hc
  next =>
    rcases List.mem_append.mp hc with hc | hc
    · exact hdigit hc
    · rw [List.mem_singleton.mp hc]
      decide
  next most =>
    split at hc
    next => exact hdigit hc
    next =>
      rcases List.mem_append.mp hc with hc | hc
      · exact hdigit hc
      rcases List.mem_cons.mp hc with rfl | hc
      · decide
      · exact hdigit hc

/-- The sign of a repetition that is not once. -/
def signText (least : UInt32) (most : Option UInt32) : List Char :=
  if least = 0 ∧ most = none then ['*']
  else if least = 1 ∧ most = none then ['+']
  else if least = 0 ∧ most = some 1 then ['?']
  else '{' :: (boundsText least most ++ ['}'])

theorem quantifierText_eq {r : Repetition} (h : r.isOnce = false) :
    quantifierText r = signText r.least r.most ++ if r.greedy then [] else ['?'] := by
  obtain ⟨least, most, greedy⟩ := r
  simp only [quantifierText, h, Bool.false_eq_true, if_false, signText, boundsText]
  cases most with
  | none => by_cases h0 : least = 0 <;> by_cases h1 : least = 1 <;> simp [h0, h1]
  | some most =>
    by_cases h0 : least = 0 ∧ most = 1
    · simp [h0]
    · by_cases heq : most = least
      · subst heq
        simp [h0]
      · simp [h0, heq]

theorem bareQuantifier?_signText (least : UInt32) (most : Option UInt32) (rest : List Char) :
    bareQuantifier? (signText least most ++ rest) = some (least, most, rest) := by
  unfold signText
  split
  next h => rw [h.1, h.2]; rfl
  split
  next h => rw [h.1, h.2]; rfl
  split
  next h => rw [h.1, h.2]; rfl
  next =>
    have hbrace : ∀ c ∈ boundsText least most, c ≠ '}' := fun c hc => ne_brace_of_mem_boundsText hc
    have hcut := Text.cut?_append hbrace rest
    simp only [List.cons_append, List.append_assoc, List.nil_append, bareQuantifier?, hcut, Option.bind_some,
      bounds?_boundsText, Option.map_some]

/-- A repetition is read up to its end. -/
theorem quantifier_quantifierText (r : Repetition) {rest : List Char} (hrest : Calm rest) :
    quantifier (quantifierText r ++ rest) = (r.written, rest) := by
  cases honce : r.isOnce with
  | true =>
    have htext : quantifierText r = [] := by simp only [quantifierText, honce, if_true]
    rw [htext, List.nil_append, quantifier_of_calm hrest, Repetition.written, honce, if_pos rfl]
  | false =>
    obtain ⟨least, most, greedy⟩ := r
    rw [quantifierText_eq honce, List.append_assoc, quantifier, bareQuantifier?_signText, Repetition.written, honce]
    cases greedy with
    | true =>
      simp only [if_true, List.nil_append]
      split
      next heq => cases heq
      next heq => cases heq; exact absurd rfl (hrest _ rfl).2.2.1
      next heq => cases heq; rfl
    | false => rfl

/-! ### Pieces -/

/-- Reading the text appends the pieces, whatever follows that is no quantifier. -/
structure Reads (cs : List Char) (ps : List Piece) : Prop where
  calm : ∀ {rest}, Calm rest → Calm (cs ++ rest)
  read : ∀ total top outer {rest}, Calm rest →
    readRegex total top outer (cs ++ rest) = readRegex total (ps.foldl .push top) outer rest

theorem reads_nil : Reads [] [] :=
  ⟨id, fun _ _ _ _ _ => rfl⟩

theorem Reads.append {cs ds : List Char} {ps qs : List Piece} (h : Reads cs ps) (h' : Reads ds qs) :
    Reads (cs ++ ds) (ps ++ qs) where
  calm hrest := by
    rw [List.append_assoc]
    exact h.calm (h'.calm hrest)
  read total top outer rest hrest := by
    rw [List.append_assoc, h.read _ _ _ (h'.calm hrest), h'.read _ _ _ hrest, List.foldl_append]

/-- An atom with its quantifier makes one piece. -/
theorem readRegex_atom {total : Nat} {top : OpenGroup} {outer : List OpenGroup} {c : Char} {cs more : List Char}
    {piece : Repetition → Piece} (hc : c ≠ '|' ∧ c ≠ '(' ∧ c ≠ ')')
    (hatom : ∀ position, atom? position c cs = .ok (piece, more))
    (hpiece : ∀ place r, piece (quantifier more).1 = .anchor place r → r = .once) :
    readRegex total top outer (c :: cs) =
      readRegex total (top.push (piece (quantifier more).1)) outer (quantifier more).2 := by
  rw [readRegex.eq_def]
  split
  next heq => cases heq
  next heq => cases heq; exact absurd rfl hc.1
  next heq => cases heq; exact absurd rfl hc.2.1
  next heq => cases heq; exact absurd rfl hc.2.2
  next heq =>
    cases heq
    split
    next hread => rw [hatom] at hread; cases hread
    next hread =>
      rw [hatom] at hread
      cases hread
      split
      next place r hplace =>
        rw [if_pos (hpiece place r hplace), ← hplace]
      next => rfl

theorem readRegex_set {total : Nat} {top : OpenGroup} {outer : List OpenGroup} {cs more : List Char} {chars : CharSet}
    (h : class? cs = some (chars, more)) : readRegex total top outer ('[' :: cs) =
      readRegex total (top.push (.set chars (quantifier more).1)) outer (quantifier more).2 :=
  readRegex_atom (by decide) (fun _ => by simp only [atom?, h]) nofun

theorem readRegex_unterminated {total : Nat} {top : OpenGroup} {outer : List OpenGroup} {cs : List Char}
    (h : class? cs = none) : readRegex total top outer ('[' :: cs) =
      .error (.parse (total - (cs.length + 1)) "unterminated character class") := by
  have hatom : ∀ position, atom? position '[' cs = .error (.parse position "unterminated character class") :=
    fun position => by simp only [atom?, h]
  rw [readRegex.eq_def]
  split
  next heq => cases heq
  next heq => cases heq
  next heq => cases heq
  next heq => cases heq
  next heq =>
    cases heq
    split
    next hread =>
      rw [hatom] at hread
      cases hread
      rfl
    next hread =>
      rw [hatom] at hread
      cases hread

/-- A written atom is read as its piece. -/
theorem reads_atom {c : Char} (cs : List Char) (piece : Repetition → Piece) (r : Repetition)
    (hc : c ≠ '|' ∧ c ≠ '(' ∧ c ≠ ')') (hcalm : c ≠ '*' ∧ c ≠ '+' ∧ c ≠ '?' ∧ c ≠ '{')
    (hatom : ∀ position rest, atom? position c (cs ++ rest) = .ok (piece, rest))
    (hpiece : ∀ place q, piece r.written = .anchor place q → q = .once) :
    Reads (c :: cs ++ quantifierText r) [piece r.written] where
  calm _ := calm_cons hcalm _
  read total top outer rest hrest := by
    have hquantifier := quantifier_quantifierText r hrest
    rw [List.append_assoc, List.cons_append,
      readRegex_atom hc (fun position => hatom position _) (by rwa [hquantifier]), hquantifier]
    rfl

theorem escaped_special {c : Char} (h : regexSpecial.contains c = true) (r : Repetition) :
    escaped c r = .text c.toString r := by
  simp only [regexSpecial, List.contains_eq_mem, List.mem_cons, List.not_mem_nil, or_false, decide_eq_true_eq] at h
  rcases h with rfl | rfl | rfl | rfl | rfl | rfl | rfl | rfl | rfl | rfl | rfl | rfl | rfl | rfl <;> rfl

theorem atom?_plain {c : Char} (h : regexSpecial.contains c = false) (position : Nat) (rest : List Char) :
    atom? position c rest = .ok (.text c.toString, rest) := by
  simp only [regexSpecial, List.contains_eq_mem, List.mem_cons, List.not_mem_nil, or_false, decide_eq_false_iff_not,
    not_or] at h
  unfold atom?
  split <;> simp_all

theorem ne_of_not_special {c x : Char} (h : regexSpecial.contains c = false) (hx : regexSpecial.contains x = true) :
    c ≠ x := by
  rintro rfl
  rw [h] at hx
  cases hx

/-- A character with its quantifier. -/
theorem reads_char (c : Char) (r : Repetition) :
    Reads (regexLiteral [c] ++ quantifierText r) [.text c.toString r.written] := by
  simp only [regexLiteral]
  split
  next h =>
    refine reads_atom [c] (.text c.toString) r (by decide) (by decide) (fun position rest => ?_) nofun
    show Except.ok (escaped c, rest) = _
    rw [funext (escaped_special h)]
  next h =>
    rw [Bool.not_eq_true] at h
    have hne (x : Char) (hx : regexSpecial.contains x = true) := ne_of_not_special h hx
    exact reads_atom [] _ r ⟨hne '|' (by decide), hne '(' (by decide), hne ')' (by decide)⟩
      ⟨hne '*' (by decide), hne '+' (by decide), hne '?' (by decide), hne '{' (by decide)⟩
      (fun position rest => atom?_plain h position rest) nofun

/-- The characters of a text, each once. -/
def charPieces (cs : List Char) : List Piece :=
  cs.map fun c => .text c.toString .once

theorem reads_regexLiteral (cs : List Char) : Reads (regexLiteral cs) (charPieces cs) := by
  induction cs with
  | nil => exact reads_nil
  | cons c cs ih =>
    have hchar := reads_char c .once
    have hsplit : regexLiteral (c :: cs) = (regexLiteral [c] ++ quantifierText .once) ++ regexLiteral cs := by
      have hnothing : quantifierText .once = [] := rfl
      simp only [regexLiteral, hnothing, List.append_nil]
      split <;> rfl
    rw [hsplit]
    exact hchar.append ih

/-- A set with its quantifier. -/
theorem reads_set {chars : CharSet} (h : setWritable chars = true) (r : Repetition) :
    Reads (classText chars ++ quantifierText r) [.set chars r.written] := by
  have hbackslash (d : Char) (piece : Repetition → Piece) (hpiece : escaped d = piece)
      (hset : ∀ place q, piece r.written = .anchor place q → q = .once) :
      Reads (['\\', d] ++ quantifierText r) [piece r.written] :=
    reads_atom [d] piece r (by decide) (by decide) (fun position rest => by rw [← hpiece]; rfl) hset
  unfold classText
  split
  next hinverted hitems =>
    obtain ⟨items, inverted⟩ := chars
    cases hinverted
    cases hitems
    exact reads_atom [] _ r (by decide) (by decide) (fun position rest => rfl) nofun
  next kind hany hinverted hitems =>
    obtain ⟨items, inverted⟩ := chars
    cases hinverted
    cases hitems
    cases kind with
    | any => exact absurd rfl hany
    | digit => exact hbackslash 'd' _ rfl nofun
    | word => exact hbackslash 'w' _ rfl nofun
    | space => exact hbackslash 's' _ rfl nofun
  next hclass _ =>
    obtain ⟨items, inverted⟩ := chars
    have hany : (CharSet.mk items inverted).isClass .any = false := by
      rw [Bool.eq_false_iff]
      intro hany
      cases CharSet.eq_of_isClass hany
      exact hclass rfl rfl
    simp only [setWritable, hany, Bool.false_or, Bool.and_eq_true, Bool.not_eq_true', List.isEmpty_eq_false_iff] at h
    refine reads_atom _ _ r (by decide) (by decide) (fun position rest => ?_) nofun
    have hread := class?_text h.2 h.1 inverted rest
    simp only [atom?, List.append_assoc, List.singleton_append] at hread ⊢
    rw [hread]

/-! ### Groups -/

/-- Reading the text as the inside of a group completes it to one with all the alternatives. -/
structure ReadsGroup (cs : List Char) (pss : List (List Piece)) : Prop where
  calm : ∀ {rest}, Calm rest → Calm (cs ++ rest)
  read : ∀ total opened before outer {rest}, Calm rest → ∃ g : OpenGroup,
    readRegex total ⟨opened, before, []⟩ outer (cs ++ rest) = readRegex total g outer rest ∧
      g.alternatives = before.reverse ++ pss

theorem foldl_push (ps : List Piece) (g : OpenGroup) :
    ps.foldl .push g = { g with current := ps.reverse ++ g.current } := by
  induction ps generalizing g with
  | nil => rfl
  | cons p ps ih => simp [ih, OpenGroup.push]

theorem Reads.group {cs : List Char} {ps : List Piece} (h : Reads cs ps) : ReadsGroup cs [ps] where
  calm := h.calm
  read total opened before outer rest hrest := by
    refine ⟨_, h.read total _ outer hrest, ?_⟩
    simp [foldl_push, OpenGroup.alternatives]

theorem ReadsGroup.bar {cs ds : List Char} {ps : List Piece} {pss : List (List Piece)} (h : Reads cs ps)
    (h' : ReadsGroup ds pss) : ReadsGroup (cs ++ '|' :: ds) (ps :: pss) where
  calm hrest := by
    rw [List.append_assoc]
    exact h.calm (calm_cons (by decide) _)
  read total opened before outer rest hrest := by
    have hbar : Calm ('|' :: (ds ++ rest)) := calm_cons (by decide) _
    obtain ⟨g, hread, halternatives⟩ := h'.read total opened (ps :: before) outer hrest
    refine ⟨g, ?_, by simp [halternatives]⟩
    rw [List.append_assoc, List.cons_append, h.read total _ outer hbar, readRegex.eq_def, foldl_push]
    simpa [OpenGroup.bar] using hread

theorem afterMark_of_calm {cs : List Char} (h : Calm cs) : afterMark cs = cs := by
  unfold afterMark
  split
  next => exact absurd rfl (h _ rfl).2.2.1
  next => rfl

/-- A group with its quantifier; the sign that it captures nothing makes no difference. -/
theorem ReadsGroup.reads {cs mark : List Char} {pss : List (List Piece)} (h : ReadsGroup cs pss) (r : Repetition)
    (hmark : mark = [] ∨ mark = ['?', ':']) :
    Reads ('(' :: mark ++ cs ++ ')' :: quantifierText r) [.group pss r.written] where
  calm _ := calm_cons (by decide) _
  read total top outer rest hrest := by
    have hclose : Calm (')' :: (quantifierText r ++ rest)) := calm_cons (by decide) _
    have hafter : afterMark (mark ++ (cs ++ ')' :: (quantifierText r ++ rest))) =
        cs ++ ')' :: (quantifierText r ++ rest) := by
      rcases hmark with rfl | rfl
      · exact afterMark_of_calm (h.calm hclose)
      · rfl
    rw [List.append_assoc, List.append_assoc, List.cons_append, List.cons_append, readRegex.eq_def]
    simp only [hafter]
    obtain ⟨g, hread, halternatives⟩ := h.read total _ [] (top :: outer) hclose
    rw [hread, readRegex.eq_def]
    simp only [quantifier_quantifierText r hrest, halternatives]
    rfl

end Pattern
end ItemQuery
