import ItemQuery.Proofs.Sql.Pairing
import ItemQuery.Proofs.Sql.ValueLists

/-! Values that stand alone are read as they are read behind an operator: the bounds of a range as behind `between`, and
    the items of a list as in the parentheses of an `in`. -/

namespace ItemQuery.Sql

variable {cs gap rest shown : List Char} {offset : Nat} {ts us : List Token} {chunks : List Chunk} {c : Chunk} {t : Token}
  {kind : TokenKind} {scope : Scope} {stop : Nat} {e : Expr} {m : Machine} {d : Int}

/-! ### A text in another place -/

theorem Laid.moved (h : Laid offset gap cs ts chunks) (offset' : Nat) : ∃ us, Laid offset' gap cs us chunks := by
  induction h generalizing offset' with
  | nil => exact ⟨[], .nil⟩
  | blank hc _ ih =>
    obtain ⟨us, hlaid⟩ := ih _
    exact ⟨us, .blank hc hlaid⟩
  | comment hremark _ ih =>
    obtain ⟨us, hlaid⟩ := ih _
    exact ⟨_, .comment hremark hlaid⟩
  | token hkind hblank hne hscan _ ih =>
    obtain ⟨us, hlaid⟩ := ih _
    exact ⟨_, .token hkind hblank hne hscan hlaid⟩

/-- Only the first chunk knows what stands in front of the text. -/
theorem Laid.regapped (h : Laid offset gap cs ts chunks) (offset' : Nat) (gap' : List Char) :
    ∃ us g, Laid offset' gap' cs us (chunks.modifyHead fun c => { c with gap := g }) := by
  induction h generalizing offset' gap' with
  | nil => exact ⟨[], [], .nil⟩
  | blank hc _ ih =>
    obtain ⟨us, g, hlaid⟩ := ih _ _
    exact ⟨us, g, .blank hc hlaid⟩
  | comment hremark _ ih =>
    obtain ⟨us, g, hlaid⟩ := ih _ _
    exact ⟨_, g, .comment hremark hlaid⟩
  | token hkind hblank hne hscan h _ =>
    obtain ⟨us, hlaid⟩ := h.moved _
    exact ⟨_, gap', .token hkind hblank hne hscan hlaid⟩

/-- A parenthesis behind a text closes it, unless the text ends with an open comment. -/
theorem Laid.closed (h : Laid offset gap cs ts chunks) : ∃ us more, Laid offset gap (cs ++ [')']) us (chunks ++ more) ∧
    (more = [] ∨ ∃ g, more = [⟨g, .operator, [')']⟩]) := by
  induction h with
  | @nil offset gap =>
    have hblank : ∀ c, [')'].head? = some c → Text.isBlank c = false := by
      rintro c ⟨⟩
      rfl
    have hmark : Laid offset gap [')'] [⟨.operator, ")", offset⟩] [⟨gap, .operator, [')']⟩] :=
      @Laid.token offset gap [')'] [] [] [] .operator nofun hblank (List.cons_ne_nil _ _)
        (scanToken?_mark (.inr (.inl rfl)) []) .nil
    exact ⟨_, _, hmark, .inr ⟨gap, rfl⟩⟩
  | blank hc _ ih =>
    obtain ⟨us, more, hlaid, hmore⟩ := ih
    exact ⟨us, more, .blank hc hlaid, hmore⟩
  | @comment offset gap shown rest ts chunks hremark hrest ih =>
    have hkept : Remark (shown, rest ++ [')']) → ∃ us more, Laid offset gap (shown ++ rest ++ [')']) us (chunks ++ more) ∧
        (more = [] ∨ ∃ g, more = [⟨g, .operator, [')']⟩]) := by
      intro hremark'
      obtain ⟨us, more, hlaid, hmore⟩ := ih
      rw [List.append_assoc]
      exact ⟨_, more, .comment hremark' hlaid, hmore⟩
    by_cases hne : rest = []
    · subst hne
      obtain rfl := hrest.unique (@Laid.nil 0 (gap ++ shown))
      cases hremark with
      | block hbody => exact hkept (.block hbody)
      | @line body _ hbody =>
        -- The comment goes up to the end of the text, and the parenthesis becomes its last character.
        have hlonger : Remark ('-' :: '-' :: (body ++ [')']), []) := by
          refine .line (List.forall_mem_append.mpr ⟨hbody, ?_⟩) (.inl rfl)
          exact List.forall_mem_singleton.mpr (by decide)
        have hlaid := Laid.comment hlonger (@Laid.nil (offset + byteLength ('-' :: '-' :: (body ++ [')'])))
          (gap ++ ('-' :: '-' :: (body ++ [')']))))
        rw [List.append_nil] at hlaid ⊢
        exact ⟨_, [], hlaid, .inl rfl⟩
    · exact hkept (hremark.append hne _)
  | token hkind hblank hne hscan _ ih =>
    obtain ⟨us, more, hlaid, hmore⟩ := ih
    have hscan' := (scanToken?_again hscan hkind).2.2 _ (resumes_append (by decide) (.inl rfl) [])
    rw [List.append_assoc]
    exact ⟨_, more, .token hkind hblank hne hscan' hlaid, hmore⟩

theorem foldl_regapped (g : List Char) :
    (chunks.modifyHead fun c => { c with gap := g }).foldl Joining.take {} = chunks.foldl Joining.take {} := by
  cases chunks with
  | nil => rfl
  | cons c chunks =>
    have hjoining : joining? c ({} : Joining).done = none := by
      rw [joining?]
      cases c.kind.word? <;> rfl
    rw [List.modifyHead_cons, List.foldl_cons, List.foldl_cons, take_gap hjoining]

/-- A word in front of a blank. -/
theorem Laid.of_word (h : Laid offset gap (shown ++ ' ' :: rest) ts chunks)
    (hscan : scanToken? shown = some (kind, shown, []))
    (hkind : kind ≠ .comment) (hhead : ∃ c more, shown = c :: more ∧ Text.isBlank c = false) :
    ∃ offset us more, chunks = ⟨gap, kind, shown⟩ :: more ∧ Laid offset [' '] rest us more := by
  obtain ⟨-, hne, hagain⟩ := scanToken?_again hscan hkind
  have hstop : ∀ c, (' ' :: rest).head? = some c → isStop c = true := by
    rintro c ⟨⟩
    rfl
  have hblank : ∀ c, shown.head? = some c → Text.isBlank c = false := by
    obtain ⟨d, more, rfl, hd⟩ := hhead
    rintro c ⟨⟩
    exact hd
  rcases h.of_token hblank hne (hagain _ (resumes_of_isStop hstop _)) with ⟨hcomment, -⟩ | ⟨-, us, more, rfl, hlaid⟩
  · exact absurd hcomment hkind
  · exact ⟨_, us, more, rfl, hlaid.of_blank rfl⟩

/-! ### Spoken tokens -/

theorem parseTokens_eq_ok_iff : parseTokens scope ts stop = .ok e ↔
    ∃ m x, Machine.Runs scope {} (spoken ts) m ∧ m.finish 0 = .ok x ∧ x.toExpr 0 = .ok e := by
  rw [(agrees_parseTokens scope ts stop).eq_ok_iff, parseTokens, filter_spoken, Result.bind_eq_ok]
  constructor
  · rintro ⟨m, hm, h⟩
    obtain ⟨x, hx, he⟩ := Result.bind_eq_ok.mp h
    exact ⟨m, x, Machine.feed_eq_ok_iff.mp hm, hx, he⟩
  · rintro ⟨m, x, hm, hx, he⟩
    exact ⟨m, Machine.feed_eq_ok_iff.mpr hm, Result.bind_eq_ok.mpr ⟨x, hx, he⟩⟩

/-- Tokens are split at the same `and` with their comments. -/
theorem splitAtAnd?_spoken (d : Int) (ts : List Token) : splitAtAnd? d (spoken ts) =
    (splitAtAnd? d ts).map fun halves => (spoken halves.1, halves.2.1.unplaced, spoken halves.2.2) := by
  induction ts generalizing d with
  | nil => rfl
  | cons t ts ih =>
    by_cases ht : t.kind = .comment
    · rw [spoken_comment ht, splitAtAnd?_cons, if_neg (by simp [ht]), turn_of_comment ht, Int.add_zero, ih, Option.map_map]
      simp only [Function.comp_def, spoken_comment ht]
    · rw [spoken_cons ht, splitAtAnd?_cons, splitAtAnd?_cons]
      change (if d = 0 ∧ t.kind = .keyword .and then _ else (splitAtAnd? (d + t.turn) _).map _) = _
      split
      · rfl
      · rw [ih, Option.map_map, Option.map_map]
        simp only [Function.comp_def, spoken_cons ht]

/-- The items of an operand that has to be a list. -/
def Operand.items : Operand → Result (List Expr)
  | list items => .ok items
  | _ => .error (.parse 0 "expected a value list")

/-- The items of a list are read with its parenthesis open. -/
theorem parseInList_eq_ok {q : Query} {table : TableId} {b : String} {items : List Expr} {c c' : Machine}
    (hts : tokenize b = .ok ts) (hc : Machine.Runs (.ofTable q table) (listStart 0) (spoken ts) c)
    (hclose : c.Performs 0 .close c') (hitems : c'.finish 0 = .ok (.list items)) : parseInList q table b = .ok items := by
  let ended := fun (stop : Nat) (m : Machine) => m.finish stop >>= Operand.items
  let read := fun (stop : Nat) (m : Machine) => m.closeBracket stop >>= ended stop
  have hended : ∀ m : Machine, Result.Agrees ((ended b.utf8ByteSize m).map id) (ended 0 m.unplaced) := by
    intro m
    rw [Except.map_id]
    exact (m.agrees_finish _ 0).bind fun x _ => rfl
  have hread : ∀ m : Machine, Result.Agrees ((read b.utf8ByteSize m).map id) (read 0 m.unplaced) := fun m =>
    (m.agrees_closeBracket _ 0).bind_map hended
  have hall := (Machine.agrees_feed (.ofTable q table) (listStart 0) (ts.filter (!·.isComment))).bind_map hread
  rw [Except.map_id] at hall
  rw [parseInList, hts, Result.ok_bind]
  refine hall.eq_ok_iff.mpr (Result.bind_eq_ok.mpr ⟨c, Machine.feed_eq_ok_iff.mpr hc, ?_⟩)
  refine Result.bind_eq_ok.mpr ⟨c', Machine.closeBracket_eq_ok_iff.mpr hclose, ?_⟩
  exact Result.bind_eq_ok.mpr ⟨_, hitems, rfl⟩

/-! ### Behind an operator -/

theorem Scope.value_x (scope : Scope) : scope.value ⟨.identifier, "x", 0⟩ = .ok (.prop scope.table "x") := by
  have htrue : "x".toLower ≠ "true" := by decide +kernel
  have hfalse : "x".toLower ≠ "false" := by decide +kernel
  have hsegments : Token.segments ⟨.identifier, "x", 0⟩ = ["x"] := by decide +kernel
  have hlist : "x".toList = ['x'] := rfl
  rw [Scope.value, hlist]
  simp only [htrue, hfalse, if_false, hsegments]
  rfl

/-- The tokens of `x between`, the last one first. -/
def betweenFront : List Token :=
  [⟨.keyword .between, "between", 0⟩, ⟨.identifier, "x", 0⟩]

/-- The tokens of `x in (`, the last one first. -/
def inFront : List Token :=
  [⟨.operator, "(", 0⟩, ⟨.keyword .inList, "in", 0⟩, ⟨.identifier, "x", 0⟩]

/-- A property and an operator behind it. -/
theorem Machine.Runs.of_property {k : Keyword} {op : BinaryOp} {text : String} (hop : BinaryOp.ofKeyword? k = some op)
    (h : Runs scope {} (⟨.identifier, "x", 0⟩ :: ⟨.keyword k, text, 0⟩ :: ts) m) :
    Runs scope ⟨[.expr (.prop scope.table "x")], [.binary op 0], true⟩ ts m := by
  cases h with
  | call hcall => cases hcall
  | push _ ha hperforms h =>
    rw [Token.action?, Scope.value_x] at ha
    cases ha
    cases hperforms
    have hbinary : Token.action? scope ⟨.keyword k, text, 0⟩ false = some (.binary op) := by
      cases k <;> cases hop <;> rfl
    cases h with
    | call hcall => cases hcall
    | push _ ha hperforms h =>
      rw [hbinary] at ha
      cases ha
      cases hperforms with
      | binary _ happly =>
        cases happly
        exact h

theorem Machine.Runs.of_between (h : Runs scope {} (betweenFront.reverse ++ ts) m) :
    Runs scope (Sql.afterBetween (.prop scope.table "x") 0) ts m :=
  of_property rfl h

theorem Machine.Runs.of_in (h : Runs scope {} (inFront.reverse ++ ts) m) :
    Runs scope ((listStart 0).onto (afterIn (.prop scope.table "x") 0)) ts m := by
  have hin : Runs scope (afterIn (.prop scope.table "x") 0) (⟨.operator, "(", 0⟩ :: ts) m := of_property rfl h
  cases hin with
  | call hcall => cases hcall
  | push _ ha hperforms h =>
    cases ha
    cases hperforms
    exact h

/-- The text behind `x between`. -/
theorem exists_chunks_between {r : String} (h : tokenize ("x between " ++ r) = .ok ts) : ∃ offset raw chunks,
    Laid offset [' '] r.toList raw chunks ∧
      spoken ts = (chunks.foldl Joining.take (Joining.behind {} betweenFront 0 [0])).done.reverse := by
  obtain ⟨raw, chunks, hlaid, hspoken⟩ := exists_chunks_of_tokenize h
  have htext : ("x between " ++ r).toList = ['x'] ++ ' ' :: ("between".toList ++ ' ' :: r.toList) := by
    rw [String.toList_append]
    rfl
  rw [htext] at hlaid
  have hx : scanToken? ['x'] = some (.identifier, ['x'], []) := by decide +kernel
  have hword : scanToken? "between".toList = some (.keyword .between, "between".toList, []) := by decide +kernel
  obtain ⟨_, _, chunks, rfl, hbehind⟩ := hlaid.of_word hx nofun ⟨_, _, rfl, rfl⟩
  obtain ⟨offset, us, chunks, rfl, hrest⟩ := hbehind.of_word hword nofun ⟨_, _, rfl, rfl⟩
  exact ⟨offset, us, chunks, hrest, hspoken⟩

/-- The text in the parentheses of `x in`. -/
theorem exists_chunks_in {b : String} (h : tokenize ("x in (" ++ b ++ ")") = .ok ts) : ∃ offset raw chunks,
    Laid offset [] (b.toList ++ [')']) raw chunks ∧
      spoken ts = (chunks.foldl Joining.take (Joining.behind {} inFront 1 [])).done.reverse := by
  obtain ⟨raw, chunks, hlaid, hspoken⟩ := exists_chunks_of_tokenize h
  have htext : ("x in (" ++ b ++ ")").toList = ['x'] ++ ' ' :: ("in".toList ++ ' ' :: (['('] ++ (b.toList ++ [')']))) := by
    rw [String.toList_append, String.toList_append, List.append_assoc]
    rfl
  rw [htext] at hlaid
  have hx : scanToken? ['x'] = some (.identifier, ['x'], []) := by decide +kernel
  have hword : scanToken? "in".toList = some (.keyword .inList, "in".toList, []) := by decide +kernel
  obtain ⟨_, _, chunks, rfl, hbehind⟩ := hlaid.of_word hx nofun ⟨_, _, rfl, rfl⟩
  obtain ⟨_, _, chunks, rfl, hopen⟩ := hbehind.of_word hword nofun ⟨_, _, rfl, rfl⟩
  have hblank : ∀ c, ['('].head? = some c → Text.isBlank c = false := by
    rintro c ⟨⟩
    rfl
  rcases hopen.of_token hblank (List.cons_ne_nil _ _) (scanToken?_mark (.inl rfl) _) with
    ⟨hcomment, -⟩ | ⟨-, us, more, rfl, hrest⟩
  · cases hcomment
  · exact ⟨_, us, more, hrest, hspoken⟩

variable {q : Query} {table : TableId}

theorem exists_runs_of_parseWhere {sql : String} (h : parseWhere q table sql = .ok e) : ∃ ts m x, tokenize sql = .ok ts ∧
    Machine.Runs (.ofTable q table) {} (spoken ts) m ∧ m.finish 0 = .ok x ∧ x.toExpr 0 = .ok e := by
  obtain ⟨ts, hts, h⟩ := Result.bind_eq_ok.mp h
  obtain ⟨m, x, hm⟩ := parseTokens_eq_ok_iff.mp h
  exact ⟨ts, m, x, hts, hm⟩

/-- A range is read as behind `between`. -/
theorem parseBetween_of_parseWhere {r : String} {low high : Expr} {negated : Bool} {t : Option TableId}
    (h : parseWhere q table ("x between " ++ r) = .ok (.between (.prop table "x") low high negated t)) :
    parseBetween q table r = .ok (low, high) := by
  obtain ⟨ts, m, x, hts, hm, hx, he⟩ := exists_runs_of_parseWhere h
  obtain ⟨offset, raw, chunks, hlaid, hspoken⟩ := exists_chunks_between hts
  obtain ⟨raw', g, hlaid'⟩ := hlaid.regapped 0 []
  obtain ⟨us, hus, halone⟩ := tokenize_of_laid hlaid'
  rw [foldl_regapped] at halone
  have hsolvent : Solvent Token.turn 0 (spoken ts) := hm.openings.2
  have hfront : ∀ k c, joinChunk? k c betweenFront = none := by
    intro k c
    cases k <;> rfl
  rw [hspoken] at hm hsolvent
  rcases exists_halves hlaid.sound hfront rfl hsolvent with
    ⟨low', hinline, hlow⟩ | ⟨low', mark, mark', high', hsplit, hinline, hmark, hturn, hlow, hhigh⟩
  · rw [hinline] at hm
    obtain ⟨c, -, rfl, hsteady⟩ := Machine.Runs.afterBetween (c := {}) hm.of_between Machine.steady_empty hlow
    exact absurd hx (finish_afterBetween hsteady)
  · rw [hinline] at hm
    obtain ⟨⟨c, v, hc⟩, d, w, hd⟩ := hm.of_between.bounds hmark hlow hhigh hturn hx he
    rw [← halone, splitAtAnd?_spoken] at hsplit
    obtain ⟨⟨before, mark₀, after⟩, hfound, hhalves⟩ := Option.map_eq_some_iff.mp hsplit
    cases hhalves
    have hbefore : parseTokens (.ofTable q table) before mark₀.offset = .ok low := parseTokens_eq_ok_iff.mpr ⟨c, v, hc⟩
    have hafter : parseTokens (.ofTable q table) after r.utf8ByteSize = .ok high := parseTokens_eq_ok_iff.mpr ⟨d, w, hd⟩
    rw [parseBetween, hus, Result.ok_bind]
    simp only [hfound, hbefore, hafter, Result.ok_bind]
    rfl

/-- A balanced list is read as in the parentheses of an `in`. -/
theorem parseInList_of_parseWhere {b : String} {items : List Expr} {negated : Bool} {t : Option TableId}
    (hts : tokenize b = .ok ts) (hbalanced : Balanced ts)
    (h : parseWhere q table ("x in (" ++ b ++ ")") = .ok (.inList (.prop table "x") items negated t)) :
    parseInList q table b = .ok items := by
  obtain ⟨us, m, x, hus, hm, hx, he⟩ := exists_runs_of_parseWhere h
  obtain ⟨offset, raw, chunks, hlaid, hinline⟩ := exists_chunks_in hus
  obtain ⟨raw₀, chunks₀, hlaid₀, halone⟩ := exists_chunks_of_tokenize hts
  obtain ⟨_, more, hclosed, hmore⟩ := hlaid₀.closed
  obtain rfl := hlaid.unique hclosed
  have hfront : ∀ k c, joinChunk? k c inFront = none := fun _ _ => rfl
  rw [List.foldl_append, foldl_behind hlaid₀.sound hfront] at hinline
  have hopened : ((chunks₀.foldl Joining.take {}).behind inFront 1 []).done.reverse = inFront.reverse ++ spoken ts := by
    rw [halone, ← List.reverse_append]
    rfl
  rcases hmore with rfl | ⟨g, rfl⟩
  · rw [List.foldl_nil, hopened] at hinline
    rw [hinline] at hm
    have hnone := openings_of_finish hx
    rw [hm.openings.1, total_append, hbalanced.spoken.closed] at hnone
    cases hnone
  · have hclose : (((chunks₀.foldl Joining.take {}).behind inFront 1 []).take ⟨g, .operator, [')']⟩).done.reverse =
        inFront.reverse ++ (spoken ts ++ [⟨.operator, ")", 0⟩]) := by
      rw [← List.append_assoc, ← hopened, ← List.reverse_cons]
      rfl
    rw [List.foldl_cons, List.foldl_nil, hclose] at hinline
    rw [hinline] at hm
    obtain ⟨c, c', hc, hperforms, hitems⟩ := hm.of_in.items rfl hbalanced.spoken hx he
    exact parseInList_eq_ok hts hc hperforms hitems

/-- Value texts are read like the values of a criterion about `x`: a range as behind `between`, and a balanced list as
    in the parentheses of an `in`. -/
theorem value_reads_inline (q : Query) (table : TableId) :
    (∀ r low high negated t, parseWhere q table ("x between " ++ r) = .ok (.between (.prop table "x") low high negated t) →
      parseBetween q table r = .ok (low, high)) ∧
    ∀ b ts, tokenize b = .ok ts → Balanced ts → ∀ items negated t,
      parseWhere q table ("x in (" ++ b ++ ")") = .ok (.inList (.prop table "x") items negated t) →
        parseInList q table b = .ok items :=
  ⟨fun _ _ _ _ _ h => parseBetween_of_parseWhere h,
    fun _ _ hts hbalanced _ _ _ h => parseInList_of_parseWhere hts hbalanced h⟩

/-- The bounds of a range between two numbers. -/
def numberRange? : Expr → Option (PropertyRef × Literal × Literal × Bool)
  | .between (.property p) (.literal low) (.literal high) negated none => some (p, low, high, negated)
  | _ => none

/-- The items of a list of two numbers. -/
def numberPair? : Expr → Option (PropertyRef × Literal × Literal × Bool)
  | .inList (.property p) [.literal l, .literal l'] negated none => some (p, l, l', negated)
  | _ => none

/-- Words and parentheses in comments do not count. -/
theorem value_reads_inline_comments :
    (parseWhere (.ofItem {}) ⟨0, 0⟩ ("x between " ++ "1 /* and */ and (2)") =
        .ok (.between (.prop ⟨0, 0⟩ "x") (.int 1) (.int 2) false none) ∧
      parseBetween (.ofItem {}) ⟨0, 0⟩ "1 /* and */ and (2)" = .ok (.int 1, .int 2)) ∧
    parseWhere (.ofItem {}) ⟨0, 0⟩ ("x in (" ++ "1, /* ) */ (2)" ++ ")") =
        .ok (.inList (.prop ⟨0, 0⟩ "x") [.int 1, .int 2] false none) ∧
      parseInList (.ofItem {}) ⟨0, 0⟩ "1, /* ) */ (2)" = .ok [.int 1, .int 2] := by
  have hbetween : parseWhere (.ofItem {}) ⟨0, 0⟩ ("x between " ++ "1 /* and */ and (2)") =
      .ok (.between (.prop ⟨0, 0⟩ "x") (.int 1) (.int 2) false none) := by
    have hshape : (parseWhere (.ofItem {}) ⟨0, 0⟩ ("x between " ++ "1 /* and */ and (2)")).toOption.bind numberRange? =
        some (⟨⟨0, 0⟩, "x"⟩, .integer 1, .integer 2, false) := by decide +kernel
    obtain ⟨e, he, hshape⟩ := Option.bind_eq_some_iff.mp hshape
    unfold numberRange? at hshape
    split at hshape <;> cases hshape
    exact Result.toOption_eq_some.mp he
  have hin : parseWhere (.ofItem {}) ⟨0, 0⟩ ("x in (" ++ "1, /* ) */ (2)" ++ ")") =
      .ok (.inList (.prop ⟨0, 0⟩ "x") [.int 1, .int 2] false none) := by
    have hshape : (parseWhere (.ofItem {}) ⟨0, 0⟩ ("x in (" ++ "1, /* ) */ (2)" ++ ")")).toOption.bind numberPair? =
        some (⟨⟨0, 0⟩, "x"⟩, .integer 1, .integer 2, false) := by decide +kernel
    obtain ⟨e, he, hshape⟩ := Option.bind_eq_some_iff.mp hshape
    unfold numberPair? at hshape
    split at hshape <;> cases hshape
    exact Result.toOption_eq_some.mp he
  have htokens : (tokenize "1, /* ) */ (2)").toOption = some [⟨.number, "1", 0⟩, ⟨.operator, ",", 1⟩,
      ⟨.comment, "/* ) */", 3⟩, ⟨.operator, "(", 11⟩, ⟨.number, "2", 12⟩, ⟨.operator, ")", 13⟩] := by decide +kernel
  have hbalanced : Balanced [⟨.number, "1", 0⟩, ⟨.operator, ",", 1⟩, ⟨.comment, "/* ) */", 3⟩, ⟨.operator, "(", 11⟩,
      ⟨.number, "2", 12⟩, ⟨.operator, ")", 13⟩] := by
    refine ⟨?_, rfl⟩
    simp only [solvent_cons, solvent_nil]
    decide
  exact ⟨⟨hbetween, (value_reads_inline _ _).1 _ _ _ _ _ hbetween⟩, hin,
    (value_reads_inline _ _).2 _ _ (Result.toOption_eq_some.mp htokens) hbalanced _ _ _ hin⟩

end ItemQuery.Sql
