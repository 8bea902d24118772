import ItemQuery.Aml.Reader
import ItemQuery.Proofs.Query.WellFormed
import ItemQuery.Proofs.Sql.References

/-! Whatever events arrive, in whatever order, a query that is accepted is well formed. The invariant has two parts.
    The query so far is tidy: it has grown from its root, filters stand on the root and on relationships and keep to
    what foreign keys reach from there, and only items that are open may still lack a type. The open constructs hold
    live tables, and criteria that keep to the table of the item around them. -/

namespace ItemQuery.Aml

variable {q q' : Query} {table : TableId} {opened : List TableId}

/-! ### Conditions -/

theorem among_propertyValue {P : TableId → Prop} {p : PropertyRef} (hp : P p.table) (value : String) :
    (propertyValue p value).Among P := by
  unfold propertyValue
  split <;> simp [hp]

theorem among_bindValue {P : TableId → Prop} {p : PropertyRef} (hp : P p.table) {e : Expr} (he : e.Among P) :
    (bindValue p e).Among P := by
  unfold bindValue
  split
  next s => exact among_propertyValue hp s
  next => exact he

theorem safe_criterion {P : TableId → Prop} (q : Query) {p : PropertyRef} (hp : P p.table) (condition value : String) :
    (criterion q p condition value).Safe (Expr.Among P) := by
  have hlike : ∀ negated, Result.Safe (Expr.Among P) (do
      return .like (.property p) (.pattern (← Pattern.ofWildcard .aml value)) negated) := fun negated =>
    (Pattern.safe_ofWildcard .aml value).bind fun _ _ => by simpa using hp
  have hin : ∀ negated, Result.Safe (Expr.Among P) (do
      return .inList (.property p) ((← Sql.parseInList q p.table value).map (bindValue p)) negated none) := by
    intro negated
    refine (Sql.safe_parseInList q hp value).bind fun items hitems => .ok ?_
    refine Expr.among_inList.mpr ⟨Expr.among_property.mpr hp, ?_⟩
    simp only [List.forall_mem_map]
    exact fun e he => among_bindValue hp (hitems e he)
  have hbetween : ∀ negated, Result.Safe (Expr.Among P) (do
      let bounds ← Sql.parseBetween q p.table value
      return .between (.property p) (bindValue p bounds.1) (bindValue p bounds.2) negated none) := by
    intro negated
    refine (Sql.safe_parseBetween q hp value).bind fun bounds hbounds => .ok (Expr.among_between.mpr ?_)
    exact ⟨⟨Expr.among_property.mpr hp, among_bindValue hp hbounds.1⟩, among_bindValue hp hbounds.2⟩
  unfold criterion
  dsimp only
  split
  next => exact hlike false
  next => exact hlike true
  next => exact hin false
  next => exact hin true
  next => exact hbetween false
  next => exact hbetween true
  next => simpa using hp
  next => simpa using hp
  next => simpa using hp
  next => simpa using hp
  next => simpa using hp
  next =>
    split
    next =>
      exact .ok (Expr.among_comparison.mpr ⟨Expr.among_property.mpr hp, among_propertyValue hp value⟩)
    next => simp

/-! ### Attributes of items -/

mutual

theorem widens_addSelectNode {q : Query} {table : TableId} (h : q.Grown) (htable : q.contains table = true) :
    ∀ node, (addSelectNode q table node).Grown ∧ q.Widens (addSelectNode q table node)
  | .node name children => by
    obtain ⟨hgrown, hwidens⟩ := h.widens_modify (f := fun item => { item with select := item.select ++
      [{ expr := if name = "*" then Expr.allProperties table false else .prop table name }] })
      (fun _ => rfl) (fun _ => rfl) (fun _ => rfl) table
    rw [addSelectNode]
    split
    · exact ⟨hgrown, hwidens⟩
    · obtain ⟨hgrown', hwidens', hleads⟩ := hgrown.joinProperty (hwidens.live _ htable) name .leftOuter
      have hlive := hgrown'.contains_of_mem_keyed hleads.mem_keyed
      obtain ⟨hgrown'', hwidens''⟩ := widens_addSelectNodes hgrown' hlive children
      exact ⟨hgrown'', (hwidens.trans hwidens').trans hwidens''⟩

theorem widens_addSelectNodes {q : Query} {table : TableId} (h : q.Grown) (htable : q.contains table = true) :
    ∀ nodes, (addSelectNodes q table nodes).Grown ∧ q.Widens (addSelectNodes q table nodes)
  | [] => ⟨h, .refl q⟩
  | node :: nodes => by
    obtain ⟨hgrown, hwidens⟩ := widens_addSelectNode h htable node
    obtain ⟨hgrown', hwidens'⟩ := widens_addSelectNodes hgrown (hwidens.live _ htable) nodes
    exact ⟨hgrown', hwidens.trans hwidens'⟩

end

theorem safe_readSelect (value : String) : (readSelect value).Safe fun _ => True := by
  unfold readSelect
  dsimp only
  split
  next => simp
  next => split <;> simp

theorem safe_applySelect (h : q.Grown) (htable : q.contains table = true) (value : String) :
    (applySelect q table value).Safe fun q' => q'.Grown ∧ q.Widens q' := by
  unfold applySelect
  split
  next => exact .ok ⟨h, .refl q⟩
  next => exact (safe_readSelect value).map fun nodes _ => widens_addSelectNodes h htable nodes

theorem safe_readCount (name value : String) : (readCount name value).Safe fun _ => True := by
  unfold readCount
  split <;> simp

/-- The items differ in their names, ids and paging at most. -/
structure Retains (item item' : QueryItem) : Prop where
  joins : item'.joins = item.joins
  filter : item'.filter = item.filter
  select : item'.select = item.select
  orderBy : item'.orderBy = item.orderBy

theorem Retains.trans {item item' item'' : QueryItem} (h : Retains item item') (h' : Retains item' item'') :
    Retains item item'' :=
  ⟨h'.joins.trans h.joins, h'.filter.trans h.filter, h'.select.trans h.select, h'.orderBy.trans h.orderBy⟩

theorem safe_itemAttribute (item : QueryItem) (later : Paging) (name value : String) :
    (itemAttribute item later name value).Safe fun s => Retains item s.1 := by
  have hself : Retains item item := ⟨rfl, rfl, rfl, rfl⟩
  unfold itemAttribute
  split
  case h_6 => split <;> simp [hself]
  case h_9 => simpa [hself] using safe_readCount _ value
  case h_10 => simpa [hself] using safe_readCount _ value
  case h_11 => simpa [hself] using safe_readCount _ value
  case h_13 => split <;> simp [hself]
  all_goals exact Result.safe_ok.mpr ⟨rfl, rfl, rfl, rfl⟩

theorem safe_itemAttributes (item : QueryItem) (later : Paging) (pairs : List (String × String)) :
    (itemAttributes item later pairs).Safe fun s => Retains item s.1 := by
  induction pairs generalizing item later with
  | nil => exact .ok ⟨rfl, rfl, rfl, rfl⟩
  | cons pair pairs ih =>
    have hfirst := safe_itemAttribute item later pair.1 pair.2
    rw [itemAttributes]
    split
    next err herr => exact hfirst.of_eq_error herr
    next item' later' hread => exact (ih item' later').mono fun s hs => (hfirst.of_eq_ok hread).trans hs

theorem Paging.retains_apply (later : Paging) (item : QueryItem) : Retains item (later.apply item) := by
  unfold Paging.apply
  split <;> exact ⟨rfl, rfl, rfl, rfl⟩

theorem safe_applyItemAttributes (h : q.Tidy opened) (hlive : q.contains table = true) (htable : table ∈ opened)
    (pairs : List (String × String)) :
    (applyItemAttributes q table pairs).Safe fun found =>
      found.1.Tidy opened ∧ q.Extends found.1 ∧ ∀ c ∈ found.2, c.Among (· = table) := by
  obtain ⟨old, hold⟩ := Query.contains_iff.mp hlive
  unfold applyItemAttributes
  rw [Query.item, hold]
  refine (safe_itemAttributes old {} pairs).bind fun s hs => ?_
  obtain ⟨item, later⟩ := s
  obtain ⟨htidy, hext⟩ := h.modify table (f := fun _ => later.apply item) (fun other hother => by
    obtain rfl : old = other := Option.some.inj (hold.symm.trans hother)
    have hretains := hs.trans (later.retains_apply item)
    exact ⟨hretains.joins, hretains.filter⟩) htable
  dsimp -zeta only
  extract_lets typed rest
  -- A sort order, and the criteria of the attributes.
  have hrest : ∀ q', q'.Tidy opened → q.Extends q' → (rest q').Safe fun found =>
      found.1.Tidy opened ∧ q.Extends found.1 ∧ ∀ c ∈ found.2, c.Among (· = table) := by
    intro q' htidy' hext'
    dsimp -zeta only [rest]
    extract_lets sorted
    have hsorted : sorted.Tidy opened ∧ q.Extends sorted := by
      simp only [sorted]
      split
      next value _ =>
        obtain ⟨hgrown, hwidens⟩ := htidy'.grown.widens_modify
          (f := fun item => { item with orderBy := readOrderBy table value })
          (fun _ => rfl) (fun _ => rfl) (fun _ => rfl) table
        exact ⟨htidy'.of_widens hgrown hwidens, hext'.trans hwidens.toExtends⟩
      next => exact ⟨htidy', hext'⟩
    split
    next sql _ =>
      refine (Sql.safe_parseWhere (P := (· = table)) sorted rfl sql).bind fun c hc => .ok ⟨hsorted.1, hsorted.2, ?_⟩
      simpa using hc
    next => exact .ok ⟨hsorted.1, hsorted.2, List.forall_mem_nil _⟩
  split
  next value _ =>
    have hselected := safe_applySelect htidy.grown (hext.live table hlive) value
    exact hselected.bind fun q' hq' => hrest q' (htidy.of_widens hq'.1 hq'.2) (hext.trans hq'.2.toExtends)
  next => exact hrest typed htidy hext

/-! ### Open constructs -/

/-- The tables of the items that are open, the innermost first. -/
def openTables : List Frame → List TableId
  | [] => []
  | .item table _ _ :: outer => table :: openTables outer
  | _ :: outer => openTables outer

/-- A table behind a foreign key belongs to the property around its item; all others are heads. -/
def Role.Placed (q : Query) (table : TableId) (outer : List Frame) : Role → Prop
  | .foreignKey => ∃ ref condition text nested rest,
      outer = .property ref condition text nested :: rest ∧ table ∈ q.keyed ref.table
  | _ => q.Heads table

/-- What a construct holds inside of those around it: live tables, and criteria about the table of the innermost item
    and what foreign keys reach from it. -/
def Frame.Held (q : Query) (outer : List Frame) : Frame → Prop
  | .envelope => True
  | .item table role criteria =>
    q.contains table = true ∧ (∀ c ∈ criteria, c.Among (q.Behind table)) ∧ role.Placed q table outer
  | .combination _ criteria =>
    ∃ table inside, owner? outer = some (table, inside) ∧ ∀ c ∈ criteria, c.Among (q.Behind table)
  | .property ref _ _ nested =>
    (∃ inside, owner? outer = some (ref.table, inside)) ∧ ∀ c, nested = some (some c) → c.Among (q.Behind ref.table)
  | .relationships table => q.contains table = true

/-- Every open construct holds what it may. -/
def Held (q : Query) : List Frame → Prop
  | [] => True
  | frame :: outer => frame.Held q outer ∧ Held q outer

theorem Role.Placed.extends {outer : List Frame} {role : Role} (h : role.Placed q table outer) (hext : q.Extends q') :
    role.Placed q' table outer := by
  cases role with
  | foreignKey =>
    obtain ⟨ref, condition, text, nested, rest, houter, hkeyed⟩ := h
    exact ⟨ref, condition, text, nested, rest, houter, hext.mem_keyed hkeyed⟩
  | root => exact hext.heads h
  | relationship => exact hext.heads h

theorem Frame.Held.extends {outer : List Frame} {frame : Frame} (h : frame.Held q outer) (hext : q.Extends q') :
    frame.Held q' outer := by
  have hamong : ∀ {c : Expr} {t : TableId}, c.Among (q.Behind t) → c.Among (q'.Behind t) := fun hc =>
    hc.mono fun _ => hext.behind
  cases frame with
  | envelope => trivial
  | item table role criteria =>
    obtain ⟨hlive, hcriteria, hplaced⟩ := h
    exact ⟨hext.live _ hlive, fun c hc => hamong (hcriteria c hc), hplaced.extends hext⟩
  | combination kind criteria =>
    obtain ⟨table, inside, howner, hcriteria⟩ := h
    exact ⟨table, inside, howner, fun c hc => hamong (hcriteria c hc)⟩
  | property ref condition text nested =>
    obtain ⟨howner, hnested⟩ := h
    exact ⟨howner, fun c hc => hamong (hnested c hc)⟩
  | relationships table => exact hext.live _ h

theorem Held.extends {stack : List Frame} (h : Held q stack) (hext : q.Extends q') : Held q' stack := by
  induction stack with
  | nil => trivial
  | cons frame outer ih => exact ⟨h.1.extends hext, ih h.2⟩

theorem Held.contains_owner {stack : List Frame} (h : Held q stack) {inside : Bool}
    (howner : owner? stack = some (table, inside)) : q.contains table = true := by
  induction stack generalizing inside with
  | nil => cases howner
  | cons frame outer ih =>
    cases frame with
    | item other role criteria =>
      cases howner
      exact h.1.1
    | combination kind criteria =>
      obtain ⟨found, hfound, heq⟩ := Option.map_eq_some_iff.mp howner
      obtain ⟨rfl, -⟩ := Prod.mk.inj heq
      exact ih h.2 hfound
    | envelope => exact ih h.2 howner
    | property ref condition text nested => exact ih h.2 howner
    | relationships other => exact ih h.2 howner

/-! ### Readers -/

namespace Reader

variable {r : Reader}

/-- The invariant: before the root nothing but envelopes is open, and from then on the query is tidy. -/
def Sound (r : Reader) : Prop :=
  match r.query with
  | none => ∀ frame ∈ r.stack, frame = .envelope
  | some q => q.Tidy (openTables r.stack) ∧ Held q r.stack

theorem Sound.of_query (h : r.Sound) (hq : r.query = some q) : q.Tidy (openTables r.stack) ∧ Held q r.stack := by
  rwa [Sound, hq] at h

theorem safe_queryOf : r.queryOf.Safe fun q => r.query = some q := by
  unfold queryOf
  split
  next q hq => exact .ok hq
  next => simp

/-- Two readers that differ in waiting attributes only. -/
theorem Sound.of_eq (h : r.Sound) {r' : Reader} (hquery : r'.query = r.query) (hstack : r'.stack = r.stack) :
    r'.Sound := by
  rwa [Sound, hquery, hstack]

theorem sound_some {stack : List Frame} {pending : List (String × String)} {openAttribute : Option (String × String)}
    (htidy : q.Tidy (openTables stack)) (hheld : Held q stack) :
    Sound { query := some q, stack, pending, openAttribute } :=
  ⟨htidy, hheld⟩

theorem Sound.safe_applyAttributes (h : r.Sound) : r.applyAttributes.Safe Sound := by
  obtain ⟨query, stack, pending, openAttribute⟩ := r
  unfold applyAttributes
  split
  next => exact .ok h
  split
  next table role criteria outer hstack =>
    refine safe_queryOf.bind fun q hq => ?_
    subst hstack
    obtain ⟨htidy, hheld⟩ := h.of_query hq
    refine (safe_applyItemAttributes htidy hheld.1.1 List.mem_cons_self pending).bind fun found hfound => ?_
    obtain ⟨htidy', hext, hextra⟩ := hfound
    obtain ⟨⟨hlive, hcriteria, hplaced⟩, houter⟩ := hheld.extends hext
    refine .ok (sound_some htidy' ⟨⟨hlive, fun c hc => ?_, hplaced⟩, houter⟩)
    rcases List.mem_append.mp hc with hc | hc
    · exact hcriteria c hc
    · exact (hextra c hc).mono fun t ht => ht ▸ .refl
  next ref condition value nested outer hstack =>
    subst hstack
    cases query with
    | none => exact absurd (h _ List.mem_cons_self) nofun
    | some q => exact .ok h
  next => exact .ok h

/-- A criterion about the table of the innermost item, or what foreign keys reach from it, may go to the innermost
    construct. -/
theorem Sound.safe_pushCriterion (h : r.Sound) (hq : r.query = some q) {inside : Bool}
    (howner : owner? r.stack = some (table, inside)) {c : Expr} (hc : c.Among (q.Behind table)) :
    (r.pushCriterion c).Safe Sound := by
  obtain ⟨query, stack, pending, openAttribute⟩ := r
  obtain rfl : query = some q := hq
  obtain ⟨htidy, hheld⟩ := h
  unfold pushCriterion
  split
  next other role criteria outer hstack =>
    subst hstack
    cases howner
    obtain ⟨⟨hlive, hcriteria, hplaced⟩, houter⟩ := hheld
    refine .ok (sound_some htidy ⟨⟨hlive, fun d hd => ?_, hplaced⟩, houter⟩)
    rcases List.mem_append.mp hd with hd | hd
    · exact hcriteria d hd
    · exact List.mem_singleton.mp hd ▸ hc
  next kind criteria outer hstack =>
    subst hstack
    obtain ⟨⟨other, inside', howner', hcriteria⟩, houter⟩ := hheld
    obtain ⟨found, hfound, heq⟩ := Option.map_eq_some_iff.mp howner
    rw [howner'] at hfound
    cases hfound
    cases heq
    refine .ok (sound_some htidy ⟨⟨other, inside', howner', fun d hd => ?_⟩, houter⟩)
    rcases List.mem_append.mp hd with hd | hd
    · exact hcriteria d hd
    · exact List.mem_singleton.mp hd ▸ hc
  next => simp

theorem Sound.safe_pushCriterion? (h : r.Sound) (hq : r.query = some q) {inside : Bool}
    (howner : owner? r.stack = some (table, inside)) {c : Option Expr}
    (hc : ∀ e, c = some e → e.Among (q.Behind table)) : (r.pushCriterion? c).Safe Sound := by
  cases c with
  | none => exact .ok h
  | some e => exact h.safe_pushCriterion hq howner (hc e rfl)

/-! ### Starts of elements -/

theorem held_of_envelopes {stack : List Frame} (h : ∀ frame ∈ stack, frame = .envelope) (q : Query) :
    Held q stack ∧ openTables stack = [] := by
  induction stack with
  | nil => exact ⟨trivial, rfl⟩
  | cons frame outer ih =>
    rw [List.forall_mem_cons] at h
    obtain ⟨rfl, houter⟩ := h
    exact ⟨⟨trivial, (ih houter).1⟩, (ih houter).2⟩

/-- The first item makes the query. -/
theorem Sound.opening_root (h : r.Sound) (hq : ¬r.query.isSome = true) :
    Sound ({ r with query := some (.ofItem {}) }.opening (.item (Query.ofItem {}).root .root [])) := by
  obtain ⟨query, stack, pending, openAttribute⟩ := r
  cases query with
  | some q => exact absurd rfl hq
  | none =>
    obtain ⟨hheld, hopen⟩ := held_of_envelopes h (.ofItem {})
    have htidy := Query.tidy_ofItem {} rfl rfl
    refine sound_some ?_ ⟨⟨htidy.grown.rootLive, nofun, .inl rfl⟩, hheld⟩
    rw [openTables, hopen]
    exact htidy

theorem Sound.safe_startItem (h : r.Sound) : r.startItem.Safe Sound := by
  have hroot : Result.Safe Sound (if r.query.isSome then .error (.unsupported "more than one Item in a query")
      else .ok ({ r with query := some (.ofItem {}) }.opening (.item (Query.ofItem {}).root .root []))) := by
    split
    next => simp
    next hq => exact .ok (h.opening_root hq)
  unfold startItem
  dsimp only
  split
  next => exact hroot
  next => exact hroot
  next ref condition text nested outer hstack =>
    split
    next => simp
    refine safe_queryOf.bind fun q hq => ?_
    obtain ⟨htidy, hheld⟩ := h.of_query hq
    rw [hstack] at hheld
    obtain ⟨⟨inside, howner⟩, hnested⟩ := hheld.1
    generalize (if (owner? r.stack).any (·.2) = true then JoinKind.leftOuter else .inner) = kind
    obtain ⟨hgrown, hwidens, hleads⟩ := htidy.grown.joinProperty (hheld.2.contains_owner howner) ref.name kind
    have hkeyed := hleads.mem_keyed
    have htidy' := (htidy.of_widens hgrown hwidens).opening (q.joinProperty ref.table ref.name kind).1
    refine .ok (sound_some htidy' ⟨⟨hgrown.contains_of_mem_keyed hkeyed, nofun, ?_⟩, ?_⟩)
    · exact ⟨ref, condition, text, nested, outer, hstack, hkeyed⟩
    · rw [hstack]
      exact hheld.extends hwidens.toExtends
  next source outer hstack =>
    refine safe_queryOf.bind fun q hq => ?_
    obtain ⟨htidy, hheld⟩ := h.of_query hq
    have hlive : q.contains source = true := by
      rw [hstack] at hheld
      exact hheld.1
    obtain ⟨hlive', hhead, htidy', hext⟩ := htidy.addRelationship hlive ""
    exact .ok (sound_some htidy' ⟨⟨hlive', nofun, hhead⟩, hheld.extends hext⟩)
  next => simp
  next => simp

theorem Sound.opening (h : r.Sound) {frame : Frame} (hopen : ∀ stack, openTables (frame :: stack) = openTables stack)
    (hq : r.query = none → frame = .envelope) (hframe : ∀ q, r.query = some q → frame.Held q r.stack) :
    (r.opening frame).Sound := by
  obtain ⟨query, stack, pending, openAttribute⟩ := r
  cases query with
  | none => exact List.forall_mem_cons.mpr ⟨hq rfl, h⟩
  | some q =>
    obtain ⟨htidy, hheld⟩ := h
    refine sound_some ?_ ⟨hframe q rfl, hheld⟩
    rw [hopen]
    exact htidy

/-- Inside of an item or a combination there is a query, and an item to belong to. -/
theorem Sound.exists_owner (h : r.Sound) (hinside : (match r.stack with
      | .item _ _ _ :: _ => true
      | .combination _ _ :: _ => true
      | _ => false) = true) :
    ∃ q table inside, r.query = some q ∧ owner? r.stack = some (table, inside) := by
  obtain ⟨query, stack, pending, openAttribute⟩ := r
  dsimp only at hinside ⊢
  split at hinside
  next table role criteria outer =>
    cases query with
    | none => exact absurd (h _ List.mem_cons_self) nofun
    | some q => exact ⟨q, table, false, rfl, rfl⟩
  next kind criteria outer =>
    cases query with
    | none => exact absurd (h _ List.mem_cons_self) nofun
    | some q =>
      obtain ⟨table, inside, howner, -⟩ := h.2.1
      exact ⟨q, table, true, rfl, by rw [owner?, howner]; rfl⟩
  next => cases hinside

theorem Sound.safe_startElement (h : r.Sound) (name : String) : (r.startElement name).Safe Sound := by
  refine h.safe_applyAttributes.bind fun r h => ?_
  extract_lets misplaced inside
  have hcombination : ∀ kind, inside = true → (r.opening (.combination kind [])).Sound := by
    intro kind hinside
    obtain ⟨q, table, combined, hq, howner⟩ := h.exists_owner hinside
    refine h.opening (fun _ => rfl) (fun hnone => ?_) fun _ _ => ⟨table, combined, howner, nofun⟩
    exact absurd (hnone.symm.trans hq) nofun
  split
  next => exact Result.safe_pure.mpr (h.opening (fun _ => rfl) (fun _ => rfl) fun _ _ => trivial)
  split
  next => exact h.safe_startItem
  split
  next hcase => exact Result.safe_pure.mpr (hcombination .and hcase.2)
  split
  next hcase => exact Result.safe_pure.mpr (hcombination .or hcase.2)
  split
  next hcase => exact Result.safe_pure.mpr (hcombination .not hcase.2)
  split
  next =>
    split
    next table role criteria outer hstack =>
      refine Result.safe_pure.mpr (h.opening (fun _ => rfl) (fun hnone => ?_) fun q hq => ?_)
      · rw [Sound, hnone] at h
        cases h (.item table role criteria) (by rw [hstack]; exact List.mem_cons_self)
      · obtain ⟨-, hheld⟩ := h.of_query hq
        rw [hstack] at hheld
        exact hheld.1.1
    next => simp
  split
  next hinside =>
    obtain ⟨q, table, combined, hq, howner⟩ := h.exists_owner hinside
    rw [howner]
    refine Result.safe_pure.mpr (h.opening (fun _ => rfl) (fun hnone => ?_) fun _ _ => ⟨⟨combined, howner⟩, nofun⟩)
    exact absurd (hnone.symm.trans hq) nofun
  next => simp [misplaced]

/-! ### Ends of elements -/

theorem safe_endItem (hq : r.query = some q) (htidy : q.Tidy (table :: openTables r.stack)) {role : Role}
    {criteria : List Expr} (hframe : (Frame.item table role criteria).Held q r.stack) (houter : Held q r.stack) :
    (r.endItem table role criteria).Safe Sound := by
  obtain ⟨query, stack, pending, openAttribute⟩ := r
  obtain rfl : query = some q := hq
  obtain ⟨hlive, hcriteria, hplaced⟩ := hframe
  obtain ⟨item, hitem⟩ := Query.contains_iff.mp hlive
  have hall : ∀ e, Expr.allOf criteria = some e → e.Among (q.Behind table) := fun e he =>
    Expr.among_of_joinAll hcriteria he
  have hclosed : ¬(item.typeName.getD "").isEmpty = true → q.Tidy (openTables stack) := by
    intro htyped
    refine htidy.close fun _ => ?_
    cases htype : item.typeName with
    | none => simp [htype] at htyped
    | some name =>
      refine ⟨name, Option.bind_eq_some_iff.mpr ⟨item, hitem, htype⟩, fun hempty => ?_⟩
      simp [htype, hempty] at htyped
  simp only [endItem, queryOf, Query.item, hitem, bind, Except.bind]
  cases role with
  | foreignKey =>
    obtain ⟨ref, condition, value, nested, outer, houter', hkeyed⟩ := hplaced
    subst houter'
    -- The table stands behind the key, so it needs no type, and its criteria go to the table of the key.
    have htidy := htidy.close fun hheads => absurd hheads (htidy.grown.not_heads_of_mem_keyed hkeyed)
    refine .ok (sound_some htidy ⟨⟨houter.1.1, fun c hc => ?_⟩, houter.2⟩)
    exact (hall c (Option.some.inj hc)).mono fun t ht => .head hkeyed ht
  | root | relationship =>
    dsimp only
    split
    next => simp
    next htyped =>
      split
      next c hc =>
        obtain ⟨htidy', hext⟩ := (hclosed htyped).addFilter hplaced (hall c hc)
        exact .ok (sound_some htidy' (houter.extends hext))
      next => exact .ok (sound_some (hclosed htyped) houter)

theorem Sound.safe_endProperty (h : r.Sound) {ref : PropertyRef} {condition : Option String} {value : String}
    {nested : Option (Option Expr)} (hq : r.query = some q)
    (hframe : (Frame.property ref condition value nested).Held q r.stack) :
    (r.endProperty ref condition value nested).Safe Sound := by
  obtain ⟨⟨inside, howner⟩, hnested⟩ := hframe
  unfold endProperty
  split
  next criteria => exact h.safe_pushCriterion? hq howner fun e he => hnested e (congrArg some he)
  next =>
    refine safe_queryOf.bind fun q' _ => ?_
    have hself : q.Behind ref.table ref.table := .refl
    refine (safe_criterion q' hself (condition.getD "eq") value).bind fun c hc => ?_
    exact h.safe_pushCriterion hq howner hc

theorem Sound.safe_endElement (h : r.Sound) : r.endElement.Safe Sound := by
  refine h.safe_applyAttributes.bind fun r h => ?_
  obtain ⟨query, stack, pending, openAttribute⟩ := r
  dsimp only
  split
  next => simp
  next frame outer =>
    cases query with
    | none =>
      obtain ⟨rfl, houter⟩ := List.forall_mem_cons.mp h
      exact .ok houter
    | some q =>
      obtain ⟨htidy, hframe, houter⟩ := h
      have hclosed : openTables (frame :: outer) = openTables outer →
          Sound { query := some q, stack := outer, pending, openAttribute } :=
        fun hopen => sound_some (hopen ▸ htidy) houter
      cases frame with
      | envelope => exact .ok (hclosed rfl)
      | relationships table => exact .ok (hclosed rfl)
      | item table role criteria => exact safe_endItem rfl htidy hframe houter
      | combination kind criteria =>
        obtain ⟨table, inside, howner, hcriteria⟩ := hframe
        refine (hclosed rfl).safe_pushCriterion? rfl howner fun e he => ?_
        cases kind with
        | and => exact Expr.among_of_joinAll hcriteria he
        | or => exact Expr.among_of_joinAll hcriteria he
        | not =>
          obtain ⟨c, hc, rfl⟩ := Option.map_eq_some_iff.mp he
          exact Expr.among_not.mpr (Expr.among_of_joinAll hcriteria hc)
      | property ref condition value nested =>
        exact (hclosed rfl).safe_endProperty rfl hframe

/-! ### Runs -/

theorem Sound.safe_takeText (h : r.Sound) (value : String) : (r.takeText value).Safe Sound := by
  refine h.safe_applyAttributes.bind fun r h => ?_
  obtain ⟨query, stack, pending, openAttribute⟩ := r
  dsimp only
  split
  next ref condition sofar nested outer =>
    cases query with
    | none => cases h _ List.mem_cons_self
    | some q => exact .ok h
  next =>
    split
    next => exact .ok h
    next => simp

/-- One event keeps the invariant, or is refused for another reason than a dead handle. -/
theorem Sound.safe_push (h : r.Sound) (event : Xml.Event) : (r.push event).Safe Sound := by
  cases event with
  | startElement name => exact h.safe_startElement name.localName
  | endElement => exact h.safe_endElement
  | startAttribute name => exact .ok (h.of_eq rfl rfl)
  | endAttribute =>
    unfold push
    dsimp only
    split
    next => exact .ok (h.of_eq rfl rfl)
    next => simp
  | text value =>
    unfold push
    dsimp only
    split
    next => exact .ok (h.of_eq rfl rfl)
    next => exact h.safe_takeText value

theorem sound_foldlM (events : List Xml.Event) : (events.foldlM push {}).Safe Sound :=
  Result.Safe.foldlM nofun fun _ event h => h.safe_push event

theorem Sound.safe_finish (h : r.Sound) : r.finish.Safe Query.WellFormed := by
  obtain ⟨query, stack, pending, openAttribute⟩ := r
  unfold finish
  dsimp only
  split
  next hstack =>
    obtain rfl : stack = [] := List.isEmpty_iff.mp hstack
    cases query with
    | none => simp
    | some q => exact .ok h.1.wellFormed
  next => simp

end Reader

/-- The tables that an open construct refers to. -/
def Frame.tables : Frame → List TableId
  | .envelope => []
  | .item table _ _ => [table]
  | .combination _ _ => []
  | .property ref _ _ _ => [ref.table]
  | .relationships table => [table]

end ItemQuery.Aml
