import ItemQuery.Proofs.Aml.Accepted
import ItemQuery.Proofs.Query.Near

/-! Whatever events arrive, the select list and the sort keys of a table stay its own, so that all that stands with a
    table of an accepted query names near tables. -/

namespace ItemQuery.Aml

variable {q q' : Query} {table : TableId}

/-! ### Attributes of items -/

mutual

theorem listed_addSelectNode {q : Query} (h : q.Listed) (table : TableId) : ∀ node, (addSelectNode q table node).Listed
  | .node name children => by
    have hselected : (q.modify table fun item => { item with select := item.select ++
        [{ expr := if name = "*" then Expr.allProperties table false else .prop table name }] }).Listed := by
      refine h.modify table fun item _ hlists => ⟨fun s hs => ?_, hlists.orderBy⟩
      rcases List.mem_append.mp hs with hs | hs
      · exact hlists.select s hs
      · obtain rfl := List.mem_singleton.mp hs
        dsimp only
        split <;> simp [Expr.Names, Expr.tableRefs, Expr.prop]
    rw [addSelectNode]
    split
    · exact hselected
    · exact listed_addSelectNodes (hselected.joinProperty table name .leftOuter) _ children

theorem listed_addSelectNodes {q : Query} (h : q.Listed) (table : TableId) :
    ∀ nodes, (addSelectNodes q table nodes).Listed
  | [] => h
  | node :: nodes => listed_addSelectNodes (listed_addSelectNode h table node) table nodes

end

theorem listed_applySelect (h : q.Listed) {value : String} (hq : applySelect q table value = .ok q') : q'.Listed := by
  unfold applySelect at hq
  split at hq
  · cases hq
    exact h
  · obtain ⟨nodes, -, rfl⟩ := Result.map_eq_ok.mp hq
    exact listed_addSelectNodes h table nodes

theorem names_readOrderBy {value : String} {key : SortKey} (h : key ∈ readOrderBy table value) :
    key.expr.Names (· = table) := by
  obtain ⟨piece, -, hpiece⟩ := List.mem_filterMap.mp h
  split at hpiece
  · cases hpiece
  · cases hpiece
    simp [Expr.Names, Expr.tableRefs, Expr.prop]

theorem listed_applyItemAttributes (h : q.Listed) {pairs : List (String × String)} {found : Query × List Expr}
    (hfound : applyItemAttributes q table pairs = .ok found) : found.1.Listed := by
  unfold applyItemAttributes at hfound
  obtain ⟨old, hold, hfound⟩ := Result.bind_eq_ok.mp hfound
  obtain ⟨⟨item, later⟩, hread, hfound⟩ := Result.bind_eq_ok.mp hfound
  have htyped : (q.modify table fun _ => later.apply item).Listed := by
    refine h.modify table fun other hother hlists => ?_
    obtain rfl : old = other := by
      rw [Query.item_eq_ok, hother] at hold
      exact (Option.some.inj hold).symm
    have hretains := ((safe_itemAttributes old {} pairs).of_eq_ok hread).trans (later.retains_apply item)
    exact hlists.of_eq hretains.select hretains.orderBy
  dsimp -zeta only at hfound
  extract_lets typed rest at hfound
  -- A sort order, and the criteria of the attributes.
  have hrest : ∀ q', q'.Listed → rest q' = .ok found → found.1.Listed := by
    intro q' h' hrest
    dsimp -zeta only [rest] at hrest
    extract_lets sorted at hrest
    have hsorted : sorted.Listed := by
      simp only [sorted]
      split
      · exact h'.modify table fun item _ hlists => ⟨hlists.select, fun key hkey => names_readOrderBy hkey⟩
      · exact h'
    split at hrest
    · obtain ⟨c, -, hrest⟩ := Result.bind_eq_ok.mp hrest
      cases hrest
      exact hsorted
    · cases hrest
      exact hsorted
  split at hfound
  · obtain ⟨q', hq, hfound⟩ := Result.bind_eq_ok.mp hfound
    exact hrest q' (listed_applySelect htyped hq) hfound
  · exact hrest typed htyped hfound

/-! ### Readers -/

namespace Reader

variable {r r' : Reader}

/-- What the reader keeps. -/
def Listed (r : Reader) : Prop :=
  ∀ q, r.query = some q → q.Listed

theorem Listed.of_eq (h : r.Listed) (hquery : r'.query = r.query) : r'.Listed := fun q hq =>
  h q (hquery ▸ hq)

theorem listed_some (h : q.Listed) (hquery : r.query = some q) : r.Listed := fun _ hq =>
  Option.some.inj (hquery.symm.trans hq) ▸ h

theorem queryOf_eq_ok : r.queryOf = .ok q ↔ r.query = some q := by
  unfold queryOf
  cases r.query <;> simp

theorem Listed.applyAttributes (h : r.Listed) (hr : r.applyAttributes = .ok r') : r'.Listed := by
  unfold Reader.applyAttributes at hr
  split at hr
  · cases hr
    exact h
  split at hr
  · obtain ⟨q, hq, hr⟩ := Result.bind_eq_ok.mp hr
    obtain ⟨found, hfound, hr⟩ := Result.bind_eq_ok.mp hr
    cases hr
    exact listed_some (listed_applyItemAttributes (h q (queryOf_eq_ok.mp hq)) hfound) rfl
  · cases hr
    exact h.of_eq rfl
  · cases hr
    exact h.of_eq rfl

theorem Listed.pushCriterion (h : r.Listed) {c : Expr} (hr : r.pushCriterion c = .ok r') : r'.Listed := by
  unfold Reader.pushCriterion at hr
  split at hr <;> cases hr <;> exact h.of_eq rfl

theorem Listed.pushCriterion? (h : r.Listed) {c : Option Expr} (hr : r.pushCriterion? c = .ok r') : r'.Listed := by
  cases c with
  | none =>
    cases hr
    exact h
  | some c => exact h.pushCriterion hr

theorem Listed.startItem (h : r.Listed) (hr : r.startItem = .ok r') : r'.Listed := by
  have hroot : ∀ {err : QueryError}, (if r.query.isSome then Except.error err
      else .ok ({ r with query := some (.ofItem {}) }.opening (.item (Query.ofItem {}).root .root []))) = .ok r' →
      r'.Listed := by
    intro err hr
    split at hr
    · cases hr
    · cases hr
      exact listed_some (Query.listed_ofItem rfl rfl) rfl
  unfold Reader.startItem at hr
  dsimp only at hr
  split at hr
  · exact hroot hr
  · exact hroot hr
  · split at hr
    · cases hr
    · obtain ⟨q, hq, hr⟩ := Result.bind_eq_ok.mp hr
      cases hr
      exact listed_some ((h q (queryOf_eq_ok.mp hq)).joinProperty _ _ _) rfl
  · obtain ⟨q, hq, hr⟩ := Result.bind_eq_ok.mp hr
    cases hr
    exact listed_some ((h q (queryOf_eq_ok.mp hq)).addRelationship _ "") rfl
  · cases hr
  · cases hr

theorem Listed.endItem (h : r.Listed) {role : Role} {criteria : List Expr} (hr : r.endItem table role criteria = .ok r') :
    r'.Listed := by
  unfold Reader.endItem at hr
  obtain ⟨q, hq, hr⟩ := Result.bind_eq_ok.mp hr
  obtain ⟨item, -, hr⟩ := Result.bind_eq_ok.mp hr
  have hq := h q (queryOf_eq_ok.mp hq)
  dsimp only at hr
  split at hr
  · split at hr
    · cases hr
      exact h.of_eq rfl
    · cases hr
  · split at hr
    · cases hr
    · split at hr
      · cases hr
        exact listed_some (hq.addFilter table _) rfl
      · cases hr
        exact h

theorem Listed.endProperty (h : r.Listed) {ref : PropertyRef} {condition : Option String} {value : String}
    {nested : Option (Option Expr)} (hr : r.endProperty ref condition value nested = .ok r') : r'.Listed := by
  unfold Reader.endProperty at hr
  split at hr
  · exact h.pushCriterion? hr
  · obtain ⟨q, -, hr⟩ := Result.bind_eq_ok.mp hr
    obtain ⟨c, -, hr⟩ := Result.bind_eq_ok.mp hr
    exact h.pushCriterion hr

theorem Listed.startElement (h : r.Listed) {name : String} (hr : r.startElement name = .ok r') : r'.Listed := by
  unfold Reader.startElement at hr
  obtain ⟨s, hs, hr⟩ := Result.bind_eq_ok.mp hr
  have h := h.applyAttributes hs
  have hopen : ∀ {frame}, (pure (s.opening frame) : Result Reader) = .ok r' → r'.Listed := fun hr =>
    h.of_eq (Result.pure_eq_ok.mp hr ▸ rfl)
  extract_lets misplaced inside at hr
  split at hr
  · exact hopen hr
  split at hr
  · exact h.startItem hr
  split at hr
  · exact hopen hr
  split at hr
  · exact hopen hr
  split at hr
  · exact hopen hr
  split at hr
  · split at hr
    · exact hopen hr
    · cases hr
  split at hr
  · split at hr
    · exact hopen hr
    · cases hr
  · simp [misplaced] at hr

theorem Listed.endElement (h : r.Listed) (hr : r.endElement = .ok r') : r'.Listed := by
  unfold Reader.endElement at hr
  obtain ⟨s, hs, hr⟩ := Result.bind_eq_ok.mp hr
  have h := h.applyAttributes hs
  split at hr
  · cases hr
  next frame outer _ =>
    have houter : Listed { s with stack := outer } := h.of_eq rfl
    cases frame with
    | envelope | relationships _ =>
      cases hr
      exact houter
    | item table role criteria => exact houter.endItem hr
    | combination kind criteria => exact houter.pushCriterion? hr
    | property ref condition value nested => exact houter.endProperty hr

theorem Listed.takeText (h : r.Listed) {value : String} (hr : r.takeText value = .ok r') : r'.Listed := by
  unfold Reader.takeText at hr
  obtain ⟨s, hs, hr⟩ := Result.bind_eq_ok.mp hr
  have h := h.applyAttributes hs
  split at hr
  · cases hr
    exact h.of_eq rfl
  · split at hr <;> cases hr
    exact h

theorem Listed.push (h : r.Listed) {event : Xml.Event} (hr : r.push event = .ok r') : r'.Listed := by
  cases event with
  | startElement name => exact h.startElement hr
  | endElement => exact h.endElement hr
  | startAttribute name =>
    cases hr
    exact h.of_eq rfl
  | endAttribute =>
    unfold Reader.push at hr
    dsimp only at hr
    split at hr <;> cases hr
    exact h.of_eq rfl
  | text value =>
    unfold Reader.push at hr
    dsimp only at hr
    split at hr
    · cases hr
      exact h.of_eq rfl
    · exact h.takeText hr

theorem Listed.foldlM (h : r.Listed) {events : List Xml.Event} (hr : events.foldlM Reader.push r = .ok r') : r'.Listed := by
  induction events generalizing r with
  | nil =>
    cases hr
    exact h
  | cons event events ih =>
    rw [List.foldlM_cons] at hr
    obtain ⟨s, hs, hr⟩ := Result.bind_eq_ok.mp hr
    exact ih (h.push hs) hr

end Reader

/-! ### Queries -/

theorem local_of_ofEvents {events : List Xml.Event} (h : ofEvents events = .ok q) : q.Local := by
  obtain ⟨r, hr, hq⟩ := Result.bind_eq_ok.mp h
  have hsound := (Reader.sound_foldlM events).of_eq_ok hr
  have hlisted : r.Listed := Reader.Listed.foldlM (fun _ hq => by cases hq) hr
  unfold Reader.finish at hq
  split at hq
  next hstack =>
    split at hq
    next found hfound =>
      cases hq
      obtain ⟨htidy, -⟩ := hsound.of_query hfound
      rw [List.isEmpty_iff.mp hstack] at htidy
      refine (hlisted q hfound).isLocal htidy.grown.kept.rooted htidy.wellFormed.rootFree fun id item c hitem hc => ?_
      exact (htidy.wellFormed.filtered id item c hitem hc).2.names.mono fun _ => .inl
    next => cases hq
  next => cases hq

/-- Text is read event by event, and a fault comes last. -/
theorem exists_events_of_parse {source : String} (h : parse source = .ok q) : ∃ events, ofEvents events = .ok q := by
  obtain ⟨r, hr, hq⟩ := Result.bind_eq_ok.mp h
  obtain ⟨s, hs, hfault⟩ := Result.bind_eq_ok.mp hr
  refine ⟨(Xml.read source).events, Result.bind_eq_ok.mpr ⟨s, hs, ?_⟩⟩
  split at hfault
  · cases hfault
  · cases hfault
    exact hq

end ItemQuery.Aml
