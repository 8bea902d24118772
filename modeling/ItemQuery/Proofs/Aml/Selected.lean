import ItemQuery.Proofs.Aml.Accepted
import ItemQuery.Proofs.Aml.SelectText
import ItemQuery.Proofs.Query.KeyTree
import ItemQuery.Proofs.Query.Sharing

/-! What a select list makes of a query. Each entry is added to the list of the table at the end of a path of foreign
    keys, and the entries inside of it to the list of the table one foreign key further. So a query is described by
    the paths that lead to its tables and by the names listed at the end of each path. -/

namespace ItemQuery

namespace Query

variable {q q' : Query} {a b : TableId} {p : String} {path : List String} {kind : JoinKind}

/-! ### Tables without their joins -/

/-- A table as it is apart from the joins that lead from it and to it. -/
def bare? (q : Query) (id : TableId) : Option QueryItem :=
  (q.get? id).map fun item => { item with joins := [], provider := none }

theorem bare?_modify {f g : QueryItem → QueryItem}
    (hf : ∀ item, { f item with joins := [], provider := none } = g { item with joins := [], provider := none })
    (a id : TableId) : (q.modify a f).bare? id = if id = a then (q.bare? id).map g else q.bare? id := by
  rw [bare?, get?_modify]
  split
  next heq =>
    rw [heq, bare?, Option.map_map, Option.map_map]
    exact congrArg (fun h => (q.get? a).map h) (funext hf)
  next => rfl

/-- A request changes no table apart from its joins, and makes an empty one at most. -/
theorem Regular.bare?_joinProperty (h : q.Regular) (ha : q.contains a = true) (p : String) (kind : JoinKind)
    (id : TableId) :
    (q.joinProperty a p kind).2.bare? id =
      if id = (q.joinProperty a p kind).1 ∧ ¬q.contains id = true then some {} else q.bare? id := by
  cases hkey : q.key? a p with
  | some j =>
    have hlive : q.contains j.right = true :=
      h.kept.rooted.live a _ (mem_ends_of_mem_joinsOf (h.key?_eq_some.mp hkey).1)
    have hold : ¬(id = j.right ∧ ¬q.contains id = true) := fun hboth => hboth.2 (hboth.1 ▸ hlive)
    rw [joinProperty_of_some hkey, if_neg hold]
    dsimp only
    split
    next =>
      rw [bare?_modify (f := fun item => { item with joins := loosen (Join.named p) item.joins }) (g := fun item => item)
        fun _ => rfl]
      simp
    next => rfl
  | none =>
    rw [joinProperty_of_none hkey]
    generalize hitem : ({ provider := some ⟨a, p⟩ } : QueryItem) = item
    dsimp only
    rw [bare?, h.kept.get?_attach item _ ha]
    by_cases hnew : id = (q.addTable item).1
    · rw [if_pos hnew, if_pos ⟨hnew, hnew ▸ h.kept.not_contains_new item⟩, ← hitem]
      rfl
    · have hold : ¬(id = (q.addTable item).1 ∧ ¬q.contains id = true) := fun hboth => hnew hboth.1
      rw [if_neg hnew, if_neg hold, bare?]
      split
      next =>
        rw [Option.map_map]
        rfl
      next => rfl

theorem root_joinProperty (q : Query) (a : TableId) (p : String) (kind : JoinKind) :
    (q.joinProperty a p kind).2.root = q.root := by
  cases hkey : q.key? a p with
  | some j =>
    rw [joinProperty_of_some hkey]
    dsimp only
    split <;> rfl
  | none =>
    rw [joinProperty_of_none hkey]
    rfl

theorem reach?_congr (h : ∀ id, q'.joinsOf id = q.joinsOf id) (a : TableId) (path : List String) :
    q'.reach? a path = q.reach? a path := by
  induction path generalizing a with
  | nil => rfl
  | cons p path ih => simp only [reach?, target?, key?, h, ih]

/-! ### One more foreign key -/

/-- What is reached after a request was reached before, or is the new table at the end of its path. -/
theorem Asks.reach?_cases {s : Step} {root : TableId} (h : q.Asks s q') (hroot : q.contains root = true)
    (hpath : q'.reach? root path = some s.reached) {other : List String} {u : TableId}
    (hu : q'.reach? root other = some u) :
    q.reach? root other = some u ∨ other = path ∧ u = s.reached ∧ ¬q.contains u = true := by
  have hasked : q.Asked [s] q' := .cons h (.nil h.regular)
  by_cases hold : q.contains u = true
  · exact .inl (hasked.reach?_of_contains hu hold)
  · have hlive : q'.contains u = true := by
      rcases (h.regular.reached_of_reach? hu).cases_tail with rfl | ⟨c, -, hc⟩
      · exact absurd hroot hold
      · exact (h.regular.kept.rooted.forest.contains_of_joined hc).2
    obtain rfl := ((h.live u).mp hlive).resolve_left hold
    exact .inr ⟨h.regular.reach?_inj hu hpath, rfl, hold⟩

/-- A request for an outer join leaves all joins outer. -/
theorem Asks.outer {s : Step} (h : q.Asks s q') (hkind : s.kind = .leftOuter)
    (houter : ∀ t, ∀ j ∈ q.joinsOf t, j.rightProperty = "id" ∧ j.kind = .leftOuter) :
    ∀ t, ∀ j ∈ q'.joinsOf t, j.rightProperty = "id" ∧ j.kind = .leftOuter := by
  intro t j hj
  rw [h.joins t] at hj
  split at hj
  next =>
    rcases List.mem_append.mp hj with hold | hnew
    · obtain ⟨k, hk, rfl⟩ := List.mem_map.mp hold
      rw [hkind]
      split
      next => exact ⟨(houter t k hk).1, rfl⟩
      next => exact houter t k hk
    · split at hnew
      next =>
        rw [List.mem_singleton.mp hnew]
        exact ⟨rfl, hkind⟩
      next => cases hnew
  next => exact houter t j hj

end Query

namespace Aml

open Query

/-! ### Entries with their paths -/

mutual

/-- The entries of all lists in order, each with the path of foreign keys to its table. -/
def SelectNode.entries (path : List String) : SelectNode → List (List String × String)
  | .node name children => (path, name) :: entriesOf (path ++ [name]) children

/-- The entries of all lists in order, each with the path of foreign keys to its table. -/
def entriesOf (path : List String) : List SelectNode → List (List String × String)
  | [] => []
  | n :: ns => n.entries path ++ entriesOf path ns

end

mutual

/-- The paths to the tables behind the foreign keys of an entry. -/
def SelectNode.keyed (path : List String) : SelectNode → List (List String)
  | .node name children => if children.isEmpty then [] else (path ++ [name]) :: keyedIn (path ++ [name]) children

/-- The paths to the tables behind the foreign keys of all entries. -/
def keyedIn (path : List String) : List SelectNode → List (List String)
  | [] => []
  | n :: ns => n.keyed path ++ keyedIn path ns

end

/-- The names listed at the end of a path. -/
def namesAt (entries : List (List String × String)) (path : List String) : List String :=
  (entries.filter (·.1 = path)).map (·.2)

theorem namesAt_nil (path : List String) : namesAt [] path = [] :=
  rfl

theorem namesAt_append (xs ys : List (List String × String)) (path : List String) :
    namesAt (xs ++ ys) path = namesAt xs path ++ namesAt ys path := by
  rw [namesAt, List.filter_append, List.map_append]
  rfl

theorem namesAt_cons (place : List String) (name : String) (xs : List (List String × String)) (path : List String) :
    namesAt ((place, name) :: xs) path = (if path = place then [name] else []) ++ namesAt xs path := by
  rw [namesAt, List.filter_cons]
  by_cases h : place = path
  · simp [h, namesAt]
  · simp [h, Ne.symm h, namesAt]

/-! ### Described queries -/

/-- The select list with these names. -/
def selections (t : TableId) (names : List String) : List Selection :=
  names.map fun name => { expr := .prop t name }

/-- Adds a name to the select list of a table. -/
def enlist (t : TableId) (name : String) (item : QueryItem) : QueryItem :=
  { item with select := item.select ++ [{ expr := .prop t name }] }

/-- The tables of the query stand at the ends of the paths that satisfy `R`, behind outer joins. The root is as `base`, and
    the others are empty, apart from their select lists, which hold the names that `F` gives. -/
structure Selected (base : QueryItem) (q : Query) (R : List String → Prop) (F : List String → List String) : Prop where
  regular : q.Regular
  outer : ∀ t, ∀ j ∈ q.joinsOf t, j.rightProperty = "id" ∧ j.kind = .leftOuter
  live : ∀ t, q.contains t = true ↔ ∃ path, q.reach? q.root path = some t
  reached : ∀ path, (∃ t, q.reach? q.root path = some t) ↔ R path
  listed : ∀ path, F path ≠ [] → R path
  items : ∀ path t, q.reach? q.root path = some t →
    q.bare? t = some { (if path = [] then base else {}) with select := selections t (F path) }

/-- The root stays, as does what the paths from it lead to. -/
structure Prolongs (q q' : Query) : Prop where
  root : q'.root = q.root
  reach? : ∀ path t, q.reach? q.root path = some t → q'.reach? q.root path = some t

theorem Prolongs.trans {q q' q'' : Query} (h : Prolongs q q') (h' : Prolongs q' q'') : Prolongs q q'' where
  root := h'.root.trans h.root
  reach? path t ht := by
    rw [← h.root]
    exact h'.reach? path t (h.root.symm ▸ h.reach? path t ht)

section
variable {base base' : QueryItem} {q : Query} {R R' : List String → Prop} {F F' : List String → List String} {t : TableId}
  {path : List String}

theorem Selected.congr (h : Selected base q R F) (hR : ∀ path, R path ↔ R' path) (hF : ∀ path, F path = F' path) :
    Selected base q R' F' := by
  obtain rfl : R = R' := funext fun path => propext (hR path)
  obtain rfl : F = F' := funext hF
  exact h

/-- A change of a table apart from its joins. -/
theorem Selected.modify (h : Selected base q R F) {f : QueryItem → QueryItem} (hjoins : ∀ item, (f item).joins = item.joins)
    (hf : ∀ item, { f item with joins := [], provider := none } = f { item with joins := [], provider := none })
    (hlisted : ∀ path, F' path ≠ [] → R path)
    (hitems : ∀ path u, q.reach? q.root path = some u →
      (if u = t then (q.bare? u).map f else q.bare? u) =
        some { (if path = [] then base' else {}) with select := selections u (F' path) }) :
    Selected base' (q.modify t f) R F' ∧ Prolongs q (q.modify t f) := by
  have hsame : ∀ id, (q.modify t f).joinsOf id = q.joinsOf id := fun id => by
    rw [joinsOf_modify (g := fun js => js) hjoins rfl]
    split <;> rfl
  have hreach : ∀ a path, (q.modify t f).reach? a path = q.reach? a path := reach?_congr hsame
  have hroot : (q.modify t f).root = q.root := rfl
  refine ⟨⟨h.regular.modify (fun item => by rw [hjoins]) t, fun id => ?_, fun id => ?_, fun other => ?_, hlisted,
    fun other u hu => ?_⟩, ⟨rfl, fun path u hu => (hreach _ _).trans hu⟩⟩
  · rw [hsame]
    exact h.outer id
  · rw [contains_modify, h.live]
    simp only [hroot, hreach]
  · simp only [hroot, hreach]
    exact h.reached other
  · rw [hroot, hreach] at hu
    rw [bare?_modify hf]
    exact hitems other u hu

/-- An entry joins the list of its table. -/
theorem Selected.enlist (h : Selected base q R F) (ht : q.reach? q.root path = some t) (name : String) :
    Selected base (q.modify t (enlist t name)) R (fun other => F other ++ if other = path then [name] else []) ∧
      Prolongs q (q.modify t (enlist t name)) := by
  refine h.modify (fun _ => rfl) (fun _ => rfl) (fun other hother => ?_) fun other u hu => ?_
  · by_cases heq : other = path
    · exact heq ▸ (h.reached path).mp ⟨t, ht⟩
    · rw [if_neg heq, List.append_nil] at hother
      exact h.listed other hother
  · rw [h.items other u hu]
    by_cases heq : other = path
    · have hsame : u = t := Option.some.inj (hu.symm.trans (heq ▸ ht))
      rw [if_pos hsame, if_pos heq, Option.map_some, hsame, selections, selections, List.map_append]
      rfl
    · have hne : u ≠ t := fun hsame => heq (h.regular.reach?_inj hu (hsame ▸ ht))
      rw [if_neg hne, if_neg heq, List.append_nil]

/-- The sort keys of the root. -/
theorem Selected.sort (h : Selected base q R F) (keys : List SortKey) :
    Selected { base with orderBy := keys } (q.modify q.root fun item => { item with orderBy := keys }) R F := by
  refine (h.modify (f := fun item => { item with orderBy := keys }) (fun _ => rfl) (fun _ => rfl) h.listed
    fun path u hu => ?_).1
  rw [h.items path u hu]
  by_cases hnil : path = []
  · subst hnil
    cases hu
    rw [if_pos rfl, if_pos rfl, if_pos rfl, Option.map_some]
  · have hne : u ≠ q.root := fun hsame => hnil (h.regular.reach?_inj hu (hsame ▸ rfl))
    rw [if_neg hne, if_neg hnil, if_neg hnil]

/-- A foreign key leads one step further, to a table without a select list if it is new. -/
theorem Selected.join (h : Selected base q R F) (ht : q.reach? q.root path = some t) (p : String) :
    Selected base (q.joinProperty t p .leftOuter).2 (fun other => R other ∨ other = path ++ [p]) F ∧
      Prolongs q (q.joinProperty t p .leftOuter).2 ∧
      (q.joinProperty t p .leftOuter).2.reach? q.root (path ++ [p]) = some (q.joinProperty t p .leftOuter).1 := by
  have hlive : q.contains t = true := (h.live t).mpr ⟨path, ht⟩
  have hasks := h.regular.asks hlive p .leftOuter
  have hroot := root_joinProperty q t p .leftOuter
  have hbare := h.regular.bare?_joinProperty hlive p .leftOuter
  generalize q.joinProperty t p .leftOuter = joined at hasks hroot hbare ⊢
  obtain ⟨next, q'⟩ := joined
  have hasked : q.Asked [⟨t, p, .leftOuter, next⟩] q' := .cons hasks (.nil hasks.regular)
  have hmono : ∀ other u, q.reach? q.root other = some u → q'.reach? q.root other = some u := fun _ _ hu =>
    hasked.reach?_mono hu
  have hnext : q'.reach? q.root (path ++ [p]) = some next :=
    reach?_concat_eq_some.mpr ⟨t, hmono path t ht, hasks.target?_self⟩
  have hcases : ∀ other u, q'.reach? q.root other = some u →
      q.reach? q.root other = some u ∨ other = path ++ [p] ∧ u = next ∧ ¬q.contains u = true :=
    fun other u => hasks.reach?_cases ((h.live _).mpr ⟨[], rfl⟩) hnext
  have hroot' : q'.root = q.root := hroot
  refine ⟨⟨hasks.regular, hasks.outer rfl h.outer, fun id => ?_, fun other => ?_,
    fun other hother => .inl (h.listed other hother),
    fun other u hu => ?_⟩, ⟨hroot, hmono⟩, hnext⟩
  · rw [hasks.live, h.live, hroot']
    constructor
    · rintro (⟨other, hold⟩ | rfl)
      · exact ⟨other, hmono other id hold⟩
      · exact ⟨path ++ [p], hnext⟩
    · rintro ⟨other, hu⟩
      exact (hcases other id hu).imp (fun hold => ⟨other, hold⟩) fun hnew => hnew.2.1
  · rw [hroot', ← h.reached]
    constructor
    · rintro ⟨u, hu⟩
      exact (hcases other u hu).imp (fun hold => ⟨u, hold⟩) fun hnew => hnew.1
    · rintro (⟨u, hold⟩ | rfl)
      · exact ⟨u, hmono other u hold⟩
      · exact ⟨next, hnext⟩
  · rw [hroot'] at hu
    rw [hbare]
    rcases hcases other u hu with hold | ⟨rfl, rfl, hnew⟩
    · rw [if_neg fun hboth => hboth.2 ((h.live u).mpr ⟨other, hold⟩)]
      exact h.items other u hold
    · have hunlisted : F (path ++ [p]) = [] := by
        by_contra hne
        obtain ⟨v, hv⟩ := (h.reached _).mpr (h.listed _ hne)
        obtain rfl := Option.some.inj ((hmono _ v hv).symm.trans hu)
        exact hnew ((h.live v).mpr ⟨_, hv⟩)
      rw [if_pos ⟨rfl, hnew⟩, hunlisted, if_neg (by simp)]
      rfl

end

mutual

/-- An entry with the entries inside joins the lists at the ends of their paths. -/
theorem Selected.addSelectNode : ∀ (n : SelectNode), "*" ∉ n.names → ∀ {base : QueryItem} {q : Query}
    {R : List String → Prop} {F : List String → List String} {path : List String} {t : TableId},
    Selected base q R F → q.reach? q.root path = some t →
      Selected base (addSelectNode q t n) (fun other => R other ∨ other ∈ n.keyed path)
          (fun other => F other ++ namesAt (n.entries path) other) ∧
        Prolongs q (addSelectNode q t n)
  | .node name children, hstar, base, q, R, F, path, t, h, ht => by
    rw [SelectNode.names, List.mem_cons, not_or] at hstar
    obtain ⟨hlisted, hprolongs⟩ := h.enlist ht name
    have hadded : ({ expr := if name = "*" then Expr.allProperties t false else .prop t name } : Selection)
        = { expr := .prop t name } := by
      rw [if_neg (Ne.symm hstar.1)]
    rw [Aml.addSelectNode]
    dsimp only
    rw [hadded]
    by_cases hempty : children.isEmpty = true
    · obtain rfl := List.isEmpty_iff.mp hempty
      rw [if_pos hempty]
      refine ⟨hlisted.congr (fun other => ?_) fun other => ?_, hprolongs⟩
      · simp [SelectNode.keyed]
      · rw [SelectNode.entries, entriesOf, namesAt_cons, namesAt_nil, List.append_nil]
    · rw [if_neg hempty]
      have ht' := hprolongs.reach? path t ht
      obtain ⟨hjoined, hprolongs', hnext⟩ := hlisted.join (hprolongs.root ▸ ht') name
      obtain ⟨hinner, hprolongs''⟩ := Selected.addSelectNodes children hstar.2 hjoined (hprolongs'.root ▸ hnext)
      refine ⟨hinner.congr (fun other => ?_) fun other => ?_, (hprolongs.trans hprolongs').trans hprolongs''⟩
      · rw [SelectNode.keyed, if_neg hempty, List.mem_cons, or_assoc]
      · rw [SelectNode.entries, namesAt_cons, List.append_assoc]

/-- Entries join the lists at the ends of their paths. -/
theorem Selected.addSelectNodes : ∀ (ns : List SelectNode), "*" ∉ namesIn ns → ∀ {base : QueryItem} {q : Query}
    {R : List String → Prop} {F : List String → List String} {path : List String} {t : TableId},
    Selected base q R F → q.reach? q.root path = some t →
      Selected base (addSelectNodes q t ns) (fun other => R other ∨ other ∈ keyedIn path ns)
          (fun other => F other ++ namesAt (entriesOf path ns) other) ∧
        Prolongs q (addSelectNodes q t ns)
  | [], _, base, q, R, F, path, t, h, ht => by
    refine ⟨h.congr (fun other => ?_) fun other => ?_, rfl, fun _ _ hu => hu⟩
    · simp [keyedIn]
    · simp [entriesOf, namesAt]
  | n :: ns, hstar, base, q, R, F, path, t, h, ht => by
    rw [namesIn, List.mem_append, not_or] at hstar
    obtain ⟨hfirst, hprolongs⟩ := Selected.addSelectNode n hstar.1 h ht
    obtain ⟨hrest, hprolongs'⟩ := Selected.addSelectNodes ns hstar.2 hfirst (hprolongs.root ▸ hprolongs.reach? path t ht)
    rw [Aml.addSelectNodes]
    refine ⟨hrest.congr (fun other => ?_) fun other => ?_, hprolongs.trans hprolongs'⟩
    · rw [keyedIn, List.mem_append, or_assoc]
    · rw [entriesOf, namesAt_append, List.append_assoc]

end

/-! ### Whole lists -/

mutual

theorem isPrefix_of_mem_entries : ∀ (n : SelectNode) {path : List String} {e : List String × String},
    e ∈ n.entries path → path <+: e.1
  | .node name children, path, e, he => by
    rw [SelectNode.entries, List.mem_cons] at he
    rcases he with rfl | he
    · exact List.prefix_rfl
    · exact (List.prefix_append path [name]).trans (isPrefix_of_mem_entriesOf children he)

/-- The entries of a table lead on from the path to it. -/
theorem isPrefix_of_mem_entriesOf : ∀ (ns : List SelectNode) {path : List String} {e : List String × String},
    e ∈ entriesOf path ns → path <+: e.1
  | [], path, e, he => by cases he
  | n :: ns, path, e, he => by
    rw [entriesOf, List.mem_append] at he
    exact he.elim (isPrefix_of_mem_entries n) (isPrefix_of_mem_entriesOf ns)

end

theorem mem_namesAt {xs : List (List String × String)} {path : List String} {name : String} :
    name ∈ namesAt xs path ↔ (path, name) ∈ xs := by
  simp [namesAt]

theorem namesAt_ne_nil {xs : List (List String × String)} {path : List String} :
    namesAt xs path ≠ [] ↔ ∃ name, (path, name) ∈ xs := by
  constructor
  · intro hne
    obtain ⟨name, hname⟩ := List.exists_mem_of_ne_nil _ hne
    exact ⟨name, mem_namesAt.mp hname⟩
  · rintro ⟨name, hname⟩
    exact List.ne_nil_of_mem (mem_namesAt.mpr hname)

theorem exists_mem_entriesOf {ns : List SelectNode} (hne : ns ≠ []) (path : List String) :
    ∃ name, (path, name) ∈ entriesOf path ns := by
  obtain ⟨⟨name, children⟩, ns, rfl⟩ := List.exists_cons_of_ne_nil hne
  exact ⟨name, List.mem_append_left _ List.mem_cons_self⟩

theorem ne_of_mem_entriesOf_concat {ns : List SelectNode} {path : List String} {name : String} {e : List String × String}
    (h : e ∈ entriesOf (path ++ [name]) ns) : e.1 ≠ path := by
  intro heq
  have hlength := (isPrefix_of_mem_entriesOf ns h).length_le
  rw [heq, List.length_append, List.length_singleton] at hlength
  omega

mutual

theorem mem_keyed : ∀ (n : SelectNode) {path other : List String},
    other ∈ n.keyed path ↔ other ≠ path ∧ ∃ name, (other, name) ∈ n.entries path
  | .node name children, path, other => by
    rw [SelectNode.keyed, SelectNode.entries]
    constructor
    · intro h
      split at h
      next => cases h
      next hempty =>
        have hinner : ∃ inner, (other, inner) ∈ entriesOf (path ++ [name]) children := by
          rcases List.mem_cons.mp h with rfl | h
          · exact exists_mem_entriesOf (List.isEmpty_iff.not.mp hempty) _
          · exact ((mem_keyedIn children).mp h).2
        obtain ⟨inner, hinner⟩ := hinner
        exact ⟨ne_of_mem_entriesOf_concat hinner, inner, List.mem_cons_of_mem _ hinner⟩
    · rintro ⟨hne, inner, h⟩
      rcases List.mem_cons.mp h with heq | h
      · exact absurd (congrArg Prod.fst heq) hne
      · have hempty : ¬children.isEmpty = true := by
          intro hempty
          rw [List.isEmpty_iff.mp hempty] at h
          cases h
        rw [if_neg hempty, List.mem_cons, mem_keyedIn children]
        by_cases heq : other = path ++ [name]
        · exact .inl heq
        · exact .inr ⟨heq, inner, h⟩

/-- The tables behind foreign keys are those with entries of their own. -/
theorem mem_keyedIn : ∀ (ns : List SelectNode) {path other : List String},
    other ∈ keyedIn path ns ↔ other ≠ path ∧ ∃ name, (other, name) ∈ entriesOf path ns
  | [], path, other => by simp [keyedIn, entriesOf]
  | n :: ns, path, other => by
    rw [keyedIn, entriesOf, List.mem_append, mem_keyed n, mem_keyedIn ns]
    simp only [List.mem_append, exists_or, and_or_left]

end

mutual

theorem mem_entries_of_concat : ∀ (n : SelectNode) {path other : List String} {p name : String},
    (other ++ [p], name) ∈ n.entries path → other ++ [p] ≠ path → (other, p) ∈ n.entries path
  | .node first children, path, other, p, name, h, hne => by
    rw [SelectNode.entries] at h ⊢
    rcases List.mem_cons.mp h with heq | h
    · exact absurd (congrArg Prod.fst heq) hne
    · by_cases heq : other ++ [p] = path ++ [first]
      · obtain ⟨rfl, hlast⟩ := List.append_inj' heq rfl
        cases hlast
        exact List.mem_cons_self
      · exact List.mem_cons_of_mem _ (mem_entriesOf_of_concat children h heq)

/-- A table behind a foreign key is listed in the table before it. -/
theorem mem_entriesOf_of_concat : ∀ (ns : List SelectNode) {path other : List String} {p name : String},
    (other ++ [p], name) ∈ entriesOf path ns → other ++ [p] ≠ path → (other, p) ∈ entriesOf path ns
  | [], path, other, p, name, h, hne => by cases h
  | n :: ns, path, other, p, name, h, hne => by
    rw [entriesOf, List.mem_append] at h ⊢
    exact h.imp (fun h => mem_entries_of_concat n h hne) fun h => mem_entriesOf_of_concat ns h hne

end

mutual

theorem mem_names_of_mem_entries : ∀ (n : SelectNode) {path : List String} {e : List String × String},
    e ∈ n.entries path → e.2 ∈ n.names
  | .node name children, path, e, he => by
    rw [SelectNode.entries] at he
    rcases List.mem_cons.mp he with rfl | he
    · exact List.mem_cons_self
    · exact List.mem_cons_of_mem _ (mem_namesIn_of_mem_entriesOf children he)

theorem mem_namesIn_of_mem_entriesOf : ∀ (ns : List SelectNode) {path : List String} {e : List String × String},
    e ∈ entriesOf path ns → e.2 ∈ namesIn ns
  | [], path, e, he => by cases he
  | n :: ns, path, e, he => by
    rw [entriesOf, List.mem_append] at he
    rw [namesIn, List.mem_append]
    exact he.imp (mem_names_of_mem_entries n) (mem_namesIn_of_mem_entriesOf ns)

end

/-- The root is as `base`, the tables behind foreign keys are those with a select list, and each foreign key is listed in
    the table before it. -/
structure Described (base : QueryItem) (q : Query) (F : List String → List String) : Prop where
  selected : Selected base q (fun path => path = [] ∨ F path ≠ []) F
  nested : ∀ path p, F (path ++ [p]) ≠ [] → p ∈ F path

section
variable {item : QueryItem}

theorem joinsOf_ofItem (hjoins : item.joins = []) (id : TableId) : (Query.ofItem item).joinsOf id = [] := by
  rw [joinsOf, get?_ofItem]
  split
  next => exact hjoins
  next => rfl

/-- A query of one table has no path but the empty one. -/
theorem selected_ofItem (hjoins : item.joins = []) (hselect : item.select = []) :
    Selected { item with provider := none } (.ofItem item) (· = []) fun _ => [] := by
  have hreach : ∀ {path t}, (Query.ofItem item).reach? (Query.ofItem item).root path = some t → path = [] := by
    intro path t ht
    cases path with
    | nil => rfl
    | cons p path =>
      rw [reach?, target?, key?, joinsOf_ofItem hjoins] at ht
      cases ht
  have hsingle := single_ofItem hjoins
  refine ⟨(grown_ofItem hjoins).regular, fun t j hj => ?_, fun t => ⟨fun ht => ?_, ?_⟩, fun path => ⟨?_, ?_⟩,
    fun path hne => absurd rfl hne, fun path t ht => ?_⟩
  · rw [joinsOf_ofItem hjoins] at hj
    cases hj
  · exact ⟨[], congrArg some (hsingle.alone t ht).symm⟩
  · rintro ⟨path, ht⟩
    rw [hreach ht] at ht
    cases ht
    exact contains_iff.mpr ⟨item, hsingle.found⟩
  · rintro ⟨t, ht⟩
    exact hreach ht
  · rintro rfl
    exact ⟨_, rfl⟩
  · obtain rfl := hreach ht
    cases ht
    rw [bare?, hsingle.found, Option.map_some, if_pos rfl]
    simp only [selections, List.map_nil, hselect, hjoins]

/-- The entries of a list describe the query that it makes. -/
theorem described_addSelectNodes (hjoins : item.joins = []) (hselect : item.select = []) {ns : List SelectNode}
    (hstar : "*" ∉ namesIn ns) :
    Described { item with provider := none } (addSelectNodes (.ofItem item) (Query.ofItem item).root ns)
        (namesAt (entriesOf [] ns)) ∧
      (addSelectNodes (.ofItem item) (Query.ofItem item).root ns).root = (Query.ofItem item).root := by
  have hstart : (Query.ofItem item).reach? (Query.ofItem item).root [] = some (Query.ofItem item).root := rfl
  obtain ⟨hadded, hprolongs⟩ := Selected.addSelectNodes ns hstar (selected_ofItem hjoins hselect) hstart
  refine ⟨⟨hadded.congr (fun path => ?_) fun path => List.nil_append _, fun path p hne => ?_⟩, hprolongs.root⟩
  · rw [mem_keyedIn, namesAt_ne_nil]
    by_cases hnil : path = [] <;> simp [hnil]
  · obtain ⟨name, hname⟩ := namesAt_ne_nil.mp hne
    exact mem_namesAt.mpr (mem_entriesOf_of_concat ns hname (by simp))

end

end Aml
end ItemQuery
