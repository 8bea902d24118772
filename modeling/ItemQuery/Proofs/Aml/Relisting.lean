import Mathlib.Algebra.BigOperators.Group.List.Defs
import Mathlib.Algebra.Group.Action.Defs
import Mathlib.Data.List.Find
import Mathlib.Data.String.Basic
import ItemQuery.Aml.Writer
import ItemQuery.Proofs.Aml.Selected

/-! The select list that is written for a query. A table is written inside of every entry that names its foreign key, with
    all names of its list each time; so a list comes back as often as the foreign keys before it are listed. -/

namespace ItemQuery.Aml

open Query

/-! ### Written entries -/

/-- The entries that are written for the table at the end of a path, and inside of them those of at most `depth - 1`
    further tables. -/
def writtenNodes (F : List String → List String) : Nat → List String → List SelectNode
  | 0, _ => []
  | depth + 1, path => (F path).map fun name => .node name (writtenNodes F depth (path ++ [name]))

/-- The text of a list, unless it is empty. -/
def listText? (ns : List SelectNode) : Option String :=
  if ns.isEmpty then none else some (listText ns)

section
variable {base : QueryItem} {q : Query} {F : List String → List String} {path : List String} {t : TableId}
  {item : QueryItem}

theorem Described.reached_iff (h : Described base q F) :
    (∃ t, q.reach? q.root path = some t) ↔ path = [] ∨ F path ≠ [] :=
  h.selected.reached path

theorem Described.exists_item (h : Described base q F) (ht : q.reach? q.root path = some t) :
    ∃ item, q.get? t = some item ∧ item.select = selections t (F path) := by
  obtain ⟨item, hitem, hbare⟩ := Option.map_eq_some_iff.mp (h.selected.items path t ht)
  exact ⟨item, hitem, congrArg QueryItem.select hbare⟩

theorem Described.isForeignKey (h : Described base q F) {j : Join} (hj : j ∈ q.joinsOf t) : j.isForeignKey = true :=
  (h.selected.regular.shape t j.link (List.mem_map_of_mem hj)).mpr (h.selected.outer t j hj).1

theorem Described.foreignKeys_eq (h : Described base q F) (hitem : q.get? t = some item) :
    item.foreignKeys = item.joins ∧ item.relationships = [] := by
  have hjoins : q.joinsOf t = item.joins := by
    rw [joinsOf, hitem]
    rfl
  have hkeys : ∀ j ∈ item.joins, j.isForeignKey = true := fun j hj => h.isForeignKey (hjoins ▸ hj)
  refine ⟨List.filter_eq_self.mpr hkeys, List.filter_eq_nil_iff.mpr fun j hj => ?_⟩
  simp [hkeys j hj]

theorem Described.find?_foreignKeys (h : Described base q F) (hitem : q.get? t = some item) (name : String) :
    item.foreignKeys.find? (·.leftProperty == name) = q.key? t name := by
  have hjoins : q.joinsOf t = item.joins := by
    rw [joinsOf, hitem]
    rfl
  have hsame : ∀ j ∈ item.joins, (j.leftProperty == name) = j.named name := fun j hj => by
    rw [Join.named, (h.selected.outer t j (hjoins ▸ hj)).1, beq_self_eq_true, Bool.and_true]
  rw [(h.foreignKeys_eq hitem).1, key?, hjoins]
  exact List.find?_congr hsame

theorem getD_listText? (name : String) (children : List SelectNode) :
    ((listText? children).map fun sub => name ++ "(" ++ sub ++ ")").getD name = (SelectNode.node name children).text := by
  rw [listText?, text_node]
  split <;> rfl

theorem ne_nil_of_listText? {depth : Nat} {text : String} (h : listText? (writtenNodes F depth path) = some text) :
    F path ≠ [] := by
  intro hnil
  cases depth with
  | zero => cases h
  | succ depth =>
    rw [writtenNodes, hnil] at h
    cases h

/-- A list of names is a list of properties of its own table. -/
theorem filterMap_property?_selections (t : TableId) (names : List String) :
    ((selections t names).filterMap (·.expr.property?)).filter (·.table == t) = names.map fun name => ⟨t, name⟩ := by
  rw [selections, List.filterMap_map, List.filter_eq_self.mpr]
  · exact congrFun (List.filterMap_eq_map' (f := fun name : String => (⟨t, name⟩ : PropertyRef))) names
  · intro p hp
    obtain ⟨name, -, hname⟩ := List.mem_filterMap.mp hp
    cases hname
    exact beq_self_eq_true t

theorem any_selectsAll_selections (t : TableId) (names : List String) :
    (selections t names).any Writer.selectsAll = false := by
  rw [selections, List.any_map, List.any_eq_false]
  exact fun name _ => Bool.false_ne_true

/-- The select list of a table is that of its entries. -/
theorem Described.select?_eq (h : Described base q F) (ctx : Context) (depth : Nat)
    (ht : q.reach? q.root path = some t) :
    Writer.select? ⟨ctx, q⟩ depth t = listText? (writtenNodes F depth path) := by
  induction depth generalizing path t with
  | zero => rfl
  | succ depth ih =>
    obtain ⟨item, hitem, hselect⟩ := h.exists_item ht
    have hinner : ∀ name, (item.foreignKeys.find? (·.leftProperty == name)).bind
        (fun j => Writer.select? ⟨ctx, q⟩ depth j.right)
        = listText? (writtenNodes F depth (path ++ [name])) := by
      intro name
      rw [h.find?_foreignKeys hitem]
      cases hkey : q.key? t name with
      | some j =>
        refine ih (reach?_concat_eq_some.mpr ⟨t, ht, ?_⟩)
        rw [target?, hkey]
        rfl
      | none =>
        have hnone : F (path ++ [name]) = [] := by
          by_contra hne
          obtain ⟨u, hu⟩ := h.reached_iff.mpr (.inr hne)
          obtain ⟨v, hv, hu⟩ := reach?_concat_eq_some.mp hu
          obtain rfl := Option.some.inj (hv.symm.trans ht)
          rw [target?, hkey] at hu
          cases hu
        cases depth with
        | zero => rfl
        | succ depth => rw [writtenNodes, hnone]; rfl
    -- A foreign key with a list behind it is listed itself, so that no further entry is written for it.
    have hothers : (item.foreignKeys.filter fun j => !((F path).filter fun name =>
          (listText? (writtenNodes F depth (path ++ [name]))).isSome).contains j.leftProperty).filterMap (fun j =>
          (Writer.select? ⟨ctx, q⟩ depth j.right).map fun sub => j.leftProperty ++ "(" ++ sub ++ ")") = [] := by
      rw [List.filterMap_eq_nil_iff]
      intro j hj
      obtain ⟨hj, hunlisted⟩ := List.mem_filter.mp hj
      have hmem : j ∈ q.joinsOf t := by
        rw [joinsOf, hitem]
        exact List.mem_of_mem_filter hj
      have hfind : item.foreignKeys.find? (·.leftProperty == j.leftProperty) = some j := (h.find?_foreignKeys hitem _).trans
        (h.selected.regular.key?_eq_some.mpr ⟨hmem, Join.named_iff.mpr ⟨rfl, (h.selected.outer t j hmem).1⟩⟩)
      have hlist := hinner j.leftProperty
      rw [hfind, Option.bind_some] at hlist
      cases hwritten : listText? (writtenNodes F depth (path ++ [j.leftProperty])) with
      | none =>
        rw [hlist, hwritten]
        rfl
      | some text =>
        have hmem : j.leftProperty ∈ (F path).filter fun name =>
            (listText? (writtenNodes F depth (path ++ [name]))).isSome :=
          List.mem_filter.mpr ⟨h.nested path _ (ne_nil_of_listText? hwritten), by rw [hwritten]; rfl⟩
        rw [List.contains_iff_mem.mpr hmem] at hunlisted
        cases hunlisted
    rw [Writer.select?, hitem, Option.bind_some]
    simp only [hinner, hselect, filterMap_property?_selections, any_selectsAll_selections, Bool.false_or, List.map_map,
      List.filter_map, Function.comp_def, List.map_id', hothers,
      List.append_nil, getD_listText?]
    rw [listText?, writtenNodes, ← intercalate_text, List.map_map, List.isEmpty_map, List.isEmpty_map]
    rfl

end

/-! ### How often a list comes back -/

/-- How often the list at the end of a path comes back: the product of how often each foreign key on the way is listed in
    the table before it. -/
def times (F : List String → List String) : List String → List String → Nat
  | _, [] => 1
  | path, p :: rest => (F path).count p * times F (path ++ [p]) rest

theorem namesAt_flatMap {α : Type} (xs : List α) (f : α → List (List String × String)) (path : List String) :
    namesAt (xs.flatMap f) path = xs.flatMap fun x => namesAt (f x) path := by
  induction xs with
  | nil => rfl
  | cons x xs ih => rw [List.flatMap_cons, namesAt_append, ih, List.flatMap_cons]

theorem entriesOf_eq_flatMap (path : List String) (ns : List SelectNode) :
    entriesOf path ns = ns.flatMap (SelectNode.entries path) := by
  induction ns with
  | nil => rfl
  | cons n ns ih => rw [entriesOf, ih, List.flatMap_cons]

theorem namesAt_entriesOf_eq_nil {path other : List String} (h : ¬path <+: other) (ns : List SelectNode) :
    namesAt (entriesOf path ns) other = [] := by
  by_contra hne
  obtain ⟨name, hname⟩ := namesAt_ne_nil.mp hne
  exact h (isPrefix_of_mem_entriesOf ns hname)

theorem flatMap_ite {α : Type} (p : String) (names : List String) (ys : List α) :
    (names.flatMap fun name => if name = p then ys else []) = (List.replicate (names.count p) ys).flatten := by
  induction names with
  | nil => rfl
  | cons name names ih =>
    rw [List.flatMap_cons, ih, List.count_cons]
    by_cases h : name = p
    · rw [if_pos h, if_pos (beq_iff_eq.mpr h), List.replicate_succ, List.flatten_cons]
    · rw [if_neg h, if_neg (by simpa using h), List.nil_append, Nat.add_zero]

theorem flatten_replicate_flatten {α : Type} (m n : Nat) (ys : List α) :
    (List.replicate m (List.replicate n ys).flatten).flatten = (List.replicate (m * n) ys).flatten := by
  rw [← List.flatten_replicate_replicate, List.flatten_flatten, List.map_replicate]

/-- Each list is written as often as the foreign keys that lead to it are listed. -/
theorem namesAt_writtenNodes (F : List String → List String) {depth : Nat} {path rest : List String}
    (h : rest.length < depth) : namesAt (entriesOf path (writtenNodes F depth path)) (path ++ rest) =
      (List.replicate (times F path rest) (F (path ++ rest))).flatten := by
  induction depth generalizing path rest with
  | zero => cases h
  | succ depth ih =>
    rw [writtenNodes, entriesOf_eq_flatMap, List.flatMap_map, namesAt_flatMap]
    simp only [SelectNode.entries, namesAt_cons]
    cases rest with
    | nil =>
      have hinner : ∀ name, namesAt (entriesOf (path ++ [name]) (writtenNodes F depth (path ++ [name]))) path = [] := by
        intro name
        refine namesAt_entriesOf_eq_nil (fun hprefix => ?_) _
        have hlength := hprefix.length_le
        rw [List.length_append, List.length_singleton] at hlength
        omega
      rw [List.append_nil]
      simp only [hinner, List.append_nil, if_true, times, List.replicate_one, List.flatten_singleton,
        List.flatMap_singleton']
    | cons p rest =>
      have hinner : ∀ name, namesAt (entriesOf (path ++ [name]) (writtenNodes F depth (path ++ [name]))) (path ++ p :: rest)
          = if name = p then (List.replicate (times F (path ++ [p]) rest) (F (path ++ p :: rest))).flatten else [] := by
        intro name
        split
        next heq =>
          have hsplit : path ++ p :: rest = path ++ [p] ++ rest := by simp
          rw [heq, hsplit]
          exact ih (by simpa using h)
        next hne =>
          refine namesAt_entriesOf_eq_nil (fun hprefix => hne ?_) _
          rw [List.prefix_append_right_inj, List.cons_prefix_cons] at hprefix
          exact hprefix.1
      have hown : ¬path ++ p :: rest = path := by simp
      simp only [hinner, if_neg hown, List.nil_append, flatMap_ite, flatten_replicate_flatten, times]

theorem length_lt_of_mem_entriesOf {F : List String → List String} {depth : Nat} {path : List String}
    {e : List String × String} (he : e ∈ entriesOf path (writtenNodes F depth path)) :
    e.1.length < path.length + depth := by
  induction depth generalizing path with
  | zero => cases he
  | succ depth ih =>
    rw [writtenNodes, entriesOf_eq_flatMap, List.flatMap_map, List.mem_flatMap] at he
    obtain ⟨name, -, he⟩ := he
    rw [SelectNode.entries] at he
    rcases List.mem_cons.mp he with rfl | he
    · exact Nat.lt_add_of_pos_right (Nat.succ_pos depth)
    · have hinner := ih he
      rw [List.length_append, List.length_singleton] at hinner
      omega

theorem exists_isChain_of_reach? {q : Query} {path : List String} {t u : TableId} (h : q.Regular)
    (hu : q.reach? t path = some u) : ∃ way : List TableId, way.length = path.length ∧ (t :: way).IsChain q.Joined := by
  induction path generalizing t with
  | nil => exact ⟨[], rfl, .singleton t⟩
  | cons p path ih =>
    obtain ⟨c, hc, hu⟩ := Option.bind_eq_some_iff.mp hu
    obtain ⟨way, hlength, hway⟩ := ih hu
    exact ⟨c :: way, congrArg Nat.succ hlength, .cons_cons (h.joined_of_target? hc) hway⟩

section
variable {base : QueryItem} {q : Query} {F : List String → List String}

/-- A path to a table has no more steps than there are tables. -/
theorem Described.length_lt (h : Described base q F) {path : List String} (hne : F path ≠ []) :
    path.length < q.tableCount + 1 := by
  obtain ⟨t, ht⟩ := h.reached_iff.mpr (.inr hne)
  obtain ⟨way, hlength, hway⟩ := exists_isChain_of_reach? h.selected.regular ht
  exact Nat.lt_succ_of_le (hlength ▸ h.selected.regular.kept.rooted.forest.length_le_of_down hway)

/-- The names at the end of a path, in the entries that are written for the whole query. -/
theorem Described.namesAt_written (h : Described base q F) (path : List String) :
    namesAt (entriesOf [] (writtenNodes F (q.tableCount + 1) [])) path =
      (List.replicate (times F [] path) (F path)).flatten := by
  by_cases hlength : path.length < q.tableCount + 1
  · exact namesAt_writtenNodes F hlength
  · have hnil : F path = [] := by
      by_contra hne
      exact hlength (h.length_lt hne)
    rw [hnil, List.flatten_replicate_nil]
    by_contra hne
    obtain ⟨name, hname⟩ := namesAt_ne_nil.mp hne
    have hlt := length_lt_of_mem_entriesOf hname
    rw [List.length_nil, Nat.zero_add] at hlt
    exact hlength hlt

theorem namesIn_eq_flatMap (ns : List SelectNode) : namesIn ns = ns.flatMap SelectNode.names := by
  induction ns with
  | nil => rfl
  | cons n ns ih => rw [namesIn, ih, List.flatMap_cons]

/-- The names that are written are those of the query. -/
theorem exists_mem_of_mem_writtenNodes {depth : Nat} {path : List String} {name : String}
    (h : name ∈ namesIn (writtenNodes F depth path)) : ∃ other, name ∈ F other := by
  induction depth generalizing path with
  | zero => cases h
  | succ depth ih =>
    rw [writtenNodes, namesIn_eq_flatMap, List.flatMap_map, List.mem_flatMap] at h
    obtain ⟨first, hfirst, h⟩ := h
    rw [SelectNode.names] at h
    rcases List.mem_cons.mp h with rfl | h
    · exact ⟨path, hfirst⟩
    · exact ih h

theorem times_concat (F : List String → List String) (path rest : List String) (p : String) :
    times F path (rest ++ [p]) = times F path rest * (F (path ++ rest)).count p := by
  induction rest generalizing path with
  | nil => simp [times]
  | cons p' rest ih => rw [List.cons_append, times, times, ih, List.append_assoc, Nat.mul_assoc]; rfl

theorem flatten_replicate_eq_self {α : Type} {n : Nat} {ys : List α} (hne : ys ≠ []) :
    (List.replicate n ys).flatten = ys ↔ n = 1 := by
  constructor
  · intro h
    have hlength := congrArg List.length h
    rw [List.length_flatten, List.map_replicate, List.sum_replicate, smul_eq_mul] at hlength
    exact Nat.eq_of_mul_eq_mul_right (List.length_pos_iff.mpr hne) (hlength.trans (Nat.one_mul _).symm)
  · rintro rfl
    rw [List.replicate_one, List.flatten_singleton]

/-- All lists come back once if each foreign key is listed once. -/
theorem Described.forall_times_iff (h : Described base q F) :
    (∀ path, (List.replicate (times F [] path) (F path)).flatten = F path) ↔
      ∀ path p, F (path ++ [p]) ≠ [] → (F path).count p = 1 := by
  constructor
  · intro hall path p hne
    have hone := (flatten_replicate_eq_self hne).mp (hall (path ++ [p]))
    rw [times_concat] at hone
    exact Nat.eq_one_of_mul_eq_one_left hone
  · intro hcounts path
    by_cases hne : F path = []
    · rw [hne, List.flatten_replicate_nil]
    · rw [flatten_replicate_eq_self hne]
      induction path using List.reverseRecOn with
      | nil => rfl
      | append_singleton path p ih =>
        have hbefore : F path ≠ [] := List.ne_nil_of_mem (h.nested path p hne)
        rw [times_concat, ih hbefore, List.nil_append, hcounts path p hne]

end

end ItemQuery.Aml
