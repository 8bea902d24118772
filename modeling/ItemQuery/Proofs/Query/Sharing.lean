import Mathlib.Data.Finset.Card
import Mathlib.Data.Set.Function
import Mathlib.Tactic.Choose
import ItemQuery.Proofs.Query.Requests

/-! Many requests. Whatever their order, the same requests from one table make the same tree of foreign keys, since what
    stands at the end of a path, and whether rows without a partner are kept there, can be told from the set of the
    requests alone. -/

namespace ItemQuery.Query

open Relation

/-- A request for a property, or for the end of a path. -/
inductive Request where
  | property (table : TableId) (name : String) (kind : JoinKind)
  | path (table : TableId) (path : String) (kind : JoinKind)
deriving DecidableEq, Repr

namespace Request

def table : Request → TableId
  | property t _ _ | path t _ _ => t

def kind : Request → JoinKind
  | property _ _ k | path _ _ k => k

/-- The foreign keys that the request goes through. -/
def keys : Request → List String
  | property _ name _ => [name]
  | path _ text _ => (Text.pieces (· == '/') text).dropLast

def call : Request → Call
  | property t name k => .joinProperty t name k
  | path t text k => .propertyPath t text k

/-- The table that the request gives, or that of the property that it gives. -/
def answer (q : Query) : Request → TableId
  | property t name k => (q.joinProperty t name k).1
  | path t text k => (q.propertyPath t text k).1.table

end Request

/-- The query after all requests. -/
def run (q : Query) (rs : List Request) : Query :=
  (rs.map Request.call).foldl after q

/-- Each request is about a table that is live by then. -/
def Addressed (q : Query) : List Request → Prop
  | [] => True
  | r :: rs => q.contains r.table = true ∧ (q.after r.call).Addressed rs

variable {q q' q'' q₁ q₂ : Query} {a b c t : TableId} {p : String} {ps path : List String} {kind : JoinKind} {j : Join}
  {s : Step} {ss ss' : List Step}

/-! ### Runs -/

/-- One request after the other. -/
inductive Asked : Query → List Step → Query → Prop
  | nil {q : Query} (h : q.Regular) : Asked q [] q
  | cons {q q' q'' : Query} {s : Step} {ss : List Step} (h : q.Asks s q') (hrest : Asked q' ss q'') : Asked q (s :: ss) q''

namespace Asked

theorem regular (h : q.Asked ss q') : q'.Regular := by
  induction h with
  | nil h => exact h
  | cons _ _ ih => exact ih

theorem append (h : q.Asked ss q') (h' : q'.Asked ss' q'') : q.Asked (ss ++ ss') q'' := by
  induction h with
  | nil => exact h'
  | cons h _ ih => exact .cons h (ih h')

theorem target?_mono (h : q.Asked ss q') (hb : q.target? a p = some b) : q'.target? a p = some b := by
  induction h with
  | nil => exact hb
  | cons h _ ih => exact ih (h.target?_mono hb)

/-- The table that a request gave stays behind the foreign key. -/
theorem target?_of_mem (h : q.Asked ss q') (hs : s ∈ ss) : q'.target? s.table s.property = some s.reached := by
  induction h with
  | nil => cases hs
  | cons h hrest ih =>
    rcases List.mem_cons.mp hs with rfl | hs
    · exact hrest.target?_mono h.target?_self
    · exact ih hs

theorem outer_iff (h : q.Asked ss q') :
    q'.Outer a p ↔ q.Outer a p ∨ ∃ s ∈ ss, s.place = (a, p) ∧ s.kind = .leftOuter := by
  induction h with
  | nil => simp
  | cons h _ ih => rw [ih, h.outer_iff, List.exists_mem_cons_iff, or_assoc]

theorem others_eq (h : q.Asked ss q') (a : TableId) : q'.others a = q.others a := by
  induction h with
  | nil => rfl
  | cons h _ ih => rw [ih, h.others_eq]

theorem contains_iff (h : q.Asked ss q') : q'.contains a = true ↔ q.contains a = true ∨ ∃ s ∈ ss, a = s.reached := by
  induction h with
  | nil => simp
  | cons h _ ih => rw [ih, h.live, List.exists_mem_cons_iff, or_assoc]

theorem key?_of_forall_ne (h : q.Asked ss q') (hne : ∀ s ∈ ss, s.place ≠ (a, p)) : q'.key? a p = q.key? a p := by
  induction h with
  | nil => rfl
  | cons h _ ih =>
    rw [List.forall_mem_cons] at hne
    rw [ih hne.2, h.key?_of_ne hne.1]

/-- A foreign key that leads to an old table is old. -/
theorem target?_of_contains (h : q.Asked ss q') (hb : q'.target? a p = some b) (hlive : q.contains b = true) :
    q.target? a p = some b := by
  induction h with
  | nil => exact hb
  | @cons q q₁ q' s ss h _ ih =>
    have hb := ih hb ((h.live b).mpr (.inl hlive))
    by_cases heq : s.place = (a, p)
    · cases heq
      have hreached : s.reached = b := Option.some.inj (h.target?_self.symm.trans hb)
      cases hkey : q.key? s.table s.property with
      | some j => rw [target?, hkey, Option.map_some, h.old j hkey, hreached]
      | none => exact absurd (hreached ▸ hlive) (h.new hkey)
    · rwa [target?, ← h.key?_of_ne heq]

/-- As many tables come as there are foreign keys asked for that were not there. -/
theorem tableCount_eq (h : q.Asked ss q') (hq : q.Regular) :
    q'.tableCount = q.tableCount + ((ss.map Step.place).toFinset.filter fun x => q.key? x.1 x.2 = none).card := by
  induction h with
  | nil => simp
  | @cons q q₁ q' s ss h _ ih =>
    have hfound : q₁.key? s.place.1 s.place.2 ≠ none := by
      obtain ⟨j, hj, -⟩ := h.exists_key?
      exact hj ▸ Option.some_ne_none j
    have hsame : ∀ x, x ≠ s.place → (q₁.key? x.1 x.2 = none ↔ q.key? x.1 x.2 = none) := fun x hx => by
      rw [h.key?_of_ne (a := x.1) (p := x.2) fun heq => hx heq.symm]
    rw [ih h.regular, h.tableCount_eq hq, List.map_cons, List.toFinset_cons, Nat.add_assoc]
    congr 1
    split
    next hnew =>
      have hset : (insert s.place (ss.map Step.place).toFinset).filter (fun x => q.key? x.1 x.2 = none) =
          insert s.place ((ss.map Step.place).toFinset.filter fun x => q₁.key? x.1 x.2 = none) := by
        ext x
        by_cases hx : x = s.place
        · simp only [hx, Finset.mem_filter, Finset.mem_insert, true_or, true_and, iff_true]
          exact hnew
        · simp [hx, hsame x hx]
      rw [hset, Finset.card_insert_of_notMem, Nat.add_comm]
      exact fun hmem => hfound (Finset.mem_filter.mp hmem).2
    next hold =>
      have hset : (insert s.place (ss.map Step.place).toFinset).filter (fun x => q.key? x.1 x.2 = none) =
          (ss.map Step.place).toFinset.filter fun x => q₁.key? x.1 x.2 = none := by
        ext x
        by_cases hx : x = s.place
        · subst hx
          constructor
          · intro hmem
            exact absurd (Finset.mem_filter.mp hmem).2 hold
          · intro hmem
            exact absurd (Finset.mem_filter.mp hmem).2 hfound
        · simp [hx, hsame x hx]
      rw [hset, Nat.zero_add]

end Asked

/-! ### Paths of foreign keys -/

/-- The table at the end of a path of foreign keys. -/
def reach? (q : Query) (a : TableId) : List String → Option TableId
  | [] => some a
  | p :: ps => (q.target? a p).bind fun b => q.reach? b ps

theorem reach?_append (q : Query) (a : TableId) (ps path : List String) :
    q.reach? a (ps ++ path) = (q.reach? a ps).bind fun b => q.reach? b path := by
  induction ps generalizing a with
  | nil => rfl
  | cons p ps ih => simp only [List.cons_append, reach?, ih, Option.bind_assoc]

theorem reach?_concat_eq_some :
    q.reach? a (ps ++ [p]) = some b ↔ ∃ c, q.reach? a ps = some c ∧ q.target? c p = some b := by
  rw [reach?_append, Option.bind_eq_some_iff]
  simp [reach?]

theorem exists_of_target? (h : q.target? a p = some b) :
    ∃ j ∈ q.joinsOf a, j.named p = true ∧ j.right = b := by
  obtain ⟨j, hj, rfl⟩ := Option.map_eq_some_iff.mp h
  exact ⟨j, List.mem_of_find?_eq_some hj, List.find?_some hj, rfl⟩

theorem contains_of_target? (h : q.target? a p = some b) : q.contains a = true := by
  obtain ⟨j, hj, -⟩ := exists_of_target? h
  exact contains_of_mem_joinsOf hj

theorem Regular.joined_of_target? (h : q.Regular) (hb : q.target? a p = some b) : q.Joined a b := by
  obtain ⟨j, hj, -, rfl⟩ := exists_of_target? hb
  exact ⟨j, mem_joins.mpr ⟨a, hj⟩, h.kept.rooted.left_eq hj, rfl⟩

theorem Regular.target?_inj (h : q.Regular) {p' : String} (ha : q.target? a p = some c) (hb : q.target? b p' = some c) :
    a = b ∧ p = p' := by
  obtain ⟨j, hj, hnamed, rfl⟩ := exists_of_target? ha
  obtain ⟨k, hk, hnamed', hright⟩ := exists_of_target? hb
  have hsame := List.inj_on_of_nodup_map h.kept.rooted.forest.single (mem_joins.mpr ⟨b, hk⟩) (mem_joins.mpr ⟨a, hj⟩) hright
  subst hsame
  refine ⟨?_, (Join.named_iff.mp hnamed).1.symm.trans (Join.named_iff.mp hnamed').1⟩
  rw [← h.kept.rooted.left_eq hj, h.kept.rooted.left_eq hk]

theorem Regular.reached_of_reach? (h : q.Regular) (hb : q.reach? a ps = some b) : ReflTransGen q.Joined a b := by
  induction ps generalizing a with
  | nil =>
    cases hb
    exact .refl
  | cons p ps ih =>
    obtain ⟨c, hc, hb⟩ := Option.bind_eq_some_iff.mp hb
    exact .head (h.joined_of_target? hc) (ih hb)

theorem Regular.reach?_concat_ne_self (h : q.Regular) : q.reach? a (ps ++ [p]) ≠ some a := by
  intro hback
  obtain ⟨c, hc, ha⟩ := reach?_concat_eq_some.mp hback
  exact h.kept.rooted.acyclic a (.tail' (h.reached_of_reach? hc) (h.joined_of_target? ha))

/-- One path only leads from a table to another. -/
theorem Regular.reach?_inj (h : q.Regular) (hb : q.reach? a ps = some b) (hb' : q.reach? a path = some b) : ps = path := by
  induction ps using List.reverseRecOn generalizing b path with
  | nil =>
    cases hb
    rcases List.eq_nil_or_concat path with rfl | ⟨path, p, rfl⟩
    · rfl
    · rw [List.concat_eq_append] at hb'
      exact absurd hb' h.reach?_concat_ne_self
  | append_singleton ps p ih =>
    rcases List.eq_nil_or_concat path with rfl | ⟨path, p', rfl⟩
    · cases hb'
      exact absurd hb h.reach?_concat_ne_self
    · rw [List.concat_eq_append] at hb' ⊢
      obtain ⟨c, hc, hb⟩ := reach?_concat_eq_some.mp hb
      obtain ⟨c', hc', hb'⟩ := reach?_concat_eq_some.mp hb'
      obtain ⟨rfl, rfl⟩ := h.target?_inj hb hb'
      rw [ih hc hc']

theorem Asked.reach?_mono (h : q.Asked ss q') (hb : q.reach? a ps = some b) : q'.reach? a ps = some b := by
  induction ps generalizing a with
  | nil => exact hb
  | cons p ps ih =>
    obtain ⟨c, hc, hb⟩ := Option.bind_eq_some_iff.mp hb
    exact Option.bind_eq_some_iff.mpr ⟨c, h.target?_mono hc, ih hb⟩

/-- A path to an old table is old. -/
theorem Asked.reach?_of_contains (h : q.Asked ss q') (hb : q'.reach? a ps = some b) (hlive : q.contains b = true) :
    q.reach? a ps = some b := by
  induction ps using List.reverseRecOn generalizing b with
  | nil => exact hb
  | append_singleton ps p ih =>
    obtain ⟨c, hc, hb⟩ := reach?_concat_eq_some.mp hb
    have hold := h.target?_of_contains hb hlive
    exact reach?_concat_eq_some.mpr ⟨c, ih hc (contains_of_target? hold), hold⟩

/-! ### Requests -/

/-- The foreign keys of a path are asked for one after the other. -/
def demand (q : Query) (a : TableId) (kind : JoinKind) : List String → TableId × Query
  | [] => (a, q)
  | p :: ps => (q.joinProperty a p kind).2.demand (q.joinProperty a p kind).1 kind ps

/-- The requests for single properties that this takes. -/
def steps (q : Query) (a : TableId) (kind : JoinKind) : List String → List Step
  | [] => []
  | p :: ps => ⟨a, p, kind, (q.joinProperty a p kind).1⟩ ::
    (q.joinProperty a p kind).2.steps (q.joinProperty a p kind).1 kind ps

/-- All requests for single properties. -/
def log (q : Query) : List Request → List Step
  | [] => []
  | r :: rs => q.steps r.table r.kind r.keys ++ (q.after r.call).log rs

theorem follow_eq_demand (q : Query) (a : TableId) (kind : JoinKind) (names : List String) :
    (q.follow a kind names).1.table = (q.demand a kind names.dropLast).1 ∧
      (q.follow a kind names).2 = (q.demand a kind names.dropLast).2 := by
  fun_induction Query.follow q a kind names with
  | case1 => exact ⟨rfl, rfl⟩
  | case2 => exact ⟨rfl, rfl⟩
  | case3 q a p path hne next q' hnext ih =>
    obtain ⟨p', path, rfl⟩ := List.exists_cons_of_ne_nil hne
    rw [List.dropLast_cons_cons, demand, hnext]
    exact ih

theorem Request.answer_eq (q : Query) (r : Request) : r.answer q = (q.demand r.table r.kind r.keys).1 := by
  cases r with
  | property => rfl
  | path table path kind => exact (q.follow_eq_demand table kind _).1

theorem after_call_eq (q : Query) (r : Request) : q.after r.call = (q.demand r.table r.kind r.keys).2 := by
  cases r with
  | property => rfl
  | path table path kind => exact (q.follow_eq_demand table kind _).2

theorem Regular.asked_steps (h : q.Regular) (ha : q.contains a = true) (kind : JoinKind) (ps : List String) :
    q.Asked (q.steps a kind ps) (q.demand a kind ps).2 := by
  induction ps generalizing q a with
  | nil => exact .nil h
  | cons p ps ih =>
    have hasks := h.asks ha p kind
    exact .cons hasks (ih hasks.regular ((hasks.live _).mpr (.inr rfl)))

theorem Regular.asked_log (h : q.Regular) {rs : List Request} (hrs : q.Addressed rs) : q.Asked (q.log rs) (q.run rs) := by
  induction rs generalizing q with
  | nil => exact .nil h
  | cons r rs ih =>
    have hasked := h.asked_steps hrs.1 r.kind r.keys
    rw [← after_call_eq] at hasked
    exact hasked.append (ih hasked.regular hrs.2)

theorem run_append (q : Query) (rs more : List Request) : q.run (rs ++ more) = (q.run rs).run more := by
  rw [run, List.map_append, List.foldl_append]
  rfl

theorem log_append (q : Query) (rs more : List Request) : q.log (rs ++ more) = q.log rs ++ (q.run rs).log more := by
  induction rs generalizing q with
  | nil => rfl
  | cons r rs ih =>
    rw [List.cons_append, log, ih, log, List.append_assoc]
    rfl

theorem addressed_append {rs more : List Request} :
    q.Addressed (rs ++ more) ↔ q.Addressed rs ∧ (q.run rs).Addressed more := by
  induction rs generalizing q with
  | nil => simp [Addressed, run]
  | cons r rs ih => rw [List.cons_append, Addressed, ih, Addressed, and_assoc]; rfl

/-- The foreign keys of a path lead to its end, once all of them are there. -/
theorem reach?_demand (h : ∀ s ∈ q.steps a kind ps, q'.target? s.table s.property = some s.reached) :
    q'.reach? a ps = some (q.demand a kind ps).1 := by
  induction ps generalizing q a with
  | nil => rfl
  | cons p ps ih =>
    rw [steps, List.forall_mem_cons] at h
    exact Option.bind_eq_some_iff.mpr ⟨_, h.1, ih h.2⟩

/-- Each request for a single property stands at the end of a part of the path. -/
theorem exists_prefix_of_mem_steps (h : ∀ s ∈ q.steps a kind ps, q'.target? s.table s.property = some s.reached)
    (hs : s ∈ q.steps a kind ps) :
    s.kind = kind ∧ ∃ path, path ++ [s.property] <+: ps ∧ q'.reach? a path = some s.table := by
  induction ps generalizing q a with
  | nil => cases hs
  | cons p ps ih =>
    rw [steps, List.forall_mem_cons] at h
    rcases List.mem_cons.mp hs with rfl | hs
    · exact ⟨rfl, [], List.cons_prefix_cons.mpr ⟨rfl, List.nil_prefix⟩, rfl⟩
    · obtain ⟨hkind, path, hpath, hreach⟩ := ih h.2 hs
      exact ⟨hkind, p :: path, List.cons_prefix_cons.mpr ⟨rfl, hpath⟩, Option.bind_eq_some_iff.mpr ⟨_, h.1, hreach⟩⟩

theorem exists_step_of_prefix (h : ∀ s ∈ q.steps a kind ps, q'.target? s.table s.property = some s.reached)
    (hpath : path ++ [p] <+: ps) :
    ∃ s ∈ q.steps a kind ps, s.property = p ∧ s.kind = kind ∧ q'.reach? a path = some s.table := by
  induction ps generalizing q a path with
  | nil => exact absurd (List.prefix_nil.mp hpath) (by simp)
  | cons p' ps ih =>
    rw [steps, List.forall_mem_cons] at h
    rw [steps]
    cases path with
    | nil =>
      obtain ⟨rfl, -⟩ := List.cons_prefix_cons.mp hpath
      exact ⟨_, List.mem_cons_self, rfl, rfl, rfl⟩
    | cons p'' path =>
      rw [List.cons_append, List.cons_prefix_cons] at hpath
      obtain ⟨rfl, hpath⟩ := hpath
      obtain ⟨s, hs, hproperty, hkind, hreach⟩ := ih h.2 hpath
      exact ⟨s, List.mem_cons_of_mem _ hs, hproperty, hkind, Option.bind_eq_some_iff.mpr ⟨_, h.1, hreach⟩⟩

end ItemQuery.Query
