import Mathlib.Data.Set.Function
import Mathlib.Tactic.Choose
import ItemQuery.Proofs.Query.Sharing

/-! The order of requests does not matter. Which foreign keys stand behind a path from a table, and which of them keep rows
    without a partner, is told by the set of the requests, so that the tables which the same path leads to correspond. -/

namespace ItemQuery

/-- The join between other handles. -/
def Join.moved (f : TableId → TableId) (j : Join) : Join :=
  { j with left := f j.left, right := f j.right }

namespace Query

open Relation

variable {q q' q₁ q₂ : Query} {a b b' t : TableId} {p : String} {path : List String} {j : Join} {s : Step} {r : Request}
  {rs rs₁ rs₂ : List Request}

/-! ### Requests from one table -/

theorem Rooted.nodup_joinsOf (h : q.Rooted) (a : TableId) : (q.joinsOf a).Nodup := by
  have hrights : ((q.joinsOf a).map (·.right)).Nodup := rights_eq ▸ h.nodup a
  exact hrights.of_map

theorem Rooted.eq_of_right {k : Join} (h : q.Rooted) (hj : j ∈ q.joinsOf a) (hk : k ∈ q.joinsOf a)
    (hright : j.right = k.right) : j = k := by
  have hrights : ((q.joinsOf a).map (·.right)).Nodup := rights_eq ▸ h.nodup a
  exact List.inj_on_of_nodup_map hrights hj hk hright

theorem exists_request_of_mem_log (htable : ∀ r ∈ rs, r.table = t)
    (h : ∀ s ∈ q.log rs, q'.target? s.table s.property = some s.reached) (hs : s ∈ q.log rs) :
    ∃ r ∈ rs, s.kind = r.kind ∧ ∃ path, path ++ [s.property] <+: r.keys ∧ q'.reach? t path = some s.table := by
  induction rs generalizing q with
  | nil => cases hs
  | cons r rs ih =>
    rw [log, List.forall_mem_append] at h
    rw [List.forall_mem_cons] at htable
    rcases List.mem_append.mp hs with hs | hs
    · obtain ⟨hkind, hpath⟩ := exists_prefix_of_mem_steps h.1 hs
      rw [htable.1] at hpath
      exact ⟨r, List.mem_cons_self, hkind, hpath⟩
    · obtain ⟨r', hr', hstep⟩ := ih htable.2 h.2 hs
      exact ⟨r', List.mem_cons_of_mem _ hr', hstep⟩

theorem exists_mem_log_of_prefix (htable : ∀ r ∈ rs, r.table = t)
    (h : ∀ s ∈ q.log rs, q'.target? s.table s.property = some s.reached) (hr : r ∈ rs) (hpath : path ++ [p] <+: r.keys) :
    ∃ s ∈ q.log rs, s.property = p ∧ s.kind = r.kind ∧ q'.reach? t path = some s.table := by
  induction rs generalizing q with
  | nil => cases hr
  | cons r' rs ih =>
    rw [log, List.forall_mem_append] at h
    rw [List.forall_mem_cons] at htable
    rw [log]
    rcases List.mem_cons.mp hr with rfl | hr
    · obtain ⟨s, hs, hstep⟩ := exists_step_of_prefix h.1 hpath
      rw [htable.1] at hstep
      exact ⟨s, List.mem_append_left _ hs, hstep⟩
    · obtain ⟨s, hs, hstep⟩ := ih htable.2 h.2 hr
      exact ⟨s, List.mem_append_right _ hs, hstep⟩

theorem Regular.addressed (h : q.Regular) (hlive : q.contains t = true) (htable : ∀ r ∈ rs, r.table = t) :
    q.Addressed rs := by
  induction rs generalizing q with
  | nil => trivial
  | cons r rs ih =>
    rw [List.forall_mem_cons] at htable
    have hr : q.contains r.table = true := htable.1 ▸ hlive
    have hasked := h.asked_steps hr r.kind r.keys
    rw [← after_call_eq] at hasked
    exact ⟨hr, ih hasked.regular (hasked.contains_iff.mpr (.inl hlive)) htable.2⟩

/-- The query after requests that are all about one table. -/
structure Requested (q : Query) (t : TableId) (rs : List Request) (q' : Query) : Prop where
  start : q.Regular
  live : q.contains t = true
  tables : ∀ r ∈ rs, r.table = t
  asked : q.Asked (q.log rs) q'

namespace Requested

variable (h : q.Requested t rs q')
include h

theorem exists_prefix (hs : s ∈ q.log rs) :
    ∃ r ∈ rs, s.kind = r.kind ∧ ∃ path, path ++ [s.property] <+: r.keys ∧ q'.reach? t path = some s.table :=
  exists_request_of_mem_log h.tables (fun _ => h.asked.target?_of_mem) hs

theorem exists_step (ha : q'.reach? t path = some a) (hr : r ∈ rs) (hpath : path ++ [p] <+: r.keys) :
    ∃ s ∈ q.log rs, s.place = (a, p) ∧ s.kind = r.kind := by
  obtain ⟨s, hs, rfl, hkind, hreach⟩ := exists_mem_log_of_prefix h.tables (fun _ => h.asked.target?_of_mem) hr hpath
  exact ⟨s, hs, Prod.ext (Option.some.inj (hreach.symm.trans ha)) rfl, hkind⟩

/-- At the end of a path all requests are about this path. -/
theorem exists_request (ha : q'.reach? t path = some a) (hs : s ∈ q.log rs) (hplace : s.place = (a, p)) :
    ∃ r ∈ rs, path ++ [p] <+: r.keys ∧ s.kind = r.kind := by
  obtain ⟨r, hr, hkind, path', hpath, hreach⟩ := h.exists_prefix hs
  cases hplace
  rw [h.asked.regular.reach?_inj ha hreach]
  exact ⟨r, hr, hpath, hkind⟩

theorem contains_of_reach? (ha : q'.reach? t path = some a) : q'.contains a = true := by
  rcases (h.asked.regular.reached_of_reach? ha).cases_tail with rfl | ⟨c, -, hc⟩
  · exact h.asked.contains_iff.mpr (.inl h.live)
  · exact (h.asked.regular.kept.rooted.forest.contains_of_joined hc).2

/-- The foreign keys at the end of a path. -/
theorem target?_iff (ha : q'.reach? t path = some a) : (∃ b, q'.target? a p = some b) ↔
    (∃ c b, q.reach? t path = some c ∧ q.target? c p = some b) ∨ ∃ r ∈ rs, path ++ [p] <+: r.keys := by
  constructor
  · rintro ⟨b, hb⟩
    by_cases hplace : ∃ s ∈ q.log rs, s.place = (a, p)
    · obtain ⟨s, hs, hplace⟩ := hplace
      obtain ⟨r, hr, hpath, -⟩ := h.exists_request ha hs hplace
      exact .inr ⟨r, hr, hpath⟩
    · have hsame := h.asked.key?_of_forall_ne fun s hs heq => hplace ⟨s, hs, heq⟩
      rw [target?, hsame] at hb
      exact .inl ⟨a, b, h.asked.reach?_of_contains ha (contains_of_target? hb), hb⟩
  · rintro (⟨c, b, hc, hb⟩ | ⟨r, hr, hpath⟩)
    · obtain rfl := Option.some.inj ((h.asked.reach?_mono hc).symm.trans ha)
      exact ⟨b, h.asked.target?_mono hb⟩
    · obtain ⟨s, hs, hplace, -⟩ := h.exists_step ha hr hpath
      cases hplace
      exact ⟨s.reached, h.asked.target?_of_mem hs⟩

/-- The foreign keys at the end of a path that keep rows without a partner. -/
theorem outer_iff (ha : q'.reach? t path = some a) : q'.Outer a p ↔
    (∃ c, q.reach? t path = some c ∧ q.Outer c p) ∨ ∃ r ∈ rs, path ++ [p] <+: r.keys ∧ r.kind = .leftOuter := by
  rw [h.asked.outer_iff]
  constructor
  · rintro (hold | ⟨s, hs, hplace, hkind⟩)
    · have hlive : q.contains a = true := by
        obtain ⟨j, hj, -⟩ := hold
        exact contains_of_mem_joinsOf (List.mem_of_find?_eq_some hj)
      exact .inl ⟨a, h.asked.reach?_of_contains ha hlive, hold⟩
    · obtain ⟨r, hr, hpath, hsame⟩ := h.exists_request ha hs hplace
      exact .inr ⟨r, hr, hpath, hsame.symm.trans hkind⟩
  · rintro (⟨c, hc, hold⟩ | ⟨r, hr, hpath, hkind⟩)
    · obtain rfl := Option.some.inj ((h.asked.reach?_mono hc).symm.trans ha)
      exact .inl hold
    · obtain ⟨s, hs, hplace, hsame⟩ := h.exists_step ha hr hpath
      exact .inr ⟨s, hs, hplace, hsame.trans hkind⟩

/-- Where no path leads, nothing is asked. -/
theorem key?_of_forall_ne (ha : ∀ path, q'.reach? t path ≠ some a) : q'.key? a p = q.key? a p := by
  refine h.asked.key?_of_forall_ne fun s hs hplace => ?_
  obtain ⟨-, -, -, path, -, hreach⟩ := h.exists_prefix hs
  cases hplace
  exact ha path hreach

theorem contains_iff : q'.contains a = true ↔ q.contains a = true ∨ ∃ path, q'.reach? t path = some a := by
  constructor
  · intro ha
    rcases h.asked.contains_iff.mp ha with ha | ⟨s, hs, rfl⟩
    · exact .inl ha
    · obtain ⟨-, -, -, path, -, hreach⟩ := h.exists_prefix hs
      exact .inr ⟨path ++ [s.property], reach?_concat_eq_some.mpr ⟨_, hreach, h.asked.target?_of_mem hs⟩⟩
  · rintro (ha | ⟨path, ha⟩)
    · exact h.asked.contains_iff.mpr (.inl ha)
    · exact h.contains_of_reach? ha

end Requested

/-! ### Tables that correspond -/

/-- An old table, or the tables that a path leads to. -/
def Twins (q : Query) (t : TableId) (q₁ q₂ : Query) (a b : TableId) : Prop :=
  (q.contains a = true ∧ a = b) ∨ ∃ path, q₁.reach? t path = some a ∧ q₂.reach? t path = some b

theorem Twins.symm (h : q.Twins t q₁ q₂ a b) : q.Twins t q₂ q₁ b a := by
  rcases h with ⟨hold, rfl⟩ | ⟨path, ha, hb⟩
  · exact .inl ⟨hold, rfl⟩
  · exact .inr ⟨path, hb, ha⟩

theorem Twins.contains (h₂ : q.Requested t rs₂ q₂) (hab : q.Twins t q₁ q₂ a b) : q₂.contains b = true := by
  rcases hab with ⟨hold, rfl⟩ | ⟨path, -, hb⟩
  · exact h₂.contains_iff.mpr (.inl hold)
  · exact h₂.contains_iff.mpr (.inr ⟨path, hb⟩)

section
variable (h₁ : q.Requested t rs₁ q₁) (h₂ : q.Requested t rs₂ q₂)
include h₁ h₂

/-- Where an old table is reached in one query, it is reached in the other. -/
theorem Requested.reach?_of_contains (ha : q₁.reach? t path = some a) (hold : q.contains a = true) :
    q₂.reach? t path = some a :=
  h₂.asked.reach?_mono (h₁.asked.reach?_of_contains ha hold)

theorem Twins.unique (hab : q.Twins t q₁ q₂ a b) (hab' : q.Twins t q₁ q₂ a b') : b = b' := by
  rcases hab with ⟨hold, rfl⟩ | ⟨path, ha, hb⟩ <;> rcases hab' with ⟨hold', rfl⟩ | ⟨path', ha', hb'⟩
  · rfl
  · exact Option.some.inj ((h₁.reach?_of_contains h₂ ha' hold).symm.trans hb')
  · exact Option.some.inj (hb.symm.trans (h₁.reach?_of_contains h₂ ha hold'))
  · obtain rfl := h₁.asked.regular.reach?_inj ha ha'
    exact Option.some.inj (hb.symm.trans hb')

variable (hsame : ∀ r, r ∈ rs₁ ↔ r ∈ rs₂)
include hsame

theorem Requested.exists_reach? (ha : q₁.reach? t path = some a) : ∃ b, q₂.reach? t path = some b := by
  induction path using List.reverseRecOn generalizing a with
  | nil => exact ⟨t, rfl⟩
  | append_singleton path p ih =>
    obtain ⟨c, hc, ha⟩ := reach?_concat_eq_some.mp ha
    obtain ⟨c', hc'⟩ := ih hc
    have htarget : ∃ b, q₂.target? c' p = some b := by
      have hfirst := (h₁.target?_iff hc).mp ⟨a, ha⟩
      simp only [hsame] at hfirst
      exact (h₂.target?_iff hc').mpr hfirst
    obtain ⟨b, hb⟩ := htarget
    exact ⟨b, reach?_concat_eq_some.mpr ⟨c', hc', hb⟩⟩

theorem Requested.exists_twin (ha : q₁.contains a = true) : ∃ b, q.Twins t q₁ q₂ a b := by
  rcases h₁.contains_iff.mp ha with hold | ⟨path, ha⟩
  · exact ⟨a, .inl ⟨hold, rfl⟩⟩
  · obtain ⟨b, hb⟩ := h₁.exists_reach? h₂ hsame ha
    exact ⟨b, .inr ⟨path, ha, hb⟩⟩

/-- The foreign keys at the end of a path keep rows without a partner in both queries or in none. -/
theorem Requested.exists_key? (ha : q₁.reach? t path = some a) (hb : q₂.reach? t path = some b)
    (hj : q₁.key? a p = some j) :
    ∃ k, q₂.key? b p = some k ∧ k.kind = j.kind := by
  have htarget := (h₁.target?_iff ha).mp ⟨j.right, by rw [target?, hj, Option.map_some]⟩
  have houter := (h₁.outer_iff (p := p) ha).trans (by simp only [hsame]; exact (h₂.outer_iff hb).symm)
  simp only [hsame] at htarget
  obtain ⟨right, hright⟩ := (h₂.target?_iff hb).mpr htarget
  obtain ⟨k, hk, -⟩ := Option.map_eq_some_iff.mp hright
  refine ⟨k, hk, ?_⟩
  simp only [Outer, hj, hk, Option.some.injEq, exists_eq_left'] at houter
  cases hkind : j.kind with
  | leftOuter => exact houter.mp hkind
  | inner =>
    cases hkind' : k.kind with
    | inner => rfl
    | leftOuter => exact (houter.mpr hkind').symm.trans hkind

/-- Tables that correspond have joins that correspond. -/
theorem Twins.exists_join (hab : q.Twins t q₁ q₂ a b) (hj : j ∈ q₁.joinsOf a) :
    ∃ right, q.Twins t q₁ q₂ j.right right ∧ { j with left := b, right := right } ∈ q₂.joinsOf b := by
  have hleft : j.left = a := h₁.asked.regular.kept.rooted.left_eq hj
  -- A join is a foreign key at the end of a path, or is as old as its table.
  have hcases : (∃ path k, q₁.reach? t path = some a ∧ q₂.reach? t path = some b ∧
      q₁.key? a j.leftProperty = some j ∧ q₂.key? b j.leftProperty = some k ∧ k.kind = j.kind) ∨
      (j ∈ q.joinsOf a ∧ j ∈ q₂.joinsOf a) := by
    by_cases hproperty : j.rightProperty = "id"
    · have hkey : q₁.key? a j.leftProperty = some j :=
        h₁.asked.regular.key?_eq_some.mpr ⟨hj, Join.named_iff.mpr ⟨rfl, hproperty⟩⟩
      by_cases hpath : ∃ path, q₁.reach? t path = some a
      · have hboth : ∃ path, q₁.reach? t path = some a ∧ q₂.reach? t path = some b := by
          rcases hab with ⟨hold, rfl⟩ | hboth
          · obtain ⟨path, ha⟩ := hpath
            exact ⟨path, ha, h₁.reach?_of_contains h₂ ha hold⟩
          · exact hboth
        obtain ⟨path, ha, hb⟩ := hboth
        obtain ⟨k, hk, hkind⟩ := h₁.exists_key? h₂ hsame ha hb hkey
        exact .inl ⟨path, k, ha, hb, hkey, hk, hkind⟩
      · rcases hab with ⟨hold, rfl⟩ | ⟨path, ha, -⟩
        · have hpath' : ∀ path, q₂.reach? t path ≠ some a := fun path ha =>
            hpath ⟨path, h₂.reach?_of_contains h₁ ha hold⟩
          rw [h₁.key?_of_forall_ne fun path ha => hpath ⟨path, ha⟩] at hkey
          have hnew := (h₂.key?_of_forall_ne hpath').trans hkey
          exact .inr ⟨List.mem_of_find?_eq_some hkey, List.mem_of_find?_eq_some hnew⟩
        · exact absurd ⟨path, ha⟩ hpath
    · have hother : j ∈ q₁.others a := List.mem_filter.mpr ⟨hj, by simpa using hproperty⟩
      rw [h₁.asked.others_eq] at hother
      refine .inr ⟨List.mem_of_mem_filter hother, ?_⟩
      rw [← h₂.asked.others_eq] at hother
      exact List.mem_of_mem_filter hother
  rcases hcases with ⟨path, k, ha, hb, hj', hk, hkind⟩ | ⟨hold, hnew⟩
  · have hright : q₁.target? a j.leftProperty = some j.right := by rw [target?, hj', Option.map_some]
    have hright' : q₂.target? b j.leftProperty = some k.right := by rw [target?, hk, Option.map_some]
    refine ⟨k.right, .inr ⟨path ++ [j.leftProperty], reach?_concat_eq_some.mpr ⟨a, ha, hright⟩,
      reach?_concat_eq_some.mpr ⟨b, hb, hright'⟩⟩, ?_⟩
    have hsame : { j with left := b, right := k.right } = k := by
      obtain ⟨left, right, kind, cardinality, leftProperty, rightProperty⟩ := j
      obtain ⟨left', right', kind', cardinality', leftProperty', rightProperty'⟩ := k
      obtain ⟨-, hcardinality, -, hproperty⟩ := h₁.asked.regular.of_key? hj'
      obtain ⟨hleft', hcardinality', hname', hproperty'⟩ := h₂.asked.regular.of_key? hk
      dsimp only at *
      subst hcardinality hproperty hleft' hcardinality' hname' hproperty' hkind
      rfl
    rw [hsame]
    exact List.mem_of_find?_eq_some hk
  · have hlive : q.contains a = true := contains_of_mem_joinsOf hold
    obtain rfl := Twins.unique h₁ h₂ (.inl ⟨hlive, rfl⟩) hab
    refine ⟨j.right, .inl ⟨h₁.start.kept.rooted.live a _ (mem_ends_of_mem_joinsOf hold), rfl⟩, ?_⟩
    rw [← hleft] at hnew ⊢
    exact hnew

/-- One query is the other with its tables renamed, as far as joins go. -/
theorem Requested.exists_renaming : ∃ f : TableId → TableId,
    Set.BijOn f {a | q₁.contains a = true} {a | q₂.contains a = true} ∧ (∀ a, q.contains a = true → f a = a) ∧
      ∀ a, q₁.contains a = true →
        (q₂.joinsOf (f a)).Perm ((q₁.joinsOf a).map (Join.moved f)) := by
  have htwin : ∀ a, ∃ b, q₁.contains a = true → q.Twins t q₁ q₂ a b := by
    intro a
    by_cases ha : q₁.contains a = true
    · obtain ⟨b, hb⟩ := h₁.exists_twin h₂ hsame ha
      exact ⟨b, fun _ => hb⟩
    · exact ⟨a, fun ha' => absurd ha' ha⟩
  choose f hf using htwin
  have hinj : ∀ a b, q₁.contains a = true → q₁.contains b = true → f a = f b → a = b := fun a b ha hb heq =>
    Twins.unique h₂ h₁ (hf a ha).symm (heq ▸ (hf b hb).symm)
  have hsurj : ∀ b, q₂.contains b = true → ∃ a, q₁.contains a = true ∧ f a = b := by
    intro b hb
    obtain ⟨a, ha⟩ := h₂.exists_twin h₁ (fun r => (hsame r).symm) hb
    have hlive := Twins.contains h₁ ha
    exact ⟨a, hlive, Twins.unique h₁ h₂ (hf a hlive) ha.symm⟩
  have hrooted₁ := h₁.asked.regular.kept.rooted
  have hrooted₂ := h₂.asked.regular.kept.rooted
  have hends : ∀ {a j}, j ∈ q₁.joinsOf a → j.left = a ∧ q₁.contains j.left = true ∧ q₁.contains j.right = true :=
    fun {a j} hj => ⟨hrooted₁.left_eq hj, hrooted₁.forest.live j (mem_joins.mpr ⟨a, hj⟩)⟩
  have hjoin : ∀ {a j}, j ∈ q₁.joinsOf a → j.moved f ∈ q₂.joinsOf (f a) := by
    intro a j hj
    obtain ⟨rfl, hleft, hright⟩ := hends hj
    obtain ⟨right, htwin, hmem⟩ := Twins.exists_join h₁ h₂ hsame (hf _ hleft) hj
    rwa [Join.moved, Twins.unique h₁ h₂ (hf _ hright) htwin]
  refine ⟨f, ⟨fun a ha => Twins.contains h₂ (hf a ha), fun a ha b hb => hinj a b ha hb, hsurj⟩, fun a ha => ?_,
    fun a ha => ?_⟩
  · exact Twins.unique h₁ h₂ (hf a (h₁.contains_iff.mpr (.inl ha))) (.inl ⟨ha, rfl⟩)
  · have hnodup : ((q₁.joinsOf a).map (Join.moved f)).Nodup := by
      refine (hrooted₁.nodup_joinsOf a).map_on fun j hj k hk heq => ?_
      have hright : j.right = k.right := hinj _ _ (hends hj).2.2 (hends hk).2.2 (congrArg Join.right heq)
      exact hrooted₁.eq_of_right hj hk hright
    refine (List.perm_ext_iff_of_nodup (hrooted₂.nodup_joinsOf _) hnodup).mpr fun k => ⟨fun hk => ?_, fun hk => ?_⟩
    · -- A join of the second query corresponds to one of the first, which can only lead back to it.
      obtain ⟨right, htwin, hmem⟩ := Twins.exists_join h₂ h₁ (fun r => (hsame r).symm) (hf a ha).symm hk
      have hright : f right = k.right := Twins.unique h₁ h₂ (hf _ (hends hmem).2.2) htwin.symm
      refine List.mem_map.mpr ⟨_, hmem, ?_⟩
      rw [Join.moved, hright, ← hrooted₂.left_eq hk]
    · obtain ⟨j, hj, rfl⟩ := List.mem_map.mp hk
      exact hjoin hj

end

/-! ### Queries whose joins come from requests -/

/-- The queries whose joins were made by requests for properties and relationships, whatever else befell their tables. -/
inductive Branched : Query → Prop
  | start {item : QueryItem} (hitem : item.joins = []) : Branched (ofItem item)
  | call {q : Query} {c : Call} (hq : Branched q) (hc : c.Admissible q) (hjoin : ∀ j, c ≠ .addJoin j) : Branched (q.after c)
  | change {q : Query} {f : QueryItem → QueryItem} (hq : Branched q) (hf : ∀ item, (f item).joins = item.joins)
      (table : TableId) : Branched (q.modify table f)

theorem Regular.of_sublist (h : q.Regular) (hkept : q'.Kept) (hsub : ∀ id, (q'.joinsOf id).Sublist (q.joinsOf id)) :
    q'.Regular where
  kept := hkept
  distinct id := (h.distinct id).sublist ((((hsub id).map Join.link).filter _).map _)
  shape id k hk := h.shape id k (((hsub id).map Join.link).mem hk)

theorem Regular.addTable (h : q.Regular) {item : QueryItem} (hitem : item.joins = []) : (q.addTable item).2.Regular := by
  refine h.of_sublist (h.kept.addTable hitem) fun id => ?_
  rw [joinsOf, get?_addTable h.kept.sound]
  split
  next => exact hitem ▸ List.nil_sublist _
  next => exact .refl _

/-- A new table below a stale one stays alone. -/
theorem Regular.attach_known (h : q.Regular) {item : QueryItem} (hitem : item.joins = []) (hknown : q.arena.Known a)
    (hlive : q.contains a = true → (q.attach a item j).Regular) : (q.attach a item j).Regular := by
  by_cases ha : q.contains a = true
  · exact hlive ha
  · have hne : a ≠ (q.addTable item).1 := h.kept.sound.ne_insert_of_known hknown item
    have hstale : ¬(q.addTable item).2.contains a = true := by
      intro hnew
      obtain ⟨old, hold⟩ := Query.contains_iff.mp hnew
      rw [get?_addTable h.kept.sound, if_neg hne] at hold
      exact ha (Query.contains_iff.mpr ⟨old, hold⟩)
    rw [Query.attach, modify_of_not_contains _ hstale]
    exact h.addTable hitem

theorem Regular.joinProperty (h : q.Regular) (hknown : q.arena.Known a) (p : String) (kind : JoinKind) :
    (q.joinProperty a p kind).2.Regular := by
  by_cases ha : q.contains a = true
  · exact (h.asks ha p kind).regular
  · have hkey : q.key? a p = none := by
      rw [key?_eq_bind]
      cases hget : q.get? a with
      | none => rfl
      | some item => exact absurd (Query.contains_iff.mpr ⟨item, hget⟩) ha
    rw [joinProperty_of_none hkey]
    exact h.attach_known rfl hknown fun hlive => absurd hlive ha

theorem Regular.follow (h : q.Regular) (hknown : q.arena.Known a) (kind : JoinKind) (names : List String) :
    (q.follow a kind names).2.Regular := by
  fun_induction Query.follow q a kind names with
  | case1 => exact h
  | case2 => exact h
  | case3 q a p names _ next q' hnext ih =>
    obtain ⟨-, hlive⟩ := h.kept.joinProperty hknown p kind
    have hregular := h.joinProperty hknown p kind
    rw [hnext] at hlive hregular
    exact ih hregular (.inl hlive)

theorem Branched.regular (h : q.Branched) : q.Regular := by
  induction h with
  | start hitem => exact (grown_ofItem hitem).regular
  | @call q c _ hc hjoin h =>
    cases c with
    | addTable item => exact h.addTable hc
    | addJoin j => exact absurd rfl (hjoin j)
    | joinProperty a p kind => exact h.joinProperty hc p kind
    | propertyPath a path kind => exact h.follow hc kind _
    | addRelationship a typeName =>
      refine h.attach_known rfl hc fun hlive => ?_
      exact h.attach _ rfl hlive rfl rfl (by simp [Join.isForeignKey]) (by rintro ⟨⟩)
    | setRoot id =>
      refine h.of_sublist (h.kept.after hc) fun a => ?_
      rw [after, setRoot]
      split
      next => exact .refl _
      next => exact .refl _
    | removeTable id =>
      refine h.of_sublist (h.kept.after hc) fun a => ?_
      rw [after]
      cases hget : q.get? id with
      | none =>
        rw [removeTable_of_stale hget]
      | some item =>
        rw [joinsOf, get?_removeTable hget, joinsOf]
        split
        next => exact List.nil_sublist _
        next =>
          cases q.get? a with
          | none => exact .refl _
          | some item => exact List.filter_sublist
  | change _ hf table h => exact h.modify (fun item => by rw [hf]) table

/-- Requests share joins. The same property of the same table leads to the same table, as does the same path; one table is
    added for each property that was asked for and not there; a foreign key keeps rows without a partner if and only if it
    did so before or a request through it asked for that, and never ceases to; and the same requests from one table, in any
    order, make the same tree of foreign keys. -/
theorem Branched.requests_share_joins (hq : q.Branched) (hrs : q.Addressed rs) :
    (∀ s ∈ q.log rs, (q.run rs).target? s.table s.property = some s.reached ∧
      ∀ s' ∈ q.log rs, s.place = s'.place → s.reached = s'.reached) ∧
    (∀ a p b, q.target? a p = some b → (q.run rs).target? a p = some b) ∧
    (∀ before r after, rs = before ++ r :: after →
      (q.run rs).reach? r.table r.keys = some (r.answer (q.run before))) ∧
    (q.run rs).tableCount =
      q.tableCount + (((q.log rs).map Step.place).toFinset.filter fun x => q.key? x.1 x.2 = none).card ∧
    ((∀ a p, (q.run rs).Outer a p ↔ q.Outer a p ∨ ∃ s ∈ q.log rs, s.place = (a, p) ∧ s.kind = .leftOuter) ∧
      (∀ before after, rs = before ++ after → ∀ a p, (q.run before).Outer a p → (q.run rs).Outer a p) ∧
      ∀ a, (q.run rs).others a = q.others a) ∧
    ∀ t rs', q.contains t = true → (∀ r ∈ rs, r.table = t) → (∀ r, r ∈ rs ↔ r ∈ rs') → ∃ f : TableId → TableId,
      Set.BijOn f {a | (q.run rs).contains a = true} {a | (q.run rs').contains a = true} ∧
      (∀ a, q.contains a = true → f a = a) ∧
      ∀ a, (q.run rs).contains a = true →
        ((q.run rs').joinsOf (f a)).Perm (((q.run rs).joinsOf a).map (Join.moved f)) := by
  have hregular := hq.regular
  have hasked := hregular.asked_log hrs
  refine ⟨fun s hs => ⟨hasked.target?_of_mem hs, fun s' hs' hplace => ?_⟩, fun a p b hb => hasked.target?_mono hb,
    fun before r after hsplit => ?_, hasked.tableCount_eq hregular,
    ⟨fun a p => hasked.outer_iff, fun before after hsplit a p houter => ?_, hasked.others_eq⟩,
    fun t rs' hlive htable hsame => ?_⟩
  · have hfound := hasked.target?_of_mem hs'
    cases s
    cases s'
    cases hplace
    exact Option.some.inj ((hasked.target?_of_mem hs).symm.trans hfound)
  · rw [r.answer_eq]
    refine reach?_demand fun s hs => hasked.target?_of_mem ?_
    rw [hsplit, log_append, log]
    exact List.mem_append_right _ (List.mem_append_left _ hs)
  · subst hsplit
    rw [addressed_append] at hrs
    rw [run_append]
    exact (((hregular.asked_log hrs.1).regular).asked_log hrs.2).outer_iff.mpr (.inl houter)
  · have htable' : ∀ r ∈ rs', r.table = t := fun r hr => htable r ((hsame r).mpr hr)
    have h₁ : q.Requested t rs (q.run rs) := ⟨hregular, hlive, htable, hasked⟩
    have h₂ : q.Requested t rs' (q.run rs') :=
      ⟨hregular, hlive, htable', hregular.asked_log (hregular.addressed hlive htable')⟩
    exact h₁.exists_renaming h₂ hsame

/-- Two paths through one property and a request for an outer join, in two orders. -/
def forked : List Request :=
  [.path ⟨0, 0⟩ "a/b/x" .inner, .property ⟨0, 0⟩ "a" .leftOuter, .path ⟨0, 0⟩ "a/c/y" .inner]

theorem Branched.requests_share_joins_forked :
    ((ofItem {}).run forked).tableCount = 4 ∧
    (∀ s ∈ (ofItem {}).log forked, ∀ s' ∈ (ofItem {}).log forked, s.place = s'.place → s.reached = s'.reached) ∧
    ((ofItem {}).run forked).reach? ⟨0, 0⟩ ["a", "b"] = some ⟨2, 0⟩ ∧
    ((ofItem {}).run forked).Outer ⟨0, 0⟩ "a" ∧
    ∃ f : TableId → TableId, f ⟨0, 0⟩ = ⟨0, 0⟩ ∧
      (((ofItem {}).run forked.reverse).joinsOf (f ⟨0, 0⟩)).Perm
        ((((ofItem {}).run forked).joinsOf ⟨0, 0⟩).map (Join.moved f)) := by
  have hlive : (ofItem {}).contains ⟨0, 0⟩ = true := by decide
  have haddressed : (ofItem {}).Addressed forked :=
    ⟨hlive, by decide +kernel, by decide +kernel, trivial⟩
  obtain ⟨hsame, -, hanswer, hcount, ⟨houter, -⟩, horder⟩ := Branched.requests_share_joins (.start rfl) haddressed
  have htable : ∀ r ∈ forked, r.table = ⟨0, 0⟩ := by decide
  obtain ⟨f, -, hold, hjoins⟩ := horder ⟨0, 0⟩ forked.reverse hlive htable fun r => List.mem_reverse.symm
  refine ⟨hcount.trans (by decide +kernel), fun s hs => (hsame s hs).2, ?_, (houter _ _).mpr (.inr ?_), f, hold _ hlive,
    hjoins _ (by decide +kernel)⟩
  · exact (hanswer [] _ _ rfl).trans (by decide +kernel)
  · exact ⟨⟨⟨0, 0⟩, "a", .leftOuter, ⟨1, 0⟩⟩, by decide +kernel, rfl, rfl⟩

end Query
end ItemQuery
