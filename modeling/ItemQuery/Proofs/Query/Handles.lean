import Mathlib.Algebra.Group.Nat.Defs
import Mathlib.Data.List.Nodup
import Mathlib.Data.List.Perm.Subperm
import ItemQuery.Query.Basic

/-! Which values handles reach after a change, and how long a stale handle stays one. -/

namespace ItemQuery

/-! ### Slots -/

namespace Arena

variable {α : Type} {a : Arena α} {id other : TableId} {value : α}

theorem get?_eq_some :
    a.get? id = some value ↔ ∃ s, a.slots[id.slot]? = some s ∧ s.generation = id.generation ∧ s.value = some value := by
  simp only [get?, Option.bind_eq_some_iff, Option.ite_none_right_eq_some]

/-- A change is not seen through another handle. -/
theorem get?_modify_of_ne (f : α → α) (hne : other ≠ id) : (a.modify id f).get? other = a.get? other := by
  unfold modify
  split
  · rename_i old hold
    obtain ⟨s, hs, hgeneration, -⟩ := get?_eq_some.mp hold
    by_cases hslot : other.slot = id.slot
    · have hstale : id.generation ≠ other.generation := by
        intro heq
        obtain ⟨slot, generation⟩ := id
        obtain ⟨slot', generation'⟩ := other
        exact hne (by rw [show slot' = slot from hslot, show generation = generation' from heq])
      obtain ⟨hlt, -⟩ := Array.getElem?_eq_some_iff.mp hs
      simp only [get?, hslot, Array.getElem?_setIfInBounds_self_of_lt hlt, hs, Option.bind_some, hstale, hgeneration,
        if_false]
    · simp only [get?, Array.getElem?_setIfInBounds_ne (Ne.symm hslot)]
  · rfl

theorem get?_modify_self (f : α → α) : (a.modify id f).get? id = (a.get? id).map f := by
  unfold modify
  split
  · rename_i old hold
    obtain ⟨s, hs, -, -⟩ := get?_eq_some.mp hold
    obtain ⟨hlt, -⟩ := Array.getElem?_eq_some_iff.mp hs
    rw [hold, get?, Array.getElem?_setIfInBounds_self_of_lt hlt, Option.bind_some, if_pos rfl]
    rfl
  · rename_i hnone
    rw [hnone]
    rfl

theorem get?_modify (a : Arena α) (f : α → α) (id other : TableId) :
    (a.modify id f).get? other = if other = id then (a.get? id).map f else a.get? other := by
  split
  next heq => rw [heq, get?_modify_self]
  next hne => exact get?_modify_of_ne f hne

@[simp] theorem free_modify (f : α → α) : (a.modify id f).free = a.free := by
  unfold modify
  split <;> rfl

/-- A value that goes into a new slot changes no other. -/
theorem get?_insert_of_free_eq_nil (hfree : a.free = []) (h : a.get? id = some value) (other : α) :
    (a.insert other).2.get? id = some value ∧ (a.insert other).2.free = [] := by
  obtain ⟨s, hs, hgeneration, hvalue⟩ := get?_eq_some.mp h
  have hinsert : (a.insert other).2 = { a with slots := a.slots.push ⟨0, some other⟩, size := a.size + 1 } := by
    rw [insert, hfree]
  obtain ⟨hlt, -⟩ := Array.getElem?_eq_some_iff.mp hs
  rw [hinsert]
  refine ⟨get?_eq_some.mpr ⟨s, ?_, hgeneration, hvalue⟩, hfree⟩
  rw [Array.getElem?_push_lt hlt, ← hs, Array.getElem?_eq_getElem hlt]

/-! ### Free slots -/

/-- The free slots are listed once each and hold nothing. -/
structure Sound (a : Arena α) : Prop where
  nodup : a.free.Nodup
  vacant : ∀ slot ∈ a.free, ∃ generation, a.slots[slot]? = some ⟨generation, none⟩

theorem sound_empty : (empty : Arena α).Sound :=
  ⟨.nil, nofun⟩

/-- A new value goes into the slot of its handle, which held nothing, and no other slot changes. -/
theorem Sound.slots_insert (h : a.Sound) (value : α) :
    (∀ s, a.slots[(a.insert value).1.slot]? = some s → s = ⟨(a.insert value).1.generation, none⟩) ∧
      ∀ slot, (a.insert value).2.slots[slot]? =
        if slot = (a.insert value).1.slot then some ⟨(a.insert value).1.generation, some value⟩ else a.slots[slot]? := by
  unfold insert
  split
  next slot free hfree =>
    obtain ⟨generation, hslot⟩ := h.vacant slot (by rw [hfree]; exact List.mem_cons_self)
    obtain ⟨hlt, -⟩ := Array.getElem?_eq_some_iff.mp hslot
    simp only [hslot, Option.map_some, Option.getD_some, Array.getElem?_setIfInBounds]
    grind
  next =>
    simp only [Array.getElem?_push]
    grind

theorem Sound.insert (h : a.Sound) (value : α) : (a.insert value).2.Sound := by
  have hslots := (h.slots_insert value).2
  refine ⟨?_, fun slot hslot => ?_⟩
  · unfold Arena.insert
    split
    next slot free hfree => exact (List.nodup_cons.mp (hfree ▸ h.nodup)).2
    next => exact h.nodup
  · rw [hslots]
    unfold Arena.insert at hslot ⊢
    split at hslot
    next taken free hfree =>
      have hnodup := List.nodup_cons.mp (hfree ▸ h.nodup)
      rw [if_neg (fun heq => hnodup.1 (by simpa [hfree, heq] using hslot))]
      exact h.vacant slot (by rw [hfree]; exact List.mem_cons_of_mem _ hslot)
    next hfree => rw [hfree] at hslot; cases hslot

theorem Sound.get?_insert (h : a.Sound) (value : α) (id : TableId) :
    (a.insert value).2.get? id = if id = (a.insert value).1 then some value else a.get? id := by
  obtain ⟨hvacant, hslots⟩ := h.slots_insert value
  generalize (a.insert value).1 = new at hvacant hslots ⊢
  obtain ⟨slot, generation⟩ := id
  obtain ⟨newSlot, newGeneration⟩ := new
  simp only [get?, hslots, TableId.mk.injEq] at hvacant ⊢
  by_cases hslot : slot = newSlot
  · subst hslot
    -- The slot was not there, or held nothing.
    cases hs : a.slots[slot]? with
    | none => grind
    | some s => rw [hvacant s hs]; grind
  · simp [hslot]

theorem Sound.get?_insert_fst (h : a.Sound) (value : α) : a.get? (a.insert value).1 = none := by
  by_contra hlive
  obtain ⟨old, hold⟩ := Option.ne_none_iff_exists'.mp hlive
  obtain ⟨s, hs, -, hvalue⟩ := get?_eq_some.mp hold
  rw [(h.slots_insert value).1 s hs] at hvalue
  cases hvalue

theorem Sound.modify (h : a.Sound) (id : TableId) (f : α → α) : (a.modify id f).Sound := by
  unfold Arena.modify
  split
  next old hold =>
    obtain ⟨s, hs, -, hvalue⟩ := get?_eq_some.mp hold
    refine ⟨h.nodup, fun slot hslot => ?_⟩
    obtain ⟨generation, hvacant⟩ := h.vacant slot hslot
    have hne : id.slot ≠ slot := by
      rintro rfl
      rw [hs] at hvacant
      cases hvacant
      cases hvalue
    exact ⟨generation, by rw [Array.getElem?_setIfInBounds_ne hne, hvacant]⟩
  next => exact h

/-- A removal frees the slot of a live handle, and no other slot changes. -/
theorem slots_erase (h : a.get? id = some value) :
    (a.erase id).2.free = id.slot :: a.free ∧
      ∀ slot, (a.erase id).2.slots[slot]? =
        if slot = id.slot then some ⟨id.generation + 1, none⟩ else a.slots[slot]? := by
  obtain ⟨s, hs, -, -⟩ := get?_eq_some.mp h
  obtain ⟨hlt, -⟩ := Array.getElem?_eq_some_iff.mp hs
  simp only [erase, h, Array.getElem?_setIfInBounds, true_and]
  grind

theorem Sound.erase (h : a.Sound) (hid : a.get? id = some value) : (a.erase id).2.Sound := by
  obtain ⟨hfree, hslots⟩ := slots_erase hid
  obtain ⟨s, hs, -, hvalue⟩ := get?_eq_some.mp hid
  have htaken : id.slot ∉ a.free := by
    intro hmem
    obtain ⟨generation, hvacant⟩ := h.vacant id.slot hmem
    rw [hs] at hvacant
    cases hvacant
    cases hvalue
  refine ⟨by rw [hfree]; exact List.nodup_cons.mpr ⟨htaken, h.nodup⟩, fun slot hslot => ?_⟩
  rw [hslots]
  split
  next => exact ⟨_, rfl⟩
  next hne =>
    rw [hfree] at hslot
    exact h.vacant slot ((List.mem_cons.mp hslot).resolve_left hne)

theorem get?_erase (h : a.get? id = some value) (other : TableId) :
    (a.erase id).2.get? other = if other = id then none else a.get? other := by
  obtain ⟨-, hslots⟩ := slots_erase h
  obtain ⟨s, hs, hgeneration, -⟩ := get?_eq_some.mp h
  obtain ⟨slot, generation⟩ := id
  obtain ⟨slot', generation'⟩ := other
  simp only [get?, hslots, TableId.mk.injEq] at hs hgeneration ⊢
  by_cases hslot : slot' = slot
  · subst hslot
    simp only [hs, hgeneration, if_true, Option.bind_some, ite_self, true_and]
    grind
  · simp [hslot]

/-! ### Live handles -/

theorem mem_toList {entry : TableId × α} : entry ∈ a.toList ↔ a.get? entry.1 = some entry.2 := by
  obtain ⟨⟨slot, generation⟩, value⟩ := entry
  simp only [toList, List.mem_filterMap, List.mem_zipIdx_iff_getElem?, get?_eq_some, Option.map_eq_some_iff,
    Prod.mk.injEq, TableId.mk.injEq, Array.getElem?_toList, Prod.exists]
  grind

theorem mem_ids : id ∈ a.ids ↔ (a.get? id).isSome := by
  simp [ids, List.mem_map, mem_toList, Option.isSome_iff_exists]

/-- Handles are listed by slot. -/
theorem pairwise_ids : a.ids.Pairwise fun id id' => id.slot < id'.slot := by
  have hindices : (a.slots.toList.zipIdx.map (·.2)).Pairwise (· < ·) := by
    rw [List.zipIdx_map_snd]
    exact List.pairwise_lt_range'
  refine List.pairwise_map.mpr ((List.pairwise_map.mp hindices).filterMap _ fun s s' hlt e he e' he' => ?_)
  obtain ⟨value, -, rfl⟩ := Option.map_eq_some_iff.mp he
  obtain ⟨value', -, rfl⟩ := Option.map_eq_some_iff.mp he'
  exact hlt

theorem nodup_ids : a.ids.Nodup := by
  refine pairwise_ids.imp fun {id id'} hlt heq => ?_
  rw [heq] at hlt
  exact Nat.lt_irrefl _ hlt

theorem length_ids (a : Arena α) : a.ids.length = a.toList.length :=
  List.length_map ..

/-- As many handles are listed as there are in any list of the live ones. -/
theorem length_toList_eq {ids : List TableId} (hids : ids.Nodup) (h : ∀ id, id ∈ ids ↔ (a.get? id).isSome) :
    a.toList.length = ids.length := by
  rw [← length_ids]
  exact ((List.perm_ext_iff_of_nodup nodup_ids hids).mpr fun id => mem_ids.trans (h id).symm).length_eq

/-- Distinct live handles are no more than there are values. -/
theorem length_le_toList {ids : List TableId} (hids : ids.Nodup) (h : ∀ id ∈ ids, (a.get? id).isSome) :
    ids.length ≤ a.toList.length := by
  have hsub : ids.Subperm a.ids := hids.subperm fun id hid => mem_ids.mpr (h id hid)
  simpa [Arena.ids] using hsub.length_le

theorem get?_foldl_modify (f : α → α) (a : Arena α) (ids : List TableId) (hids : ids.Nodup) (id : TableId) :
    (ids.foldl (fun a other => a.modify other f) a).get? id = if id ∈ ids then (a.get? id).map f else a.get? id := by
  induction ids generalizing a with
  | nil => rfl
  | cons other ids ih =>
    obtain ⟨hother, hids⟩ := List.nodup_cons.mp hids
    rw [List.foldl_cons, ih _ hids]
    by_cases hid : id = other
    · subst hid
      simp [hother, get?_modify_self]
    · simp [hid, get?_modify_of_ne f hid]

/-- The same change of every live value. -/
theorem get?_foldl_ids (f : α → α) (a : Arena α) (id : TableId) :
    (a.ids.foldl (fun a other => a.modify other f) a).get? id = (a.get? id).map f := by
  rw [get?_foldl_modify f a a.ids nodup_ids]
  split
  next => rfl
  next hid =>
    rw [mem_ids, Option.not_isSome_iff_eq_none] at hid
    rw [hid, Option.map_none]

/-! ### The count of live values -/

/-- The slots are sound, and the count that is kept is the number of live values. -/
structure Counted (a : Arena α) : Prop where
  sound : a.Sound
  size : a.size = a.toList.length

theorem counted_empty : (empty : Arena α).Counted :=
  ⟨sound_empty, rfl⟩

theorem Counted.insert (h : a.Counted) (value : α) : (a.insert value).2.Counted := by
  refine ⟨h.sound.insert value, ?_⟩
  have hsize : (a.insert value).2.size = a.size + 1 := by
    unfold Arena.insert
    split <;> rfl
  have hnew : (a.insert value).1 ∉ a.ids := by simp [mem_ids, h.sound.get?_insert_fst]
  have hmem : ∀ id, id ∈ (a.insert value).1 :: a.ids ↔ ((a.insert value).2.get? id).isSome := by
    intro id
    rw [List.mem_cons, h.sound.get?_insert, mem_ids]
    split <;> simp [*]
  rw [length_toList_eq (List.nodup_cons.mpr ⟨hnew, nodup_ids⟩) hmem, hsize, h.size, List.length_cons, length_ids]

theorem Counted.modify (h : a.Counted) (id : TableId) (f : α → α) : (a.modify id f).Counted := by
  refine ⟨h.sound.modify id f, ?_⟩
  have hsize : (a.modify id f).size = a.size := by
    unfold Arena.modify
    split <;> rfl
  have hmem : ∀ other, other ∈ a.ids ↔ ((a.modify id f).get? other).isSome := by
    intro other
    rw [mem_ids, get?_modify]
    split <;> simp [*]
  rw [length_toList_eq nodup_ids hmem, hsize, h.size, length_ids]

theorem Counted.erase (h : a.Counted) (hid : a.get? id = some value) : (a.erase id).2.Counted := by
  refine ⟨h.sound.erase hid, ?_⟩
  have hsize : (a.erase id).2.size = a.size - 1 := by simp only [Arena.erase, hid]
  have hmem : ∀ other, other ∈ a.ids.erase id ↔ ((a.erase id).2.get? other).isSome := by
    intro other
    rw [nodup_ids.mem_erase_iff, get?_erase hid, mem_ids]
    split <;> simp [*]
  have hlive : id ∈ a.ids := mem_ids.mpr (by simp [hid])
  rw [length_toList_eq (nodup_ids.erase id) hmem, hsize, h.size, List.length_erase_of_mem hlive, length_ids]

/-! ### Stale handles -/

/-- The slot of the handle has gone on to another generation. -/
def Stale (a : Arena α) (id : TableId) : Prop :=
  ∃ s, a.slots[id.slot]? = some s ∧ s.generation ≠ id.generation

/-- A handle that is live, or was and is stale now. -/
def Known (a : Arena α) (id : TableId) : Prop :=
  a.contains id = true ∨ a.Stale id

/-- A new value gets a handle that was not known. -/
theorem Sound.ne_insert_of_known (h : a.Sound) (hid : a.Known id) (value : α) : id ≠ (a.insert value).1 := by
  have hvacant := (h.slots_insert value).1
  intro heq
  rw [← heq] at hvacant
  rcases hid with hlive | ⟨s, hs, hgeneration⟩
  · obtain ⟨old, hold⟩ := Option.isSome_iff_exists.mp hlive
    obtain ⟨s, hs, -, hvalue⟩ := get?_eq_some.mp hold
    rw [hvacant s hs] at hvalue
    cases hvalue
  · rw [hvacant s hs] at hgeneration
    exact hgeneration rfl

/-- The slot of the handle was freed at most `n` times since the handle was live. -/
def FreedAtMost (a : Arena α) (id : TableId) (n : Nat) : Prop :=
  ∃ s, a.slots[id.slot]? = some s ∧
    ∃ k ≤ n, s.generation = id.generation + UInt32.ofNat k ∧ (k = 0 → s.value.isSome)

theorem FreedAtMost.mono {m n : Nat} (h : a.FreedAtMost id m) (hmn : m ≤ n) : a.FreedAtMost id n := by
  obtain ⟨s, hs, k, hk, hrest⟩ := h
  exact ⟨s, hs, k, Nat.le_trans hk hmn, hrest⟩

theorem freedAtMost_of_contains (h : a.contains id = true) : a.FreedAtMost id 0 := by
  obtain ⟨value, hvalue⟩ := Option.isSome_iff_exists.mp h
  obtain ⟨s, hs, hgeneration, hvalue⟩ := get?_eq_some.mp hvalue
  exact ⟨s, hs, 0, Nat.le_refl 0, by simp [hgeneration], fun _ => by simp [hvalue]⟩

/-- Generations come round after `2 ^ 32` removals. -/
theorem known_of_freedAtMost {n : Nat} (h : a.FreedAtMost id n) (hn : n < 2 ^ 32) : a.Known id := by
  obtain ⟨s, hs, k, hk, hgeneration, hvalue⟩ := h
  by_cases hk0 : k = 0
  · refine .inl ?_
    obtain ⟨value, hvalue⟩ := Option.isSome_iff_exists.mp (hvalue hk0)
    exact Option.isSome_iff_exists.mpr ⟨value, get?_eq_some.mpr ⟨s, hs, by simp [hgeneration, hk0], hvalue⟩⟩
  · refine .inr ⟨s, hs, fun heq => hk0 ?_⟩
    rw [hgeneration] at heq
    have hzero : UInt32.ofNat k = 0 := by simpa using heq
    have := congrArg UInt32.toNat hzero
    simp at this
    omega

theorem FreedAtMost.insert {n : Nat} (h : a.FreedAtMost id n) (hsound : a.Sound) (value : α) :
    (a.insert value).2.FreedAtMost id n := by
  obtain ⟨hvacant, hslots⟩ := hsound.slots_insert value
  obtain ⟨s, hs, k, hk, hgeneration, hvalue⟩ := h
  by_cases hslot : id.slot = (a.insert value).1.slot
  · have hold := hvacant s (hslot ▸ hs)
    refine ⟨_, by rw [hslots, if_pos hslot], k, hk, ?_, fun _ => rfl⟩
    rw [← hgeneration, hold]
  · exact ⟨s, by rw [hslots, if_neg hslot, hs], k, hk, hgeneration, hvalue⟩

theorem FreedAtMost.modify {n : Nat} (h : a.FreedAtMost id n) (other : TableId) (f : α → α) :
    (a.modify other f).FreedAtMost id n := by
  unfold Arena.modify
  split
  next old hold =>
    obtain ⟨s, hs, k, hk, hgeneration, hvalue⟩ := h
    obtain ⟨s', hs', hgeneration', -⟩ := get?_eq_some.mp hold
    by_cases hslot : other.slot = id.slot
    · obtain ⟨hlt, -⟩ := Array.getElem?_eq_some_iff.mp hs
      refine ⟨_, by rw [hslot, Array.getElem?_setIfInBounds_self_of_lt hlt], k, hk, ?_, fun _ => rfl⟩
      rw [hslot, hs] at hs'
      cases hs'
      rw [← hgeneration, hgeneration']
    · exact ⟨s, by rw [Array.getElem?_setIfInBounds_ne hslot, hs], k, hk, hgeneration, hvalue⟩
  next => exact h

theorem FreedAtMost.erase {n : Nat} (h : a.FreedAtMost id n) (hother : a.get? other = some value) :
    (a.erase other).2.FreedAtMost id (n + 1) := by
  obtain ⟨-, hslots⟩ := slots_erase hother
  obtain ⟨s, hs, k, hk, hgeneration, hvalue⟩ := h
  by_cases hslot : id.slot = other.slot
  · refine ⟨_, by rw [hslots, if_pos hslot], k + 1, by omega, ?_, by omega⟩
    obtain ⟨s', hs', hgeneration', -⟩ := get?_eq_some.mp hother
    rw [← hslot, hs] at hs'
    cases hs'
    simp only [← hgeneration', hgeneration]
    rw [UInt32.ofNat_add, UInt32.add_assoc]
    rfl
  · exact ⟨s, by rw [hslots, if_neg hslot, hs], k, by omega, hgeneration, hvalue⟩

end Arena
end ItemQuery
