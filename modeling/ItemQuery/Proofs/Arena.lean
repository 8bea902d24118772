import Mathlib.Data.List.Induction
import ItemQuery.Proofs.Query.Handles

/-! Slot storage as a map from handles to values, over any sequence of changes. The history names every handle
    that was given out; the slots only remember the last generation. What connects them is the number of times
    each slot was freed: it is the slot's generation, and every handle of the slot was given out under one of
    the numbers before it. The main statement is `run_mirrors`. -/

namespace ItemQuery.Arena

variable {α : Type}

/-! ### Histories -/

/-- A change that a caller asks for. -/
inductive Change (α : Type) where
  | insert (value : α)
  | erase (id : TableId)
  | update (id : TableId) (f : α → α)

/-- A change that took place. -/
inductive Event (α : Type) where
  | inserted (id : TableId) (value : α)
  | erased (id : TableId)
  | updated (id : TableId) (f : α → α)

/-- What took place, in order. -/
abbrev History (α : Type) : Type :=
  List (Event α)

namespace Event

/-- The handle that the event gave out. -/
def handle? : Event α → Option TableId
  | inserted id _ => some id
  | _ => none

/-- Whether the event freed this slot. -/
def frees (slot : Nat) : Event α → Bool
  | erased id => id.slot == slot
  | _ => false

/-- What is stored under a handle after the event. -/
def after (id : TableId) (stored : Option α) : Event α → Option α
  | inserted other value => if id = other then some value else stored
  | erased other => if id = other then none else stored
  | updated other f => if id = other then stored.map f else stored

end Event

namespace History

/-- All handles that were given out. -/
def handles (log : History α) : List TableId :=
  log.filterMap Event.handle?

/-- How often a slot was freed. -/
def frees (log : History α) (slot : Nat) : Nat :=
  log.countP (·.frees slot)

/-- The value last stored under a handle, unless it was taken out since. -/
def value? (log : History α) (id : TableId) : Option α :=
  log.foldl (fun stored e => e.after id stored) none

/-- The handles under which a value is stored. -/
def live (log : History α) : List TableId :=
  log.handles.filter fun id => (log.value? id).isSome

end History

/-- Makes one change and tells what took place; nothing is taken out through a stale handle. -/
def change (a : Arena α) : Change α → Arena α × History α
  | .insert value => ((a.insert value).2, [.inserted (a.insert value).1 value])
  | .erase id => ((a.erase id).2, if (a.erase id).1.isSome then [.erased id] else [])
  | .update id f => (a.modify id f, [.updated id f])

/-- The handle that a change is about. -/
def subject (a : Arena α) : Change α → TableId
  | .insert value => (a.insert value).1
  | .erase id => id
  | .update id _ => id

/-- Makes one change after others. -/
def next (state : Arena α × History α) (c : Change α) : Arena α × History α :=
  ((state.1.change c).1, state.2 ++ (state.1.change c).2)

/-- The arena after some changes, and what took place. -/
def run (changes : List (Change α)) : Arena α × History α :=
  changes.foldl next (empty, [])

namespace History

variable {log : History α} {id : TableId} {slot : Nat} {e : Event α}

@[simp] theorem handles_append (log more : History α) : handles (log ++ more) = handles log ++ handles more :=
  List.filterMap_append

@[simp] theorem frees_append (log more : History α) (slot : Nat) :
    frees (log ++ more) slot = frees log slot + frees more slot :=
  List.countP_append

@[simp] theorem value?_concat (log : History α) (e : Event α) (id : TableId) :
    value? (log ++ [e]) id = e.after id (log.value? id) :=
  List.foldl_concat (fun stored (e : Event α) => e.after id stored) ..

/-- A value that is stored came in under its handle. -/
theorem mem_handles_of_value? (h : (log.value? id).isSome) : id ∈ log.handles := by
  induction log using List.reverseRecOn with
  | nil => cases h
  | append_singleton log e ih =>
    rw [value?_concat] at h
    rw [handles_append, List.mem_append]
    cases e with
    | inserted other value =>
      by_cases hid : id = other
      · exact .inr (by simp [handles, Event.handle?, hid])
      · exact .inl (ih (by simpa [Event.after, hid] using h))
    | erased other =>
      by_cases hid : id = other
      · simp [Event.after, hid] at h
      · exact .inl (ih (by simpa [Event.after, hid] using h))
    | updated other f =>
      refine .inl (ih ?_)
      by_cases hid : id = other
      · simpa [Event.after, hid] using h
      · simpa [Event.after, hid] using h

/-- A value that came in and was not taken out is stored. -/
theorem value?_of_mem_handles (h : id ∈ log.handles) (herased : .erased id ∉ log) : (log.value? id).isSome := by
  induction log using List.reverseRecOn with
  | nil => simp [handles] at h
  | append_singleton log e ih =>
    simp only [List.mem_append, List.mem_singleton, not_or] at herased
    rw [handles_append, List.mem_append] at h
    have hbefore (hmem : id ∈ History.handles log) := ih hmem herased.1
    rw [value?_concat]
    cases e with
    | inserted other value =>
      by_cases hid : id = other
      · simp [Event.after, hid]
      · have hmem : id ∈ History.handles log := by simpa [handles, Event.handle?, hid] using h
        simpa [Event.after, hid] using hbefore hmem
    | erased other =>
      have hid : id ≠ other := fun heq => herased.2 (heq ▸ rfl)
      have hmem : id ∈ History.handles log := by simpa [handles, Event.handle?] using h
      simpa [Event.after, hid] using hbefore hmem
    | updated other f =>
      have hmem : id ∈ History.handles log := by simpa [handles, Event.handle?] using h
      by_cases hid : id = other
      · simpa [Event.after, hid] using hid ▸ hbefore hmem
      · simpa [Event.after, hid] using hbefore hmem

end History

/-! ### Slots and generations -/

variable {a : Arena α} {id : TableId} {value : α} {log : History α}

/-- A slot that was not there starts with generation zero. -/
theorem Sound.generation_insert (h : a.Sound) (value : α) (hnew : a.slots[(a.insert value).1.slot]? = none) :
    (a.insert value).1.generation = 0 := by
  unfold Arena.insert at hnew ⊢
  split at hnew
  next slot free hfree =>
    obtain ⟨generation, hslot⟩ := h.vacant slot (by rw [hfree]; exact List.mem_cons_self)
    rw [hslot] at hnew
    cases hnew
  next => rfl

theorem slots_modify (h : a.get? id = some value) (f : α → α) (slot : Nat) :
    (a.modify id f).slots[slot]? =
      if slot = id.slot then some ⟨id.generation, some (f value)⟩ else a.slots[slot]? := by
  obtain ⟨s, hs, -, -⟩ := get?_eq_some.mp h
  obtain ⟨hlt, -⟩ := Array.getElem?_eq_some_iff.mp hs
  simp only [modify, h, Array.getElem?_setIfInBounds]
  grind

/-- The handles were given out in generations before that of their slots, and only the holder of a slot in its
    present one. -/
structure Tracked (a : Arena α) (log : History α) : Prop extends Counted a where
  mem_free : ∀ {slot generation}, a.slots[slot]? = some ⟨generation, none⟩ → slot ∈ a.free
  value : ∀ id, a.get? id = log.value? id
  unused : ∀ {slot}, a.slots[slot]? = none → log.frees slot = 0
  generation : ∀ {slot s}, a.slots[slot]? = some s → s.generation = UInt32.ofNat (log.frees slot)
  issued : ∀ {id}, id ∈ log.handles → ∃ s k, a.slots[id.slot]? = some s ∧ id.generation = UInt32.ofNat k ∧
    (k < log.frees id.slot ∨ k = log.frees id.slot ∧ s.value.isSome)
  erased : ∀ {id}, .erased id ∈ log → ∃ k < log.frees id.slot, id.generation = UInt32.ofNat k
  nodup : log.handles.Nodup

theorem tracked_empty : Tracked (empty : Arena α) [] where
  toCounted := counted_empty
  mem_free := nofun
  value _ := rfl
  unused _ := rfl
  generation := nofun
  issued := nofun
  erased := nofun
  nodup := .nil

theorem ne_of_lt {m n : Nat} (h : m < n) (hn : n < 2 ^ 32) : UInt32.ofNat m ≠ UInt32.ofNat n := by
  intro heq
  have := congrArg UInt32.toNat heq
  simp only [UInt32.toNat_ofNat'] at this
  omega

namespace Tracked

theorem generation_insert (h : Tracked a log) (value : α) :
    (a.insert value).1.generation = UInt32.ofNat (log.frees (a.insert value).1.slot) := by
  cases hs : a.slots[(a.insert value).1.slot]? with
  | none => rw [h.sound.generation_insert value hs, h.unused hs]; rfl
  | some s =>
    rw [← h.generation hs, (h.sound.slots_insert value).1 s hs]

/-- A handle that is given out was not given out before. -/
theorem not_mem_handles (h : Tracked a log) (hfrees : ∀ slot, log.frees slot < 2 ^ 32) (value : α) :
    (a.insert value).1 ∉ log.handles := by
  intro hmem
  obtain ⟨s, k, hs, hk, hlt | ⟨-, hvalue⟩⟩ := h.issued hmem
  · exact ne_of_lt hlt (hfrees _) (hk.symm.trans (h.generation_insert value))
  · rw [(h.sound.slots_insert value).1 s hs] at hvalue
    cases hvalue

theorem insert (h : Tracked a log) (hfrees : ∀ slot, log.frees slot < 2 ^ 32) (value : α) :
    Tracked (a.insert value).2 (log ++ [Event.inserted (a.insert value).1 value]) := by
  obtain ⟨hvacant, hslots⟩ := h.sound.slots_insert value
  have hgeneration := h.generation_insert value
  have hget := h.sound.get?_insert value
  have hfree : ∀ slot ∈ a.free, slot = (a.insert value).1.slot ∨ slot ∈ (a.insert value).2.free := by
    unfold Arena.insert
    split
    next taken free heq => simp [heq]
    next heq => simp [heq]
  have hnew := h.not_mem_handles hfrees value
  generalize (a.insert value).1 = new at *
  have hfrees' (slot : Nat) : History.frees (log ++ [Event.inserted new value]) slot = log.frees slot := by
    simp [History.frees, Event.frees]
  have hhandles : History.handles (log ++ [Event.inserted new value]) = log.handles ++ [new] := by
    simp [History.handles, Event.handle?]
  refine ⟨h.toCounted.insert value, ?mem_free, ?value, ?unused, ?generation, ?issued, ?erased, ?nodup⟩
  case mem_free =>
    intro slot generation hs
    rw [hslots] at hs
    split at hs
    next => cases hs
    next hne => exact (hfree slot (h.mem_free hs)).resolve_left hne
  case value =>
    intro id
    rw [hget, History.value?_concat, h.value]
    rfl
  case unused =>
    intro slot hs
    rw [hslots] at hs
    split at hs
    next => cases hs
    next => rw [hfrees', h.unused hs]
  case generation =>
    intro slot s hs
    rw [hslots] at hs
    rw [hfrees']
    split at hs
    next heq =>
      cases hs
      rw [heq]
      exact hgeneration
    next => exact h.generation hs
  case issued =>
    intro id hid
    rw [hhandles, List.mem_append, List.mem_singleton] at hid
    rw [hslots, hfrees']
    rcases hid with hid | rfl
    · obtain ⟨s, k, hs, hk, hcase⟩ := h.issued hid
      split
      next => exact ⟨_, k, rfl, hk, hcase.imp_right fun hcase => ⟨hcase.1, rfl⟩⟩
      next => exact ⟨s, k, hs, hk, hcase⟩
    · rw [if_pos rfl]
      exact ⟨_, _, rfl, hgeneration, .inr ⟨rfl, rfl⟩⟩
  case erased =>
    intro id hid
    rw [hfrees']
    exact h.erased (by simpa using hid)
  case nodup =>
    rw [hhandles]
    refine List.nodup_append.mpr ⟨h.nodup, List.nodup_singleton _, ?_⟩
    simpa using fun id hid => ne_of_mem_of_not_mem hid hnew

theorem erase (h : Tracked a log) (hid : a.get? id = some value) :
    Tracked (a.erase id).2 (log ++ [Event.erased id]) := by
  obtain ⟨hfree, hslots⟩ := slots_erase hid
  obtain ⟨held, hheld, hgeneration, -⟩ := get?_eq_some.mp hid
  have hget := get?_erase hid
  have hhandles : History.handles (log ++ [Event.erased id]) = log.handles := by
    rw [History.handles_append]
    exact List.append_nil _
  have hfrees (slot : Nat) : History.frees (log ++ [Event.erased id]) slot =
      log.frees slot + if slot = id.slot then 1 else 0 := by
    by_cases hslot : slot = id.slot
    · simp [History.frees, Event.frees, hslot]
    · simp [History.frees, Event.frees, hslot, Ne.symm hslot]
  refine ⟨h.toCounted.erase hid, ?mem_free, ?value, ?unused, ?generation, ?issued, ?erased, ?nodup⟩
  case mem_free =>
    intro slot generation hs
    rw [hslots] at hs
    rw [hfree, List.mem_cons]
    split at hs
    next heq => exact .inl heq
    next => exact .inr (h.mem_free hs)
  case value =>
    intro other
    rw [hget, History.value?_concat, h.value]
    rfl
  case unused =>
    intro slot hs
    rw [hslots] at hs
    rw [hfrees]
    split at hs
    next => cases hs
    next hne => rw [if_neg hne, h.unused hs]
  case generation =>
    intro slot s hs
    rw [hslots] at hs
    rw [hfrees]
    split at hs
    next heq =>
      cases hs
      rw [if_pos heq, UInt32.ofNat_add, heq, ← h.generation hheld, hgeneration]
      rfl
    next hne => rw [if_neg hne, h.generation hs, Nat.add_zero]
  case issued =>
    intro other hother
    rw [hhandles] at hother
    obtain ⟨s, k, hs, hk, hcase⟩ := h.issued hother
    rw [hslots, hfrees]
    split
    next heq => exact ⟨_, k, rfl, hk, .inl (by omega)⟩
    next => exact ⟨s, k, hs, hk, by simpa using hcase⟩
  case erased =>
    intro other hother
    rw [hfrees]
    simp only [List.mem_append, List.mem_singleton, Event.erased.injEq] at hother
    rcases hother with hother | rfl
    · obtain ⟨k, hlt, hk⟩ := h.erased hother
      exact ⟨k, by omega, hk⟩
    · exact ⟨log.frees other.slot, by simp, by rw [← hgeneration, h.generation hheld]⟩
  case nodup =>
    rw [hhandles]
    exact h.nodup

theorem modify (h : Tracked a log) (id : TableId) (f : α → α) :
    Tracked (a.modify id f) (log ++ [Event.updated id f]) := by
  -- Every slot keeps its generation, and a vacant one stays vacant.
  have hslots : ∀ slot : Nat, (a.modify id f).slots[slot]? = a.slots[slot]? ∨ ∃ s s' : Slot α, a.slots[slot]? = some s ∧
      (a.modify id f).slots[slot]? = some s' ∧ s'.generation = s.generation ∧ s.value.isSome ∧ s'.value.isSome := by
    intro slot
    cases hid : a.get? id with
    | none => exact .inl (by simp only [Arena.modify, hid])
    | some value =>
      obtain ⟨s, hs, hgeneration, hvalue⟩ := get?_eq_some.mp hid
      rw [slots_modify hid]
      split
      next heq => exact .inr ⟨s, _, heq ▸ hs, rfl, hgeneration.symm, by simp [hvalue], rfl⟩
      next => exact .inl rfl
  have hhandles : History.handles (log ++ [Event.updated id f]) = log.handles := by
    rw [History.handles_append]
    exact List.append_nil _
  have hfrees (slot : Nat) : History.frees (log ++ [Event.updated id f]) slot = log.frees slot := by
    simp [History.frees, Event.frees]
  refine ⟨h.toCounted.modify id f, ?mem_free, ?value, ?unused, ?generation, ?issued, ?erased, ?nodup⟩
  case mem_free =>
    intro slot generation hs
    rw [free_modify]
    rcases hslots slot with heq | ⟨-, s', -, hs', -, -, hvalue⟩
    · exact h.mem_free (heq ▸ hs)
    · rw [hs] at hs'
      cases hs'
      cases hvalue
  case value =>
    intro other
    rw [get?_modify, History.value?_concat, h.value, h.value]
    by_cases heq : other = id <;> simp [Event.after, heq]
  case unused =>
    intro slot hs
    rw [hfrees]
    rcases hslots slot with heq | ⟨-, s', -, hs', -⟩
    · exact h.unused (heq ▸ hs)
    · rw [hs] at hs'
      cases hs'
  case generation =>
    intro slot s hs
    rw [hfrees]
    rcases hslots slot with heq | ⟨old, s', hold, hs', hgeneration, -⟩
    · exact h.generation (heq ▸ hs)
    · rw [hs] at hs'
      cases hs'
      exact hgeneration.trans (h.generation hold)
  case issued =>
    intro other hother
    rw [hhandles] at hother
    rw [hfrees]
    obtain ⟨s, k, hs, hk, hcase⟩ := h.issued hother
    rcases hslots other.slot with heq | ⟨-, s', -, hs', -, -, hvalue⟩
    · exact ⟨s, k, heq ▸ hs, hk, hcase⟩
    · exact ⟨s', k, hs', hk, hcase.imp_right fun hcase => ⟨hcase.1, hvalue⟩⟩
  case erased =>
    intro other hother
    rw [hfrees]
    exact h.erased (by simpa using hother)
  case nodup =>
    rw [hhandles]
    exact h.nodup

theorem change (h : Tracked a log) (hfrees : ∀ slot, log.frees slot < 2 ^ 32) (c : Change α) :
    Tracked (a.change c).1 (log ++ (a.change c).2) := by
  cases c with
  | insert value => exact h.insert hfrees value
  | erase id =>
    cases hid : a.get? id with
    | none => simpa [Arena.change, Arena.erase, hid] using h
    | some value => simpa [Arena.change, Arena.erase, hid] using h.erase hid
  | update id f => exact h.modify id f

/-- A handle whose value was taken out stays stale while no slot comes round to an old generation. -/
theorem get?_of_erased (h : Tracked a log) (hfrees : ∀ slot, log.frees slot < 2 ^ 32) (hid : .erased id ∈ log) :
    a.get? id = none := by
  by_contra hlive
  obtain ⟨value, hvalue⟩ := Option.ne_none_iff_exists'.mp hlive
  obtain ⟨s, hs, hgeneration, -⟩ := get?_eq_some.mp hvalue
  obtain ⟨k, hlt, hk⟩ := h.erased hid
  exact ne_of_lt hlt (hfrees _) (by rw [← hk, ← hgeneration, h.generation hs])

end Tracked

/-! ### Runs -/

theorem run_concat (changes : List (Change α)) (c : Change α) : run (changes ++ [c]) = next (run changes) c :=
  List.foldl_concat ..

/-- Later changes only add to the history. -/
theorem exists_run_append (before after : List (Change α)) :
    ∃ log, (run (before ++ after)).2 = (run before).2 ++ log := by
  induction after using List.reverseRecOn with
  | nil => exact ⟨[], by simp⟩
  | append_singleton after c ih =>
    obtain ⟨log, hlog⟩ := ih
    exact ⟨log ++ _, by rw [← List.append_assoc, run_concat, next, hlog, List.append_assoc]⟩

theorem tracked_run (changes : List (Change α)) (hfrees : ∀ slot, (run changes).2.frees slot < 2 ^ 32) :
    Tracked (run changes).1 (run changes).2 := by
  induction changes using List.reverseRecOn with
  | nil => exact tracked_empty
  | append_singleton changes c ih =>
    have hbefore : ∀ slot, (run changes).2.frees slot < 2 ^ 32 := by
      intro slot
      obtain ⟨log, hlog⟩ := exists_run_append changes [c]
      have := hfrees slot
      rw [hlog, History.frees_append] at this
      omega
    rw [run_concat]
    exact (ih hbefore).change hbefore c

/-- What callers see of an arena with this history. -/
structure Mirrors (a : Arena α) (log : History α) : Prop where
  /-- No handle is given out twice. -/
  distinct : log.handles.Nodup
  /-- A handle reaches the value last stored under it. -/
  value : ∀ id, a.get? id = log.value? id
  /-- A handle is live from the time it is given out until its value is taken out. -/
  live : ∀ id, a.contains id = true ↔ id ∈ log.handles ∧ .erased id ∉ log
  /-- A change is not seen through other handles. -/
  frame : ∀ c id, id ≠ a.subject c → (a.change c).1.get? id = a.get? id
  /-- Taking out nothing changes nothing. -/
  refused : ∀ id, (a.erase id).1 = none → (a.erase id).2 = a
  /-- The count is that of the live handles. -/
  size : a.size = log.live.length
  /-- The live handles are listed, each once. -/
  ids : a.ids.Perm log.live
  /-- The values are listed with their handles. -/
  entries : a.toList.map (·.1) = a.ids ∧ ∀ entry ∈ a.toList, log.value? entry.1 = some entry.2
  /-- The lists are ordered by slots. -/
  ordered : a.ids.Pairwise fun id id' => id.slot < id'.slot
  /-- The free slots are those that hold nothing, each once. -/
  free : a.free.Nodup ∧ ∀ slot, slot ∈ a.free ↔ ∃ generation, a.slots[slot]? = some ⟨generation, none⟩

theorem Tracked.frame (h : Tracked a log) (c : Change α) (hid : id ≠ a.subject c) :
    (a.change c).1.get? id = a.get? id := by
  cases c with
  | insert value => exact (h.sound.get?_insert value id).trans (if_neg hid)
  | erase other =>
    cases hother : a.get? other with
    | none => simp only [Arena.change, Arena.erase, hother]
    | some value => exact (get?_erase hother id).trans (if_neg hid)
  | update other f => exact get?_modify_of_ne f hid

theorem erase_eq_self (h : (a.erase id).1 = none) : (a.erase id).2 = a := by
  unfold erase at h ⊢
  split at h <;> first | rfl | cases h

theorem Tracked.mirrors (h : Tracked a log) (hfrees : ∀ slot, log.frees slot < 2 ^ 32) : Mirrors a log := by
  have hmem (id : TableId) : id ∈ log.live ↔ (a.get? id).isSome := by
    rw [History.live, List.mem_filter, h.value]
    exact and_iff_right_of_imp History.mem_handles_of_value?
  have hnodup : log.live.Nodup := h.nodup.filter _
  refine ⟨h.nodup, h.value, fun id => ⟨fun hlive => ⟨?_, fun hid => ?_⟩, fun hid => ?_⟩, fun c id => h.frame c,
    fun id => erase_eq_self, ?_, ?_, ⟨rfl, fun entry hentry => ?_⟩, pairwise_ids, h.sound.nodup,
    fun slot => ⟨h.sound.vacant slot, fun ⟨generation, hs⟩ => h.mem_free hs⟩⟩
  · exact (List.mem_filter.mp ((hmem id).mpr hlive)).1
  · rw [contains, h.get?_of_erased hfrees hid] at hlive
    cases hlive
  · rw [contains, h.value]
    exact History.value?_of_mem_handles hid.1 hid.2
  · rw [h.size, length_toList_eq hnodup hmem]
  · exact (List.perm_ext_iff_of_nodup nodup_ids hnodup).mpr fun id => mem_ids.trans (hmem id).symm
  · rw [← h.value]
    exact mem_toList.mp hentry

/-- Slot storage is a map from handles to values, as long as no slot is freed `2 ^ 32` times: after any changes
    it answers as the history says, and a handle whose value was taken out is stale for ever after. -/
theorem run_mirrors (changes : List (Change α)) (hfrees : ∀ slot, (run changes).2.frees slot < 2 ^ 32) :
    Mirrors (run changes).1 (run changes).2 ∧
      ∀ before after, changes = before ++ after → ∀ id, .erased id ∈ (run before).2 →
        (run changes).1.get? id = none := by
  have h := tracked_run changes hfrees
  refine ⟨h.mirrors hfrees, ?_⟩
  rintro before after rfl id hid
  obtain ⟨log, hlog⟩ := exists_run_append before after
  exact h.get?_of_erased hfrees (by rw [hlog]; exact List.mem_append_left _ hid)

/-- A value comes and goes, and its slot is taken again. -/
def reusedSlot : List (Change String) :=
  [.insert "ab", .insert "cd", .erase ⟨0, 0⟩, .erase ⟨0, 0⟩, .insert "ef", .update ⟨0, 0⟩ fun s => s ++ "x",
    .update ⟨0, 1⟩ fun s => s ++ "y"]

theorem run_mirrors_reusedSlot :
    (∀ slot, (run reusedSlot).2.frees slot < 2 ^ 32) ∧ Mirrors (run reusedSlot).1 (run reusedSlot).2 ∧
      (run reusedSlot).2.handles = [⟨0, 0⟩, ⟨1, 0⟩, ⟨0, 1⟩] ∧ (run reusedSlot).1.get? ⟨0, 0⟩ = none ∧
      (run reusedSlot).1.get? ⟨0, 1⟩ = some "efy" := by
  have hfrees (slot : Nat) : (run reusedSlot).2.frees slot < 2 ^ 32 := by
    have hle : (run reusedSlot).2.frees slot ≤ (run reusedSlot).2.length := List.countP_le_length
    have hlength : (run reusedSlot).2.length = 6 := by decide
    omega
  have herased : .erased ⟨0, 0⟩ ∈ (run (reusedSlot.take 3)).2 := by
    simp [reusedSlot, run, next, change, insert, erase, empty, get?]
  obtain ⟨hmirrors, hstale⟩ := run_mirrors reusedSlot hfrees
  exact ⟨hfrees, hmirrors, by decide, hstale (reusedSlot.take 3) (reusedSlot.drop 3) rfl _ herased, by decide⟩

end ItemQuery.Arena
