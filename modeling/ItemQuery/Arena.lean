/-! Slot storage whose handles go stale. A removed slot may be used again, but under a new generation, so
    that a handle of the removed value never reaches the new one. -/

namespace ItemQuery

/-- The handle of a table: a slot and the generation of the value in it. Slots are numbered without a bound,
    which stands for the 32 bits of a real handle as long as there are fewer than `2 ^ 32` slots. -/
structure TableId where
  slot : Nat
  generation : UInt32
deriving DecidableEq, Repr, Inhabited

namespace TableId

/-- The name of a table in messages and expression texts. -/
def name (id : TableId) : String :=
  "t" ++ toString id.slot

/-- By slot, then by generation. -/
def compare (a b : TableId) : Ordering :=
  (Ord.compare a.slot b.slot).then (Ord.compare a.generation b.generation)

end TableId

/-- A slot holds a value, or is free and counts how often it was freed. -/
structure Slot (α : Type) where
  generation : UInt32
  value : Option α
deriving Repr

/-- Values in slots; the free slots are taken again, the last freed first. -/
structure Arena (α : Type) where
  slots : Array (Slot α) := #[]
  free : List Nat := []
  /-- The number of live values, counted as they come and go. -/
  size : Nat := 0
deriving Repr

namespace Arena

variable {α : Type}

/-- No slots at all. -/
def empty : Arena α := {}

/-- The value of a handle, unless it is stale. -/
def get? (a : Arena α) (id : TableId) : Option α :=
  (a.slots[id.slot]?).bind fun s => if s.generation = id.generation then s.value else none

/-- Whether the handle is live. -/
def contains (a : Arena α) (id : TableId) : Bool :=
  (a.get? id).isSome

/-- Puts a value into the last freed slot, or into a new one. -/
def insert (a : Arena α) (value : α) : TableId × Arena α :=
  match a.free with
  | slot :: free =>
    let generation := ((a.slots[slot]?).map (·.generation)).getD 0
    (⟨slot, generation⟩,
      { slots := a.slots.setIfInBounds slot ⟨generation, some value⟩, free, size := a.size + 1 })
  | [] => (⟨a.slots.size, 0⟩, { a with slots := a.slots.push ⟨0, some value⟩, size := a.size + 1 })

/-- Replaces the value of a live handle; a stale one changes nothing. -/
def modify (a : Arena α) (id : TableId) (f : α → α) : Arena α :=
  match a.get? id with
  | some value => { a with slots := a.slots.setIfInBounds id.slot ⟨id.generation, some (f value)⟩ }
  | none => a

/-- Frees the slot of a live handle and moves it to the next generation. -/
def erase (a : Arena α) (id : TableId) : Option α × Arena α :=
  match a.get? id with
  | some value =>
    (some value,
      { slots := a.slots.setIfInBounds id.slot ⟨id.generation + 1, none⟩, free := id.slot :: a.free,
        size := a.size - 1 })
  | none => (none, a)

/-- The live values with their handles, by slot. -/
def toList (a : Arena α) : List (TableId × α) :=
  a.slots.toList.zipIdx.filterMap fun s => s.1.value.map fun value => (⟨s.2, s.1.generation⟩, value)

/-- The live handles, by slot. -/
def ids (a : Arena α) : List TableId :=
  a.toList.map (·.1)

end Arena
end ItemQuery
