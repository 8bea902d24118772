/-! Maps with text keys, kept in the order of their keys. -/

namespace ItemQuery

/-- Entries in the order of their keys, each key once. -/
structure Dictionary (α : Type) where
  entries : List (String × α) := []
deriving DecidableEq, Repr

namespace Dictionary

variable {α : Type}

instance : Inhabited (Dictionary α) := ⟨{}⟩

/-- Puts an entry in its place; an entry of the same key is replaced. -/
def insertEntry (key : String) (value : α) : List (String × α) → List (String × α)
  | [] => [(key, value)]
  | (k, v) :: rest =>
    if key < k then (key, value) :: (k, v) :: rest
    else if key = k then (key, value) :: rest
    else (k, v) :: insertEntry key value rest

/-- Sets the value of a key. -/
def insert (d : Dictionary α) (key : String) (value : α) : Dictionary α :=
  ⟨insertEntry key value d.entries⟩

/-- The value of a key. -/
def get? (d : Dictionary α) (key : String) : Option α :=
  (d.entries.find? (·.1 == key)).map (·.2)

/-- Whether the key has a value. -/
def contains (d : Dictionary α) (key : String) : Bool :=
  (d.get? key).isSome

/-- The entries as a map; of several values of a key the last one stays. -/
def ofList (entries : List (String × α)) : Dictionary α :=
  entries.foldl (fun d entry => d.insert entry.1 entry.2) {}

/-- Whether there is no entry. -/
def isEmpty (d : Dictionary α) : Bool :=
  d.entries.isEmpty

/-- The keys in order. -/
def keys (d : Dictionary α) : List String :=
  d.entries.map (·.1)

/-- The number of entries. -/
def size (d : Dictionary α) : Nat :=
  d.entries.length

end Dictionary
end ItemQuery
