import Mathlib.Data.List.Nodup
import Mathlib.Data.String.Basic
import ItemQuery.Dictionary

/-! What is found in a map after an entry was set. -/

namespace ItemQuery.Dictionary

variable {α : Type} {d : Dictionary α} {key other : String} {value : α}

theorem find?_insertEntry (key : String) (value : α) (entries : List (String × α)) (other : String) :
    (insertEntry key value entries).find? (·.1 == other) =
      if other = key then some (key, value) else entries.find? (·.1 == other) := by
  fun_induction insertEntry key value entries with
  | case1 => grind
  | case2 k v rest hlt => grind
  | case3 v rest hlt => grind
  | case4 k v rest hlt hne ih => grind

theorem get?_insert (d : Dictionary α) (key : String) (value : α) (other : String) :
    (d.insert key value).get? other = if other = key then some value else d.get? other := by
  rw [get?, insert, find?_insertEntry]
  split <;> rfl

theorem contains_iff : d.contains key = true ↔ ∃ value, d.get? key = some value :=
  Option.isSome_iff_exists

theorem contains_iff_mem_keys : d.contains key = true ↔ key ∈ d.keys := by
  simp [contains, get?, keys, List.find?_isSome]

theorem mem_keys_insert : other ∈ (d.insert key value).keys ↔ other = key ∨ other ∈ d.keys := by
  simp only [← contains_iff_mem_keys, contains, get?_insert]
  split
  next heq => simp [heq]
  next hne => simp [hne]

theorem mem_keys_foldl {entries : List (String × α)} {d : Dictionary α} :
    other ∈ (entries.foldl (fun d entry => d.insert entry.1 entry.2) d).keys ↔
      other ∈ d.keys ∨ other ∈ entries.map (·.1) := by
  induction entries generalizing d with
  | nil => simp
  | cons entry entries ih =>
    rw [List.foldl_cons, ih, mem_keys_insert, List.map_cons, List.mem_cons]
    tauto

theorem mem_keys_ofList {entries : List (String × α)} : other ∈ (ofList entries).keys ↔ other ∈ entries.map (·.1) := by
  rw [ofList, mem_keys_foldl]
  simp [keys]

theorem get?_foldl_of_not_mem {entries : List (String × α)} (h : key ∉ entries.map (·.1)) (d : Dictionary α) :
    (entries.foldl (fun d entry => d.insert entry.1 entry.2) d).get? key = d.get? key := by
  induction entries generalizing d with
  | nil => rfl
  | cons entry entries ih =>
    rw [List.map_cons, List.mem_cons, not_or] at h
    rw [List.foldl_cons, ih h.2, get?_insert, if_neg h.1]

theorem get?_ofList {entries : List (String × α)} (hnodup : (entries.map (·.1)).Nodup) (h : (key, value) ∈ entries) :
    (ofList entries).get? key = some value := by
  rw [ofList]
  generalize ({} : Dictionary α) = d
  induction entries generalizing d with
  | nil => cases h
  | cons entry entries ih =>
    rw [List.map_cons, List.nodup_cons] at hnodup
    rw [List.foldl_cons]
    rcases List.mem_cons.mp h with rfl | h
    · rw [get?_foldl_of_not_mem hnodup.1, get?_insert, if_pos rfl]
    · exact ih hnodup.2 h _

/-! ### The order of keys -/

/-- Keys stand in their order, each once. -/
def Ordered (d : Dictionary α) : Prop :=
  d.keys.Pairwise (· < ·)

theorem Ordered.insert (h : d.Ordered) (key : String) (value : α) : (d.insert key value).Ordered := by
  obtain ⟨entries⟩ := d
  simp only [Ordered, keys, Dictionary.insert] at h ⊢
  fun_induction insertEntry key value entries with
  | case1 => simp
  | case2 k v rest hlt =>
    rw [List.map_cons, List.pairwise_cons]
    refine ⟨fun a ha => ?_, h⟩
    rcases List.mem_cons.mp ha with rfl | ha
    · exact hlt
    · exact lt_trans hlt ((List.pairwise_cons.mp h).1 a ha)
  | case3 v rest hlt => exact h
  | case4 k v rest hlt hne ih =>
    obtain ⟨hfirst, hrest⟩ := List.pairwise_cons.mp h
    rw [List.map_cons, List.pairwise_cons]
    refine ⟨fun a ha => ?_, ih hrest⟩
    have hmem : a = key ∨ a ∈ rest.map (·.1) := mem_keys_insert (d := ⟨rest⟩) |>.mp ha
    rcases hmem with rfl | hmem
    · exact lt_of_le_of_ne (not_lt.mp hlt) (Ne.symm hne)
    · exact hfirst a hmem

theorem ordered_ofList (entries : List (String × α)) : (ofList entries).Ordered := by
  have hfold : ∀ d : Dictionary α, d.Ordered → (entries.foldl (fun d entry => d.insert entry.1 entry.2) d).Ordered := by
    induction entries with
    | nil => exact fun d hd => hd
    | cons entry entries ih => exact fun d hd => ih _ (hd.insert entry.1 entry.2)
  exact hfold {} List.Pairwise.nil

theorem Ordered.nodup_keys (h : d.Ordered) : d.keys.Nodup :=
  h.imp fun hlt => ne_of_lt hlt

theorem Ordered.get?_eq_some_iff (h : d.Ordered) : d.get? key = some value ↔ (key, value) ∈ d.entries := by
  rw [get?, Option.map_eq_some_iff]
  constructor
  · rintro ⟨⟨k, v⟩, hfind, rfl⟩
    have hk : k = key := by simpa using List.find?_some hfind
    exact hk ▸ List.mem_of_find?_eq_some hfind
  · intro hmem
    obtain ⟨entry, hentry⟩ := Option.isSome_iff_exists.mp
      (List.find?_isSome.mpr ⟨(key, value), hmem, by simp⟩ : (d.entries.find? (·.1 == key)).isSome)
    have hkey : entry.1 = key := by simpa using List.find?_some hentry
    -- Each key stands once.
    have hsame := List.inj_on_of_nodup_map h.nodup_keys (List.mem_of_find?_eq_some hentry) hmem hkey
    exact ⟨entry, hentry, by rw [hsame]⟩

end ItemQuery.Dictionary
