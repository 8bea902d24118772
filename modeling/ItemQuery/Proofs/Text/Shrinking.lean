import Mathlib.Algebra.GroupWithZero.Nat
import Mathlib.Algebra.Order.BigOperators.Group.List
import Mathlib.Algebra.Order.Group.Nat
import Mathlib.Data.List.Forall2
import ItemQuery.Proofs.Result

/-! Lists that lose entries. Each entry that is left is no longer than it was and of the same kind, so that the joined
    text gets shorter once an entry is lost or has got shorter. -/

namespace ItemQuery

variable {α β κ : Type} {size : α → Nat} {kind : α → κ} {p p' : Prop} {as as' bs bs' : List α}

/-- An entry that may have got shorter. -/
def Shortened (size : α → Nat) (kind : α → κ) (a' a : α) : Prop :=
  size a' ≤ size a ∧ kind a' = kind a

/-- The sizes of the entries, each with a mark. -/
def load (size : α → Nat) (as : List α) : Nat :=
  (as.map (size · + 1)).sum

/-- What is left of a list; it is less if `p` holds. -/
structure Leaves (size : α → Nat) (kind : α → κ) (p : Prop) (as' as : List α) : Prop where
  entries : List.SublistForall₂ (Shortened size kind) as' as
  less : p → load size as' < load size as

@[simp] theorem load_cons (a : α) (as : List α) : load size (a :: as) = size a + 1 + load size as :=
  rfl

theorem load_append (as bs : List α) : load size (as ++ bs) = load size as + load size bs := by
  rw [load, List.map_append, List.sum_append, load, load]

theorem load_le (h : List.SublistForall₂ (Shortened size kind) as' as) : load size as' ≤ load size as := by
  induction h with
  | nil => exact Nat.zero_le _
  | cons hfirst hrest ih => exact Nat.add_le_add (Nat.add_le_add_right hfirst.1 1) ih
  | cons_right hrest ih => exact Nat.le_add_left_of_le ih

/-- Entries with something added by their kind lose as much. -/
theorem sum_add_load_le {extra : κ → Nat} (hextra : ∀ k, 0 < extra k)
    (h : List.SublistForall₂ (Shortened size kind) as' as) :
    (as'.map fun a => size a + extra (kind a)).sum + load size as ≤
      (as.map fun a => size a + extra (kind a)).sum + load size as' := by
  induction h with
  | @nil as =>
    have hall : load size as ≤ (as.map fun a => size a + extra (kind a)).sum :=
      List.sum_le_sum fun a _ => Nat.add_le_add_left (hextra (kind a)) _
    simpa [load] using hall
  | @cons a' a as' as hfirst hrest ih =>
    simp only [List.map_cons, List.sum_cons, load_cons, hfirst.2]
    omega
  | @cons_right a as' as hrest ih =>
    simp only [List.map_cons, List.sum_cons, load_cons]
    have hmark := hextra (kind a)
    omega

theorem sublistForall₂_append {R : α → α → Prop} (h : List.SublistForall₂ R as' as)
    (h' : List.SublistForall₂ R bs' bs) : List.SublistForall₂ R (as' ++ bs') (as ++ bs) := by
  induction h with
  | @nil as =>
    induction as with
    | nil => exact h'
    | cons a as ih => exact .cons_right ih
  | cons hfirst hrest ih => exact .cons hfirst ih
  | cons_right hrest ih => exact .cons_right ih

namespace Leaves

theorem append (h : Leaves size kind p as' as) (h' : Leaves size kind p' bs' bs) :
    Leaves size kind (p ∨ p') (as' ++ bs') (as ++ bs) where
  entries := sublistForall₂_append h.entries h'.entries
  less := by
    rw [load_append, load_append]
    rintro (hp | hp)
    · exact Nat.add_lt_add_of_lt_of_le (h.less hp) (load_le h'.entries)
    · exact Nat.add_lt_add_of_le_of_lt (load_le h.entries) (h'.less hp)

theorem mono (h : Leaves size kind p as' as) (hp : p' → p) : Leaves size kind p' as' as :=
  ⟨h.entries, fun hp' => h.less (hp hp')⟩

theorem refl (as : List α) : Leaves size kind False as as := by
  refine ⟨?_, False.elim⟩
  induction as with
  | nil => exact .nil
  | cons a as ih => exact .cons ⟨le_rfl, rfl⟩ ih

theorem cons (h : Leaves size kind p as' as) (a : α) : Leaves size kind p (a :: as') (a :: as) :=
  ((refl [a]).append h).mono .inr

/-- Entries for what is there. -/
theorem of_option {o o' : Option β} (f : β → α) (h : o' = none ∨ o' = o) :
    Leaves size kind (o' ≠ o) (o'.map f).toList (o.map f).toList := by
  rcases h with rfl | rfl
  · cases o with
    | none => exact ⟨.nil, fun hne => absurd rfl hne⟩
    | some a => exact ⟨.nil, fun _ => Nat.succ_pos _⟩
  · exact (refl _).mono fun hne => hne rfl

/-- An entry for a list that is not empty. -/
theorem of_list {bs bs' : List β} (f : List β → α) (h : bs' = [] ∨ bs' = bs) :
    Leaves size kind (bs' ≠ bs) (if bs'.isEmpty then none else some (f bs')).toList
      (if bs.isEmpty then none else some (f bs)).toList := by
  rcases h with rfl | rfl
  · cases bs with
    | nil => exact ⟨.nil, fun hne => absurd rfl hne⟩
    | cons b bs => exact ⟨.nil, fun _ => Nat.succ_pos _⟩
  · exact (refl _).mono fun hne => hne rfl

theorem map {γ κ' : Type} {size' : γ → Nat} {kind' : γ → κ'} (h : Leaves size kind p as' as) (f : α → γ)
    (hsize : ∀ a, size' (f a) = size a) (hkind : ∀ a b, kind a = kind b → kind' (f a) = kind' (f b)) :
    Leaves size' kind' p (as'.map f) (as.map f) where
  entries := by
    rw [List.sublistForall₂_map_left_iff, List.sublistForall₂_map_right_iff]
    obtain ⟨kept, hkept, hsub⟩ := List.sublistForall₂_iff.mp h.entries
    refine List.sublistForall₂_iff.mpr ⟨kept, hkept.imp fun a' a ha => ?_, hsub⟩
    exact ⟨by rw [hsize, hsize]; exact ha.1, hkind a' a ha.2⟩
  less hp := by
    have hload : ∀ as, load size' (as.map f) = load size as := fun as => by
      rw [load, List.map_map, load]
      exact congrArg List.sum (List.map_congr_left fun a _ => congrArg (· + 1) (hsize a))
    rw [hload, hload]
    exact h.less hp

theorem singleton {a a' : α} (h : Shortened size kind a' a) (hless : p → size a' < size a) :
    Leaves size kind p [a'] [a] :=
  ⟨.cons h .nil, fun hp => Nat.add_lt_add_right (hless hp) 1⟩

/-- Runs over the same list leave what each run leaves. -/
theorem flatten_mapM {f f' : β → Result (List α)} {P : β → Prop} {bs : List β} {ass ass' : List (List α)}
    (h : bs.mapM f = .ok ass) (h' : bs.mapM f' = .ok ass')
    (hall : ∀ b ∈ bs, ∀ as as', f b = .ok as → f' b = .ok as' → Leaves size kind (P b) as' as) :
    Leaves size kind (∃ b ∈ bs, P b) ass'.flatten ass.flatten := by
  induction bs generalizing ass ass' with
  | nil =>
    cases h
    cases h'
    exact ⟨.nil, fun ⟨_, hb, _⟩ => nomatch hb⟩
  | cons b bs ih =>
    rw [List.forall_mem_cons] at hall
    rw [List.mapM_cons] at h h'
    obtain ⟨as, has, h⟩ := Result.bind_eq_ok.mp h
    obtain ⟨rest, hrest, h⟩ := Result.bind_eq_ok.mp h
    obtain ⟨as', has', h'⟩ := Result.bind_eq_ok.mp h'
    obtain ⟨rest', hrest', h'⟩ := Result.bind_eq_ok.mp h'
    cases h
    cases h'
    refine ((hall.1 as as' has has').append (ih hrest hrest' hall.2)).mono ?_
    rintro ⟨b', hb', hP⟩
    rcases List.mem_cons.mp hb' with rfl | hb'
    · exact .inl hP
    · exact .inr ⟨b', hb', hP⟩

/-- The same for runs that give one entry each. -/
theorem of_mapM {f f' : β → Result α} {P : β → Prop} {bs : List β} {as as' : List α}
    (h : bs.mapM f = .ok as) (h' : bs.mapM f' = .ok as')
    (hall : ∀ b ∈ bs, ∀ a a', f b = .ok a → f' b = .ok a' → Shortened size kind a' a ∧ (P b → size a' < size a)) :
    Leaves size kind (∃ b ∈ bs, P b) as' as := by
  induction bs generalizing as as' with
  | nil =>
    cases h
    cases h'
    exact ⟨.nil, fun ⟨_, hb, _⟩ => nomatch hb⟩
  | cons b bs ih =>
    rw [List.forall_mem_cons] at hall
    rw [List.mapM_cons] at h h'
    obtain ⟨a, ha, h⟩ := Result.bind_eq_ok.mp h
    obtain ⟨rest, hrest, h⟩ := Result.bind_eq_ok.mp h
    obtain ⟨a', ha', h'⟩ := Result.bind_eq_ok.mp h'
    obtain ⟨rest', hrest', h'⟩ := Result.bind_eq_ok.mp h'
    cases h
    cases h'
    obtain ⟨hshort, hless⟩ := hall.1 a a' ha ha'
    refine ((singleton hshort hless).append (ih hrest hrest' hall.2)).mono ?_
    rintro ⟨b', hb', hP⟩
    rcases List.mem_cons.mp hb' with rfl | hb'
    · exact .inl hP
    · exact .inr ⟨b', hb', hP⟩

end Leaves

/-! ### Joined texts -/

theorem length_intercalate (sep s : String) (ss : List String) :
    (sep.intercalate (s :: ss)).length + sep.length = ((s :: ss).map (·.length + sep.length)).sum := by
  induction ss generalizing s with
  | nil => simp
  | cons next ss ih =>
    rw [String.intercalate_cons_cons, List.map_cons, List.sum_cons, ← ih next]
    simp only [String.length_append]
    omega

/-- What is left of joined texts is no longer, and shorter if something is lost. -/
theorem length_intercalate_of_leaves {s s' : String} {ss ss' : List String} {sep : String} (hsep : 0 < sep.length)
    (h : Leaves String.length (fun _ => ()) p (s' :: ss') (s :: ss)) :
    (sep.intercalate (s' :: ss')).length ≤ (sep.intercalate (s :: ss)).length ∧
      (p → (sep.intercalate (s' :: ss')).length < (sep.intercalate (s :: ss)).length) := by
  have hsum := sum_add_load_le (fun _ => hsep) h.entries
  have hload := load_le h.entries
  have hless := h.less
  have hold := length_intercalate sep s ss
  have hnew := length_intercalate sep s' ss'
  refine ⟨by omega, fun hp => ?_⟩
  have := hless hp
  omega

end ItemQuery
