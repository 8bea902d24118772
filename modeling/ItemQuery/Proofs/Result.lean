import Mathlib.Data.List.Forall2
import ItemQuery.Error

/-! Outcomes taken apart. -/

namespace ItemQuery.Result

theorem bind_eq_ok {α β : Type} {x : Result α} {f : α → Result β} {b : β} :
    (x >>= f) = .ok b ↔ ∃ a, x = .ok a ∧ f a = .ok b := by
  cases x with
  | error err => simp [bind, Except.bind]
  | ok a => simp [bind, Except.bind]

theorem ok_bind {α β : Type} (a : α) (f : α → Result β) : ((.ok a : Result α) >>= f) = f a :=
  rfl

theorem error_bind {α β : Type} (err : QueryError) (f : α → Result β) : ((.error err : Result α) >>= f) = .error err :=
  rfl

theorem map_eq_ok {α β : Type} {x : Result α} {f : α → β} {b : β} : x.map f = .ok b ↔ ∃ a, x = .ok a ∧ f a = b := by
  cases x with
  | error err => simp [Except.map]
  | ok a => simp [Except.map]

theorem toOption_eq_some {α : Type} {x : Result α} {a : α} : x.toOption = some a ↔ x = .ok a := by
  cases x with
  | error err => simp [Except.toOption]
  | ok b => simp [Except.toOption]

theorem pure_eq_ok {α : Type} {a b : α} : (pure a : Result α) = .ok b ↔ a = b := by
  simp [pure, Except.pure]

theorem mapM_eq_ok {α β : Type} {f : α → Result β} {g : α → β} {as : List α} (h : ∀ a ∈ as, f a = .ok (g a)) :
    as.mapM f = .ok (as.map g) := by
  induction as with
  | nil => rfl
  | cons a as ih =>
    rw [List.forall_mem_cons] at h
    rw [List.mapM_cons, h.1, ih h.2]
    rfl

theorem mapM_congr {α β : Type} {f g : α → Result β} {as : List α} (h : ∀ a ∈ as, f a = g a) : as.mapM f = as.mapM g := by
  induction as with
  | nil => rfl
  | cons a as ih =>
    rw [List.forall_mem_cons] at h
    rw [List.mapM_cons, List.mapM_cons, h.1, ih h.2]

theorem mapM_eq_ok_iff {α β : Type} {f : α → Result β} {as : List α} {bs : List β} :
    as.mapM f = .ok bs ↔ List.Forall₂ (fun a b => f a = .ok b) as bs := by
  induction as generalizing bs with
  | nil => rw [List.mapM_nil, pure_eq_ok, List.forall₂_nil_left_iff, eq_comm]
  | cons a as ih =>
    rw [List.mapM_cons, bind_eq_ok, List.forall₂_cons_left_iff]
    simp only [bind_eq_ok, pure_eq_ok, ih]
    constructor
    · rintro ⟨b, hb, bs, hbs, rfl⟩
      exact ⟨b, bs, hb, hbs, rfl⟩
    · rintro ⟨b, bs, hb, hbs, rfl⟩
      exact ⟨b, hb, bs, hbs, rfl⟩

theorem exists_of_mem {α β : Type} {f : α → Result β} {as : List α} {bs : List β} (h : as.mapM f = .ok bs) {b : β}
    (hb : b ∈ bs) : ∃ a ∈ as, f a = .ok b := by
  have hall := mapM_eq_ok_iff.mp h
  obtain ⟨i, hi, rfl⟩ := List.mem_iff_getElem.mp hb
  have hi' : i < as.length := hall.length_eq ▸ hi
  exact ⟨as[i], List.getElem_mem hi', hall.get hi' hi⟩

theorem exists_mem_of_mapM {α β : Type} {f : α → Result β} {as : List α} {bs : List β} (h : as.mapM f = .ok bs) {a : α}
    (ha : a ∈ as) : ∃ b ∈ bs, f a = .ok b := by
  have hall := mapM_eq_ok_iff.mp h
  obtain ⟨i, hi, rfl⟩ := List.mem_iff_getElem.mp ha
  have hi' : i < bs.length := hall.length_eq ▸ hi
  exact ⟨bs[i], List.getElem_mem hi', hall.get hi hi'⟩

/-! ### Same results -/

section
variable {α β γ : Type}

/-- Two outcomes with the same result, if any; their complaints may differ. -/
def Agrees (x y : Result α) : Prop :=
  x.toOption = y.toOption

theorem agrees_of_eq {x y : Result α} (h : x = y) : Agrees x y :=
  congrArg _ h

theorem Agrees.bind {x y : Result α} {f g : α → Result β} (h : Agrees x y) (hfg : ∀ a, y = .ok a → Agrees (f a) (g a)) :
    Agrees (x >>= f) (y >>= g) := by
  cases x with
  | error => cases y with
    | error => rfl
    | ok b => cases h
  | ok a => cases y with
    | error => cases h
    | ok b =>
      cases h
      exact hfg a rfl

theorem Agrees.mapM {as : List α} {m : α → γ} {f : γ → Result β} {g : α → Result β}
    (h : ∀ a ∈ as, Agrees (f (m a)) (g a)) : Agrees ((as.map m).mapM f) (as.mapM g) := by
  induction as with
  | nil => rfl
  | cons a as ih =>
    rw [List.forall_mem_cons] at h
    rw [List.map_cons, List.mapM_cons, List.mapM_cons]
    exact h.1.bind fun b _ => (ih h.2).bind fun bs _ => agrees_of_eq rfl

/-- A step that is taken on a condition, or else replaced by a default. -/
theorem Agrees.optional {x y : Result α} {g : α → β} {default : β} {k l : β → Result γ} (h : Agrees x y)
    (hkl : ∀ b, Agrees (k b) (l b)) (c : Bool) :
    Agrees (if c = true then x >>= fun a => pure (g a) >>= k else pure default >>= k)
      (if c = true then y >>= fun a => pure (g a) >>= l else pure default >>= l) := by
  cases c with
  | true => exact h.bind fun a _ => hkl (g a)
  | false => exact hkl default

end

/-! ### Safe outcomes -/

section
variable {α β : Type} {P : α → Prop} {Q : β → Prop} {x : Result α}

/-- A result satisfies `P`, and where there is none, no dead table handle is to blame. -/
inductive Safe (P : α → Prop) : Result α → Prop
  | ok {a : α} (h : P a) : Safe P (.ok a)
  | error {err : QueryError} (h : ∀ slot, err ≠ .stale slot) : Safe P (.error err)

@[simp] theorem safe_ok {a : α} : Safe P (.ok a) ↔ P a :=
  ⟨fun | .ok h => h, .ok⟩

@[simp] theorem safe_pure {a : α} : Safe P (pure a) ↔ P a :=
  safe_ok

@[simp] theorem safe_error {err : QueryError} : Safe P (.error err) ↔ ∀ slot, err ≠ .stale slot :=
  ⟨fun | .error h => h, .error⟩

theorem Safe.of_eq_ok {a : α} (h : Safe P x) (hx : x = .ok a) : P a :=
  safe_ok.mp (hx ▸ h)

theorem Safe.of_eq_error {err : QueryError} (h : Safe P x) (hx : x = .error err) : Safe Q (.error err) :=
  .error (safe_error.mp (hx ▸ h))

theorem Safe.mono {P' : α → Prop} (h : Safe P x) (hP : ∀ a, P a → P' a) : Safe P' x := by
  cases h with
  | ok h => exact .ok (hP _ h)
  | error h => exact .error h

theorem Safe.bind {f : α → Result β} (h : Safe P x) (hf : ∀ a, P a → Safe Q (f a)) : Safe Q (x >>= f) := by
  cases h with
  | ok h => exact hf _ h
  | error h => exact .error h

@[simp] theorem safe_map {f : α → β} : Safe Q (x.map f) ↔ Safe (fun a => Q (f a)) x := by
  cases x <;> simp [Except.map]

theorem Safe.map {f : α → β} (h : Safe P x) (hf : ∀ a, P a → Q (f a)) : Safe Q (x.map f) :=
  safe_map.mpr (h.mono hf)

theorem Safe.mapM {f : α → Result β} {as : List α} (hf : ∀ a ∈ as, Safe Q (f a)) :
    Safe (fun bs => ∀ b ∈ bs, Q b) (as.mapM f) := by
  induction as with
  | nil => simp
  | cons a as ih =>
    rw [List.mapM_cons]
    refine (hf a List.mem_cons_self).bind fun b hb => ?_
    refine (ih fun a ha => hf a (List.mem_cons_of_mem _ ha)).bind fun bs hbs => ?_
    simpa using ⟨hb, hbs⟩

theorem Safe.foldlM {f : β → α → Result β} {as : List α} {b : β} (hb : Q b) (hf : ∀ b a, Q b → Safe Q (f b a)) :
    Safe Q (as.foldlM f b) := by
  induction as generalizing b with
  | nil => exact .ok hb
  | cons a as ih =>
    rw [List.foldlM_cons]
    exact (hf b a hb).bind fun _ hb => ih hb

end

end ItemQuery.Result
