import ItemQuery.Proofs.Query.Renaming
import ItemQuery.Proofs.Query.Subtrees

/-! The types of tables below a copied one. A table without a type of its own asks the table behind its provider, and
    that one the next; inside of the copied subtree the copies ask one another in the same way. A handle that leads out
    of the subtree is kept as it is, so that it asks whatever table it names among those of the target. -/

namespace ItemQuery

open Relation

namespace Query

/-- The table has no type of its own, and `p` is the property that leads to it. -/
def ProvidedBy (q : Query) (t : TableId) (p : PropertyRef) : Prop :=
  ∃ item, q.get? t = some item ∧ item.typeName = none ∧ item.provider = some p

/-- The search for the type of a table, over as many properties as it takes. -/
inductive Resolves (lookup : String → String → Option PropertyDescriptor) (q : Query) : TableId → Option String → Prop
  | stale {t : TableId} (ht : q.get? t = none) : Resolves lookup q t none
  | own {t : TableId} {item : QueryItem} {name : String} (ht : q.get? t = some item) (hname : item.typeName = some name) :
    Resolves lookup q t (some name)
  | unprovided {t : TableId} {item : QueryItem} (ht : q.get? t = some item) (hname : item.typeName = none)
    (hp : item.provider = none) : Resolves lookup q t none
  | provided {t : TableId} {p : PropertyRef} {parent r : Option String} (ht : q.ProvidedBy t p)
    (hparent : Resolves lookup q p.table parent)
    (hr : (parent.bind fun name => (lookup name p.name).bind (·.dataSource)) = r) : Resolves lookup q t r

/-- The search for the type of `t` comes to `u`. -/
def Consults (q : Query) (t u : TableId) : Prop :=
  ReflTransGen (fun a b => ∃ p, q.ProvidedBy a p ∧ p.table = b) t u

/-- A table whose property leads to itself is asked again and again. -/
theorem not_resolves_of_circle {lookup : String → String → Option PropertyDescriptor} {q : Query} {t : TableId}
    {p : PropertyRef} (hp : q.ProvidedBy t p) (ht : p.table = t) {r : Option String} : ¬q.Resolves lookup t r := by
  obtain ⟨item, hitem, hname, hprovider⟩ := hp
  intro h
  induction h with
  | stale hstale => cases hstale.symm.trans hitem
  | own hown hsome =>
    cases hown.symm.trans hitem
    cases hsome.symm.trans hname
  | unprovided hown _ hnone =>
    cases hown.symm.trans hitem
    cases hnone.symm.trans hprovider
  | provided hother _ _ ih =>
    obtain ⟨other, hother, -, hp⟩ := hother
    cases hother.symm.trans hitem
    cases hp.symm.trans hprovider
    exact ih rfl (ht.symm ▸ hitem)

/-- The search for the type of a table comes to `u`, which is the first that does not lie below `s`. -/
inductive LeavesAt (q : Query) (s : TableId) : TableId → TableId → Prop
  | here {u : TableId} (hu : ¬q.Descends s u) : LeavesAt q s u u
  | further {t u : TableId} {p : PropertyRef} (ht : q.Descends s t) (hp : q.ProvidedBy t p)
    (hrest : LeavesAt q s p.table u) : LeavesAt q s t u

end Query

/-! ### Bounds -/

namespace Context

variable {ctx : Context} {q : Query} {t : TableId} {n : Nat} {name : String} {r : Option String}

/-- A type that is found at all is found over tables that are all different, and thus within the bound. -/
theorem tableTypeName_of_typeNameWithin (h : ctx.typeNameWithin q n t = some name) :
    ctx.tableTypeName q t = some name := by
  let tables := t :: q.tables.filterMap fun entry => entry.2.provider.map (·.table)
  have hclosed : ∀ a ∈ tables, ∀ item, q.get? a = some item → ∀ p, item.provider = some p → p.table ∈ tables := by
    intro a _ item hitem p hp
    refine List.mem_cons_of_mem _ (List.mem_filterMap.mpr ⟨(a, item), Arena.mem_toList.mpr hitem, ?_⟩)
    rw [hp]
    rfl
  induction n with
  | zero => cases h
  | succ n ih =>
    cases hfirst : ctx.typeNameWithin q n t with
    | some other =>
      cases (typeNameWithin_mono (Nat.le_succ n) hfirst).symm.trans h
      exact ih hfirst
    | none =>
      obtain ⟨ids, hnodup, -, hlength, hfound⟩ :=
        exists_distinct_of_typeNameWithin hclosed List.mem_cons_self h hfirst
      have hlive : ∀ id ∈ ids, q.contains id = true := by
        intro id hid
        obtain ⟨other, hother⟩ := Option.isSome_iff_exists.mp (hfound id hid)
        rw [typeNameWithin] at hother
        obtain ⟨item, hitem, -⟩ := Option.bind_eq_some_iff.mp hother
        exact Query.contains_iff.mpr ⟨item, hitem⟩
      have hcount : ids.length ≤ q.tableCount := Arena.length_le_toList hnodup hlive
      exact typeNameWithin_mono (by omega) h

/-- Enough steps find what the search finds. -/
theorem exists_typeNameWithin (h : q.Resolves ctx.schema.property? t r) :
    ∃ n, ∀ m, n ≤ m → ctx.typeNameWithin q m t = r := by
  induction h with
  | stale ht =>
    refine ⟨0, fun m _ => ?_⟩
    cases m with
    | zero => rfl
    | succ m => rw [typeNameWithin, ht, Option.bind_none]
  | own ht hname =>
    refine ⟨1, fun m hm => ?_⟩
    obtain ⟨m, rfl⟩ := Nat.exists_eq_add_one_of_ne_zero (Nat.ne_zero_of_lt hm)
    rw [typeNameWithin, ht, Option.bind_some, hname]
    rfl
  | unprovided ht hname hp =>
    refine ⟨0, fun m _ => ?_⟩
    cases m with
    | zero => rfl
    | succ m =>
      rw [typeNameWithin, ht, Option.bind_some, hname, hp]
      rfl
  | provided ht _ hr ih =>
    obtain ⟨item, hitem, hname, hp⟩ := ht
    obtain ⟨n, hn⟩ := ih
    refine ⟨n + 1, fun m hm => ?_⟩
    obtain ⟨m, rfl⟩ := Nat.exists_eq_add_one_of_ne_zero (Nat.ne_zero_of_lt hm)
    rw [typeNameWithin, hitem, Option.bind_some, hname, hp, Option.orElse_none, Option.bind_some,
      hn m (Nat.le_of_succ_le_succ hm), hr]

theorem tableTypeName_eq_of_resolves (h : q.Resolves ctx.schema.property? t r) : ctx.tableTypeName q t = r := by
  obtain ⟨n, hn⟩ := exists_typeNameWithin h
  cases r with
  | some name => exact tableTypeName_of_typeNameWithin (hn n (Nat.le_refl n))
  | none =>
    cases hfound : ctx.tableTypeName q t with
    | none => rfl
    | some name =>
      have hmore := typeNameWithin_mono (Nat.le_add_left (q.tableCount + 1) n) hfound
      cases hmore.symm.trans (hn _ (Nat.le_add_right n _))

end Context

/-! ### Copies -/

namespace Cloner

variable {lookup : String → String → Option PropertyDescriptor} {source target target' : Query}
  {s t t' u copy : TableId} {c : Cloner} {r : Option String}

theorem renamed_of_mapped? (h : c.mapped? t = some t') : c.renamed t = t' := by
  rw [renamed, h, Option.getD_some]

namespace Copied

variable (h : Copied source s target c target')
include h

/-- The handle of a table that was not copied stays as it is. -/
theorem renamed_eq_self (ht : ¬source.Descends s t) : c.renamed t = t := by
  have hnone : c.mapped? t = none :=
    Option.eq_none_iff_forall_ne_some.mpr fun t' ht' => ht ((h.mapped t).mpr ⟨t', ht'⟩)
  rw [renamed, hnone, Option.getD_none]

theorem get?_renamed (ht : source.Descends s t) :
    ∃ item joins, source.get? t = some item ∧
      target'.get? (c.renamed t) = some { c.remapItem item with joins := joins } := by
  obtain ⟨t', ht'⟩ := (h.mapped t).mp ht
  rw [renamed_of_mapped? ht']
  exact h.get? ht'

/-- A copy asks the copy of the table that the original asks. -/
theorem providedBy (ht : source.Descends s t) {p : PropertyRef} (hp : source.ProvidedBy t p) :
    target'.ProvidedBy (c.renamed t) ⟨c.renamed p.table, p.name⟩ := by
  obtain ⟨item, joins, hitem, hcopy⟩ := h.get?_renamed ht
  obtain ⟨other, hother, hname, hprovider⟩ := hp
  cases hitem.symm.trans hother
  exact ⟨_, hcopy, hname, by simp only [remapItem, hprovider, Option.map_some]⟩

theorem exists_providedBy (ht : source.Descends s t) {p' : PropertyRef} (hp : target'.ProvidedBy (c.renamed t) p') :
    ∃ p, source.ProvidedBy t p ∧ p'.table = c.renamed p.table := by
  obtain ⟨item, joins, hitem, hcopy⟩ := h.get?_renamed ht
  obtain ⟨other, hother, hname, hprovider⟩ := hp
  cases hcopy.symm.trans hother
  obtain ⟨p, hp, rfl⟩ := Option.map_eq_some_iff.mp hprovider
  exact ⟨p, ⟨item, hitem, hname, hp⟩, rfl⟩

/-- A search that stays below `s` finds the same from the copies. -/
theorem resolves_of_stays (ht : source.Descends s t) (hr : source.Resolves lookup t r)
    (hstays : ∀ u, ¬source.LeavesAt s t u) : target'.Resolves lookup (c.renamed t) r := by
  induction hr with
  | stale hstale =>
    obtain ⟨item, joins, hitem, -⟩ := h.get?_renamed ht
    cases hstale.symm.trans hitem
  | own hown hname =>
    obtain ⟨item, joins, hitem, hcopy⟩ := h.get?_renamed ht
    cases hown.symm.trans hitem
    exact .own hcopy hname
  | unprovided hown hname hp =>
    obtain ⟨item, joins, hitem, hcopy⟩ := h.get?_renamed ht
    cases hown.symm.trans hitem
    exact .unprovided hcopy hname (by simp only [remapItem, hp, Option.map_none])
  | @provided t p parent r hp _ hr ih =>
    have hnext : source.Descends s p.table := by
      by_contra hout
      exact hstays p.table (.further ht hp (.here hout))
    exact .provided (h.providedBy ht hp) (ih hnext fun u hu => hstays u (.further ht hp hu)) hr

/-- A search that leaves the subtree at a handle that names no table of the target finds no type from the copies. -/
theorem resolves_none_of_leavesAt (hleaves : source.LeavesAt s t u) (hu : target'.get? u = none) :
    target'.Resolves lookup (c.renamed t) none := by
  induction hleaves with
  | here hout => exact .stale ((congrArg target'.get? (h.renamed_eq_self hout)).trans hu)
  | further ht hp _ ih => exact .provided (h.providedBy ht hp) (ih hu) rfl

/-- The copies ask one another, and no table that was there before. -/
theorem get?_of_consults (hleaves : ∀ u, source.LeavesAt s t u → target'.get? u = none)
    (hu : target'.Consults (c.renamed t) u) : target.get? u = none := by
  have hcopy : ∃ a, c.renamed a = u ∧ ∀ u, source.LeavesAt s a u → target'.get? u = none := by
    induction hu with
    | refl => exact ⟨t, rfl, hleaves⟩
    | tail _ hstep ih =>
      obtain ⟨a, rfl, ha⟩ := ih
      obtain ⟨p', hp', rfl⟩ := hstep
      by_cases hbelow : source.Descends s a
      · obtain ⟨p, hp, heq⟩ := h.exists_providedBy hbelow hp'
        exact ⟨p.table, heq.symm, fun u hu => ha u (.further hbelow hp hu)⟩
      · obtain ⟨item, hitem, -⟩ := hp'
        rw [h.renamed_eq_self hbelow, ha a (.here hbelow)] at hitem
        cases hitem
  obtain ⟨a, rfl, ha⟩ := hcopy
  by_cases hbelow : source.Descends s a
  · obtain ⟨a', ha'⟩ := (h.mapped a).mp hbelow
    rw [renamed_of_mapped? ha']
    exact h.fresh ha'
  · rw [h.renamed_eq_self hbelow]
    refine Option.eq_none_iff_forall_ne_some.mpr fun item hitem => ?_
    obtain ⟨joins, hkept⟩ := h.kept hitem
    cases (ha a (.here hbelow)).symm.trans hkept

end Copied

/-- The type of a table below `s` is found from its copy as it is found from the table, without asking any table that
    the target had before. This holds if the search stays below `s`, and if it finds no type and leaves what lies
    below `s` at a handle that names no table of the target. -/
theorem resolves_cloneTable (hsound : target.arena.Sound)
    (h : ({} : Cloner).cloneTable source s target = .ok (copy, c, target'))
    (lookup : String → String → Option PropertyDescriptor) :
    c.mapped? s = some copy ∧
      ∀ t r, source.Descends s t → source.Resolves lookup t r →
        (∀ u, source.LeavesAt s t u → r = none ∧ target'.get? u = none) →
        ∃ t', c.mapped? t = some t' ∧ target'.Resolves lookup t' r ∧
          (∀ u, target'.Consults t' u → target.get? u = none) ∧
          ∀ ctx : Context, ctx.schema.property? = lookup →
            ctx.tableTypeName source t = r ∧ ctx.tableTypeName target' t' = r := by
  obtain ⟨hcopied, hcopy⟩ := copied_of_cloneTable hsound h
  refine ⟨hcopy, fun t r ht hr hleaves => ?_⟩
  obtain ⟨t', ht'⟩ := (hcopied.mapped t).mp ht
  have hresolves : target'.Resolves lookup (c.renamed t) r := by
    by_cases hstays : ∃ u, source.LeavesAt s t u
    · obtain ⟨u, hu⟩ := hstays
      obtain ⟨rfl, hnone⟩ := hleaves u hu
      exact hcopied.resolves_none_of_leavesAt hu hnone
    · exact hcopied.resolves_of_stays ht hr (not_exists.mp hstays)
  have hasked : ∀ u, target'.Consults (c.renamed t) u → target.get? u = none := fun u =>
    hcopied.get?_of_consults fun u hu => (hleaves u hu).2
  rw [renamed_of_mapped? ht'] at hresolves hasked
  refine ⟨t', ht', hresolves, hasked, ?_⟩
  rintro ctx rfl
  exact ⟨Context.tableTypeName_eq_of_resolves hr, Context.tableTypeName_eq_of_resolves hresolves⟩

/-- A table of this kind with its owner. -/
def owned (item : QueryItem) : Query :=
  ((Query.ofItem item).joinProperty (Query.ofItem item).root "owner" .inner).2

/-- Parts are owned by users. -/
def ownedParts : Context :=
  { schema := ⟨[⟨"Part", [⟨"owner", .item, some "User"⟩]⟩]⟩ }

theorem resolves_cloneTable_owner : ∃ copy c target',
    ({} : Cloner).cloneTable (owned (.ofType "Part")) ⟨0, 0⟩ (.ofType "Part") = .ok (copy, c, target') ∧
      ∃ t', c.mapped? ⟨1, 0⟩ = some t' ∧ target'.Resolves ownedParts.schema.property? t' (some "User") ∧
        ownedParts.tableTypeName target' t' = some "User" := by
  let source := owned (.ofType "Part")
  have hbelow : source.Descends ⟨0, 0⟩ ⟨1, 0⟩ := .single (by decide)
  have hroot : source.get? ⟨0, 0⟩ = some { QueryItem.ofType "Part" with joins := (source.joinsOf ⟨0, 0⟩) } := rfl
  have howner : source.get? ⟨1, 0⟩ = some { provider := some ⟨⟨0, 0⟩, "owner"⟩ } := rfl
  have hr : source.Resolves ownedParts.schema.property? ⟨1, 0⟩ (some "User") :=
    .provided ⟨_, howner, rfl, rfl⟩ (.own hroot rfl) (by decide +kernel)
  have hstays : ∀ u, ¬source.LeavesAt ⟨0, 0⟩ ⟨1, 0⟩ u := by
    intro u hu
    cases hu with
    | here hout => exact hout hbelow
    | further _ hp hrest =>
      obtain ⟨item, hitem, -, hp⟩ := hp
      cases howner.symm.trans hitem
      cases hp
      cases hrest with
      | here hout => exact hout .refl
      | further _ hp _ =>
        obtain ⟨item, hitem, hname, -⟩ := hp
        cases hroot.symm.trans hitem
        cases hname
  have hcopied : (({} : Cloner).cloneTable source ⟨0, 0⟩ (.ofType "Part")).toOption.isSome = true := by decide +kernel
  obtain ⟨⟨copy, c, target'⟩, hcopied⟩ := Option.isSome_iff_exists.mp hcopied
  have hclone := Result.toOption_eq_some.mp hcopied
  obtain ⟨-, hall⟩ := resolves_cloneTable (Arena.sound_empty.insert _) hclone ownedParts.schema.property?
  obtain ⟨t', ht', hresolves, -, htypes⟩ := hall ⟨1, 0⟩ (some "User") hbelow hr fun u hu => absurd hu (hstays u)
  exact ⟨copy, c, target', hclone, t', ht', hresolves, (htypes ownedParts rfl).2⟩

/-- The owner of a table without a type has no type either, but its copy asks the part that has the handle of that
    table in the target. -/
theorem not_resolves_cloneTable_owner : (owned {}).Resolves ownedParts.schema.property? ⟨1, 0⟩ none ∧
    ownedParts.tableTypeName (owned {}) ⟨1, 0⟩ = none ∧
    ∃ copy c target', ({} : Cloner).cloneTable (owned {}) ⟨1, 0⟩ (.ofType "Part") = .ok (copy, c, target') ∧
      c.mapped? ⟨1, 0⟩ = some copy ∧ ownedParts.tableTypeName target' copy = some "User" := by
  have hroot : (owned {}).get? ⟨0, 0⟩ = some { joins := (owned {}).joinsOf ⟨0, 0⟩ } := rfl
  have howner : (owned {}).get? ⟨1, 0⟩ = some { provider := some ⟨⟨0, 0⟩, "owner"⟩ } := rfl
  have hnone : (owned {}).Resolves ownedParts.schema.property? ⟨1, 0⟩ none :=
    .provided ⟨_, howner, rfl, rfl⟩ (.unprovided hroot rfl rfl) rfl
  have hcopied : (({} : Cloner).cloneTable (owned {}) ⟨1, 0⟩ (.ofType "Part")).toOption.map
      (fun r => ownedParts.tableTypeName r.2.2 r.1) = some (some "User") := by decide +kernel
  obtain ⟨⟨copy, c, target'⟩, hclone, htype⟩ := Option.map_eq_some_iff.mp hcopied
  have hclone := Result.toOption_eq_some.mp hclone
  have hcopy := (copied_of_cloneTable (Arena.sound_empty.insert _) hclone).2
  exact ⟨hnone, Context.tableTypeName_eq_of_resolves hnone, copy, c, target', hclone, hcopy, htype⟩

end Cloner
end ItemQuery
