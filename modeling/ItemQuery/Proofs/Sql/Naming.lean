import Mathlib.Algebra.Ring.Nat
import ItemQuery.Proofs.Number.Digits
import ItemQuery.Proofs.Query.Resolution
import ItemQuery.Proofs.Query.Traversal
import ItemQuery.Proofs.Result
import ItemQuery.Proofs.Sql.Scanning
import ItemQuery.Sql.Alias

/-! Tables get names one after the other along the walk. The search for a free name is a loop that nothing bounds: it
    ends since its candidates all differ, and every name given before and every reserved word rules out one of them. -/

namespace ItemQuery.Sql

open Relation

/-! ### Small letters -/

/-- A digit, or a character behind the capitals of ASCII; a null stands for a code that is none. -/
def IsSmall (c : Char) : Prop :=
  c.isDigit = true ∨ 0x5B < c.toNat ∨ c = '\x00'

/-- A name without capitals. -/
def IsSmallName (name : String) : Prop :=
  ∀ c ∈ name.toList, IsSmall c

theorem toLower_of_isSmall {c : Char} (h : IsSmall c) : c.toLower = c := by
  have hupper : ¬(65 ≤ c.toNat ∧ c.toNat ≤ 90) := by
    rcases h with hdigit | hlarge | rfl
    · have hcode := Char.isDigit_iff_toNat.mp hdigit
      simp only [Char.reduceToNat] at hcode
      omega
    · omega
    · decide
  rw [← Char.toNat_inj, Text.toNat_toLower, if_neg hupper]

theorem IsSmallName.toLower_eq {name : String} (h : IsSmallName name) : name.toLower = name := by
  rw [← String.toList_inj, Text.toList_toLower]
  exact (List.map_congr_left fun c hc => toLower_of_isSmall (h c hc)).trans (List.map_id _)

theorem isSmall_smallLetter? {code : Nat} {c : Char} (h : Text.smallLetter? code = some c) : IsSmall c := by
  have hranges : ∀ r ∈ Text.lowercaseRanges, 0x5B < (r.1 : Int) + r.2.2.2 := by decide +kernel
  obtain ⟨r, hr, rfl⟩ := Option.map_eq_some_iff.mp h
  have hlow : r.1 ≤ code := by
    have hfound := List.find?_some hr
    simp only [Bool.and_eq_true, decide_eq_true_eq] at hfound
    exact hfound.1.1
  have hlarge := hranges r (List.mem_of_find?_eq_some hr)
  generalize hn : Int.toNat (code + r.2.2.2) = n
  by_cases hvalid : n.isValidChar
  · have hcode : (Char.ofNat n).toNat = n := by
      rw [Char.ofNat, dif_pos hvalid]
      rfl
    exact .inr (.inl (by omega))
  · rw [Char.ofNat, dif_neg hvalid]
    exact .inr (.inr rfl)

theorem isSmall_toLower {c : Char} (h : c.isAlpha = true) : IsSmall c.toLower := by
  have hcode := isAlpha_iff_toNat.mp h
  refine .inr (.inl ?_)
  rw [Text.toNat_toLower]
  split <;> omega

theorem isSmall_lowercase {c d : Char} (hc : Text.isAlphabetic c = true) (hd : d ∈ Text.lowercase c) : IsSmall d := by
  unfold Text.lowercase at hd
  unfold Text.isAlphabetic at hc
  split at hd
  · next hascii =>
    rw [if_pos hascii] at hc
    rw [List.mem_singleton.mp hd]
    exact isSmall_toLower hc
  · split at hd
    · rcases List.mem_pair.mp hd with rfl | rfl <;> exact .inr (.inl (by decide))
    · next hascii _ =>
      rw [List.mem_singleton.mp hd]
      cases hsmall : Text.smallLetter? c.toNat with
      | none => exact .inr (.inl (by simp only [Option.getD_none]; omega))
      | some small => exact isSmall_smallLetter? hsmall

theorem isSmallName_initials (name : String) : IsSmallName (initials name) := by
  intro c hc
  rw [initials, String.toList_ofList, List.mem_flatMap] at hc
  obtain ⟨letter, hletter, hc⟩ := hc
  exact isSmall_lowercase (List.mem_filter.mp hletter).2 hc

theorem isSmallName_baseName (ctx : Context) (q : Query) (id : TableId) (item : QueryItem) :
    IsSmallName (baseName ctx q id item) := by
  unfold baseName
  dsimp only
  split
  · cases ctx.tableTypeName q id with
    | none => exact nofun
    | some name => exact isSmallName_initials name
  · split
    · cases item.provider with
      | none => exact nofun
      | some p => exact isSmallName_initials p.name
    · rintro c hc
      rw [List.mem_singleton.mp hc]
      exact .inr (.inl (by decide))

theorem IsSmallName.append_toString {base : String} (h : IsSmallName base) (n : Nat) :
    IsSmallName (base ++ toString n) := by
  rw [IsSmallName, String.toList_append]
  exact List.forall_mem_append.mpr ⟨h, fun c hc => .inl (Number.isDigit_of_mem_toString hc)⟩

theorem IsSmallName.freshName {isFree : String → Bool} {base : String} (h : IsSmallName base) (tries : Nat) :
    IsSmallName (freshName isFree base tries) := by
  have hnumbered : ∀ tries suffix, IsSmallName (numbered isFree base tries suffix) := by
    intro tries
    induction tries with
    | zero => exact h.append_toString
    | succ tries ih =>
      intro suffix
      rw [numbered]
      split
      · exact h.append_toString suffix
      · exact ih (suffix + 1)
  rw [Sql.freshName]
  split
  · exact h
  · exact hnumbered tries 2

/-! ### The search for a free name -/

/-- The loop that looks at a candidate and, while it is not free, goes on to the base with the next number: from the
    candidate and the number to come, how many candidates it turns down and the name it ends with. -/
inductive Seeks (Free : String → Prop) (base : String) : String → Nat → Nat → String → Prop
  | free {candidate : String} {suffix : Nat} (h : Free candidate) : Seeks Free base candidate suffix 0 candidate
  | taken {candidate name : String} {suffix passes : Nat} (h : ¬Free candidate)
    (hrest : Seeks Free base (base ++ toString suffix) (suffix + 1) passes name) :
    Seeks Free base candidate suffix (passes + 1) name

section
variable {Free : String → Prop} {base candidate name : String} {suffix passes : Nat}

theorem Seeks.free_name (h : Seeks Free base candidate suffix passes name) : Free name := by
  induction h with
  | free h => exact h
  | taken _ _ ih => exact ih

theorem Seeks.eq_of_free (h : Seeks Free base candidate suffix passes name) (hfree : Free candidate) :
    name = candidate := by
  cases h with
  | free _ => rfl
  | taken hnot _ => exact absurd hfree hnot

/-- The candidates in the order in which the loop looks at them. -/
def candidateAt (base : String) : Nat → String
  | 0 => base
  | n + 1 => base ++ toString (n + 2)

theorem toLower_append (s t : String) : (s ++ t).toLower = s.toLower ++ t.toLower := by
  simp only [← String.toList_inj, Text.toList_toLower, String.toList_append, List.map_append]

theorem toLower_toString (n : Nat) : (toString n).toLower = toString n :=
  IsSmallName.toLower_eq fun _ hc => .inl (Number.isDigit_of_mem_toString hc)

theorem toString_ne_empty (n : Nat) : toString n ≠ "" :=
  fun h => Number.toString_toList_ne_nil n (by rw [h, String.toList_empty])

/-- No two candidates are the same in small letters. -/
theorem candidateAt_injective (base : String) : Function.Injective fun n => (candidateAt base n).toLower := by
  have hnumber : ∀ n, (candidateAt base (n + 1)).toLower = base.toLower ++ toString (n + 2) := by
    intro n
    rw [candidateAt, toLower_append, toLower_toString]
  have hbase : ∀ n, base.toLower ≠ base.toLower ++ toString (n + 2) := by
    intro n h
    exact toString_ne_empty (n + 2) (String.append_right_inj base.toLower |>.mp (by rw [← h, String.append_empty]))
  intro m n h
  dsimp only at h
  cases m with
  | zero =>
    cases n with
    | zero => rfl
    | succ n => exact absurd (h.trans (hnumber n)) (hbase n)
  | succ m =>
    cases n with
    | zero => exact absurd (h.symm.trans (hnumber m)) (hbase m)
    | succ n =>
      rw [hnumber, hnumber, String.append_right_inj] at h
      have hdigits : Number.natural? (toString (m + 2)).toList = Number.natural? (toString (n + 2)).toList := by rw [h]
      rw [Number.natural?_toString, Number.natural?_toString, Option.some.injEq] at hdigits
      omega

/-- Among more candidates than there are names to avoid in small letters, one is free. -/
theorem exists_candidateAt (base : String) (avoided : List String)
    (havoided : ∀ candidate, ¬Free candidate → candidate.toLower ∈ avoided) :
    ∃ n ≤ avoided.length, Free (candidateAt base n) := by
  by_contra hnone
  push Not at hnone
  let candidates := (List.range (avoided.length + 1)).map fun n => (candidateAt base n).toLower
  have hnodup : candidates.Nodup := List.nodup_range.map (candidateAt_injective base)
  have hsubset : candidates ⊆ avoided := by
    intro c hc
    obtain ⟨n, hn, rfl⟩ := List.mem_map.mp hc
    exact havoided _ (hnone n (Nat.le_of_lt_succ (List.mem_range.mp hn)))
  have hlength := (List.subperm_of_subset hnodup hsubset).length_le
  simp only [candidates, List.length_map, List.length_range] at hlength
  omega

end

section
variable {isFree : String → Bool} {base : String}

theorem seeks_numbered {tries suffix k : Nat} (hk : k ≤ tries) (hfree : isFree (base ++ toString (suffix + k)) = true) :
    ∃ passes ≤ k, Seeks (isFree · = true) base (base ++ toString suffix) (suffix + 1) passes
      (numbered isFree base tries suffix) := by
  induction tries generalizing suffix k with
  | zero =>
    obtain rfl : k = 0 := Nat.le_zero.mp hk
    exact ⟨0, Nat.le_refl 0, .free hfree⟩
  | succ tries ih =>
    rw [numbered]
    split
    · next hfirst => exact ⟨0, Nat.zero_le k, .free hfirst⟩
    · next hfirst =>
      cases k with
      | zero => exact absurd hfree hfirst
      | succ k =>
        have hnext : suffix + 1 + k = suffix + (k + 1) := by omega
        obtain ⟨passes, hpasses, hseeks⟩ := ih (Nat.le_of_succ_le_succ hk) (hnext ▸ hfree)
        exact ⟨passes + 1, Nat.succ_le_succ hpasses, .taken hfirst hseeks⟩

/-- With a free candidate within the bound, the bounded search is the loop. -/
theorem seeks_freshName {tries n : Nat} (hn : n ≤ tries) (hfree : isFree (candidateAt base n) = true) :
    ∃ passes ≤ n, Seeks (isFree · = true) base base 2 passes (freshName isFree base tries) := by
  rw [freshName]
  split
  · next hbase => exact ⟨0, Nat.zero_le n, .free hbase⟩
  · next hbase =>
    cases n with
    | zero => exact absurd hfree hbase
    | succ n =>
      have hnumber : isFree (base ++ toString (2 + n)) = true := by
        rwa [candidateAt, Nat.add_comm n 2] at hfree
      obtain ⟨passes, hpasses, hseeks⟩ := seeks_numbered (Nat.le_of_succ_le hn) hnumber
      exact ⟨passes + 1, Nat.succ_le_succ hpasses, .taken hbase hseeks⟩

end

/-! ### One table after the other -/

section
variable {ctx : Context} {q : Query} {aliases : Aliases} {t : TableId} {item : QueryItem}

/-- None of the names is the candidate in any case, and the candidate is no reserved word unless it was chosen for the
    table. -/
def Free (names : List String) (item : QueryItem) (candidate : String) : Prop :=
  (∀ name ∈ names, name.toLower ≠ candidate.toLower) ∧ (item.aliasName = none → candidate ∉ reservedWords)

theorem free_iff {candidate : String} :
    (!aliases.isTaken candidate && (item.aliasName.isSome || !reservedWords.contains candidate)) = true
      ↔ Free (aliases.map (·.2)) item candidate := by
  have htaken : (aliases.any fun entry => entry.2.toLower == candidate.toLower) = false
      ↔ ∀ name ∈ aliases.map (·.2), name.toLower ≠ candidate.toLower := by
    rw [List.any_eq_false, List.forall_mem_map]
    simp only [beq_iff_eq, ne_eq]
  rw [Bool.and_eq_true, Bool.not_eq_true', Aliases.isTaken, htaken, Free]
  cases item.aliasName <;> simp

theorem toLower_of_mem_reservedWords {word : String} (h : word ∈ reservedWords) : word.toLower = word := by
  have hall : ∀ word ∈ reservedWords, word.toLower = word := by decide +kernel
  exact hall word h

theorem mem_of_not_free {names : List String} {candidate : String} (h : ¬Free names item candidate) :
    candidate.toLower ∈ names.map String.toLower ++ reservedWords := by
  rw [List.mem_append]
  by_contra hmem
  rw [not_or] at hmem
  refine h ⟨fun name hname heq => hmem.1 (List.mem_map.mpr ⟨name, hname, heq⟩), fun _ hword => ?_⟩
  exact hmem.2 ((toLower_of_mem_reservedWords hword).symm ▸ hword)

/-- The name that a table would have if it were the only one. -/
def ownName (ctx : Context) (q : Query) (t : TableId) (item : QueryItem) : String :=
  item.aliasName.getD (baseName ctx q t item)

/-- The name is what the loop finds for the table after the names given before, and the loop turns down no more
    candidates than there are names and reserved words. -/
def Found (ctx : Context) (q : Query) (names : List String) (t : TableId) (item : QueryItem) (name : String) : Prop :=
  ∃ passes ≤ names.length + reservedWords.length,
    Seeks (Free names item) (ownName ctx q t item) (ownName ctx q t item) 2 passes name

/-- What one step does: it finds a name for the table. A generated name has no capitals. -/
theorem exists_found (ctx : Context) (hitem : q.get? t = some item) (aliases : Aliases) :
    ∃ name, Aliases.add ctx q aliases t = .ok (aliases ++ [(t, name)])
      ∧ (item.aliasName = none → IsSmallName name) ∧ Found ctx q (aliases.map (·.2)) t item name := by
  let isFree (candidate : String) :=
    !aliases.isTaken candidate && (item.aliasName.isSome || !reservedWords.contains candidate)
  have hfree : (isFree · = true) = Free (aliases.map (·.2)) item := funext fun _ => propext free_iff
  refine ⟨freshName isFree (ownName ctx q t item) (aliases.length + reservedWords.length), ?_, fun hnone => ?_, ?_⟩
  · rw [Aliases.add, Query.item_eq_ok.mpr hitem, Result.ok_bind]
    rfl
  · rw [ownName, hnone, Option.getD_none]
    exact (isSmallName_baseName ctx q t item).freshName _
  · obtain ⟨n, hn, hfound⟩ := exists_candidateAt (ownName ctx q t item) _ fun _ => mem_of_not_free
    rw [List.length_append, List.length_map, List.length_map] at hn
    have hcandidate : isFree (candidateAt (ownName ctx q t item) n) = true := free_iff.mpr hfound
    obtain ⟨passes, hpasses, hseeks⟩ := seeks_freshName hn hcandidate
    rw [hfree] at hseeks
    exact ⟨passes, by rw [List.length_map]; exact hpasses.trans hn, hseeks⟩

/-- Names given step by step. -/
inductive Named (ctx : Context) (q : Query) : Aliases → Prop
  | start : Named ctx q []
  | next {aliases : Aliases} {t : TableId} {item : QueryItem} {name : String} (h : Named ctx q aliases)
    (hitem : q.get? t = some item) (hsmall : item.aliasName = none → IsSmallName name)
    (hfound : Found ctx q (aliases.map (·.2)) t item name) : Named ctx q (aliases ++ [(t, name)])

/-- What a run does: every live table is named. -/
theorem Named.exists_foldlM {ts : List TableId} (hts : ∀ t ∈ ts, q.contains t = true) (h : Named ctx q aliases) :
    ∃ named, ts.foldlM (Aliases.add ctx q) aliases = .ok named ∧ Named ctx q named
      ∧ named.map (·.1) = aliases.map (·.1) ++ ts := by
  induction ts generalizing aliases with
  | nil => exact ⟨aliases, rfl, h, (List.append_nil _).symm⟩
  | cons t ts ih =>
    obtain ⟨htop, hrest⟩ := List.forall_mem_cons.mp hts
    obtain ⟨item, hitem⟩ := Query.contains_iff.mp htop
    obtain ⟨name, hadd, hsmall, hfound⟩ := exists_found ctx hitem aliases
    obtain ⟨named, hrun, hnamed, htables⟩ := ih hrest (h.next hitem hsmall hfound)
    refine ⟨named, ?_, hnamed, ?_⟩
    · rw [List.foldlM_cons, hadd, Result.ok_bind, hrun]
    · rw [htables, List.map_append, List.map_singleton, List.append_assoc, List.singleton_append]

/-- Every name was found after those before it. -/
theorem Named.found (h : Named ctx q aliases) {before after : Aliases} {name : String}
    (hsplit : aliases = before ++ (t, name) :: after) :
    ∃ item, q.get? t = some item ∧ (item.aliasName = none → IsSmallName name)
      ∧ Found ctx q (before.map (·.2)) t item name := by
  induction h generalizing after with
  | start => exact absurd hsplit (by simp)
  | @next aliases u item last h hitem hsmall hfound ih =>
    rcases after.eq_nil_or_concat with rfl | ⟨after, entry, rfl⟩
    · obtain ⟨rfl, hentry⟩ := List.append_inj' hsplit rfl
      cases hentry
      exact ⟨item, hitem, hsmall, hfound⟩
    · rw [List.concat_eq_append, ← List.cons_append, ← List.append_assoc] at hsplit
      exact ih (List.append_inj' hsplit rfl).1

theorem Aliases.name_of_mem (hnodup : (aliases.map (·.1)).Nodup) {name : String} (hmem : (t, name) ∈ aliases) :
    aliases.name t = name := by
  have hfind : aliases.find? (·.1 == t) = some (t, name) := by
    rw [List.find?_eq_some_iff_append]
    obtain ⟨before, after, rfl⟩ := List.append_of_mem hmem
    refine ⟨beq_self_eq_true t, before, after, rfl, fun entry hentry => ?_⟩
    rw [List.map_append, List.map_cons, List.nodup_append] at hnodup
    have hne := hnodup.2.2 entry.1 (List.mem_map_of_mem hentry) t List.mem_cons_self
    simpa using hne
  rw [Aliases.name, hfind]
  rfl

/-- How a table is called after the tables `before` it. -/
structure Called (ctx : Context) (q : Query) (aliases : Aliases) (before : List TableId) (t : TableId)
    (item : QueryItem) : Prop where
  /-- The search for the type that a name is made of ends, and it finds this type. -/
  resolved : item.aliasName = none → q.Resolves ctx.schema.property? t (ctx.tableTypeName q t)
  /-- The search for a free name ends, after no more passes than there are tables before and reserved words. -/
  found : Found ctx q (before.map aliases.name) t item (aliases.name t)
  /-- No table before has the name in any case. -/
  apart : ∀ u ∈ before, (aliases.name u).toLower ≠ (aliases.name t).toLower
  unreserved : item.aliasName = none → (aliases.name t).toLower ∉ reservedWords
  kept : ∀ own, item.aliasName = some own →
    (aliases.name t = own ↔ ∀ u ∈ before, (aliases.name u).toLower ≠ own.toLower)

theorem called_of_found {before : List TableId}
    (hends : item.aliasName = none → ∃ r, q.Resolves ctx.schema.property? t r)
    (hsmall : item.aliasName = none → IsSmallName (aliases.name t))
    (hfound : Found ctx q (before.map aliases.name) t item (aliases.name t)) :
    Called ctx q aliases before t item := by
  obtain ⟨passes, hpasses, hseeks⟩ := hfound
  have hfree := hseeks.free_name
  have hresolved : item.aliasName = none → q.Resolves ctx.schema.property? t (ctx.tableTypeName q t) := by
    intro hnone
    obtain ⟨r, hr⟩ := hends hnone
    rwa [Context.tableTypeName_eq_of_resolves hr]
  refine ⟨hresolved, ⟨passes, hpasses, hseeks⟩, fun u hu => hfree.1 _ (List.mem_map_of_mem hu), fun hnone => ?_,
    fun own hown => ⟨?_, fun hnot => ?_⟩⟩
  · rw [(hsmall hnone).toLower_eq]
    exact hfree.2 hnone
  · rintro rfl u hu
    exact hfree.1 _ (List.mem_map_of_mem hu)
  · have hname : ownName ctx q t item = own := by
      rw [ownName, hown, Option.getD_some]
    rw [hname] at hseeks
    refine hseeks.eq_of_free ⟨List.forall_mem_map.mpr hnot, fun hnone => ?_⟩
    rw [hown] at hnone
    cases hnone

theorem Named.called (h : Named ctx q aliases) (hnodup : (aliases.map (·.1)).Nodup) {before after : List TableId}
    (hsplit : aliases.map (·.1) = before ++ t :: after)
    (hends : ∀ item, q.get? t = some item → item.aliasName = none → ∃ r, q.Resolves ctx.schema.property? t r) :
    ∃ item, q.get? t = some item ∧ Called ctx q aliases before t item := by
  obtain ⟨first, rest, hentries, rfl, hrest⟩ := List.map_eq_append_iff.mp hsplit
  obtain ⟨entry, last, rfl, hentry, -⟩ := List.map_eq_cons_iff.mp hrest
  obtain ⟨u, name⟩ := entry
  obtain rfl : u = t := hentry
  obtain ⟨item, hitem, hsmall, hfound⟩ := h.found hentries
  have hname : aliases.name u = name := Aliases.name_of_mem hnodup (by rw [hentries]; simp)
  have hnames : (first.map (·.1)).map aliases.name = first.map (·.2) := by
    rw [List.map_map]
    refine List.map_congr_left fun entry hentry => Aliases.name_of_mem hnodup ?_
    rw [hentries]
    exact List.mem_append_left _ hentry
  refine ⟨item, hitem, called_of_found (hends item hitem) (hname ▸ hsmall) ?_⟩
  rwa [hnames, hname]

end

end ItemQuery.Sql

namespace ItemQuery.Query

open Sql Relation

variable {q : Query}

/-- **Names of tables.** In a forest with a live root every table that is reached from the root gets a name, if the
    search for a type ends for each of them without an alias: the loop over names ends, the names of different tables
    differ in small letters, a generated name is no reserved word, and a table keeps the alias it was given exactly if no
    table before it on the walk has that name in any case. -/
theorem Forest.exists_aliases (h : q.Forest) (hroot : q.contains q.root = true) (ctx : Context)
    (hends : ∀ t ∈ q.walk, ∀ item, q.get? t = some item → item.aliasName = none →
      ∃ r, q.Resolves ctx.schema.property? t r) :
    ∃ aliases, Aliases.ofQuery ctx q = .ok aliases
      ∧ aliases.map (·.1) = q.walk ∧ (∀ t, ReflTransGen q.Joined q.root t ↔ t ∈ q.walk)
      ∧ (∀ t ∈ q.walk, ∀ u ∈ q.walk, t ≠ u → (aliases.name t).toLower ≠ (aliases.name u).toLower)
      ∧ ∀ before t after, q.walk = before ++ t :: after →
        ∃ item, q.get? t = some item ∧ Called ctx q aliases before t item := by
  have hwalk := h.rooted.lists_walk
  have hlive : ∀ t ∈ q.walk, q.contains t = true := fun t ht => h.rooted.contains_of_mem_walk hroot ht
  obtain ⟨aliases, hrun, hnamed, htables⟩ := (Named.start : Named ctx q []).exists_foldlM hlive
  rw [List.map_nil, List.nil_append] at htables
  have hcalled : ∀ before t after, q.walk = before ++ t :: after →
      ∃ item, q.get? t = some item ∧ Called ctx q aliases before t item := by
    intro before t after hsplit
    exact hnamed.called (htables ▸ hwalk.nodup) (htables.trans hsplit) (hends t (by simp [hsplit]))
  refine ⟨aliases, hrun, htables, fun t => h.rooted.mem_walk.symm, fun t ht u hu hne => ?_, hcalled⟩
  obtain ⟨before, after, hsplit⟩ := List.append_of_mem ht
  rw [hsplit, List.mem_append, List.mem_cons] at hu
  rcases hu with hu | rfl | hu
  · obtain ⟨item, -, hitem⟩ := hcalled before t after hsplit
    exact (hitem.apart u hu).symm
  · exact absurd rfl hne
  · -- `u` comes later, so that `t` is one of the tables before it.
    obtain ⟨between, rest, rfl⟩ := List.append_of_mem hu
    obtain ⟨item, -, hitem⟩ := hcalled (before ++ t :: between) u rest (by rw [hsplit]; simp)
    exact hitem.apart t (by simp)

/-- A part whose first relationship has a type with the initials `or`; a third table asks for the name that this one
    gets instead of the reserved word. -/
def orderRows : Query :=
  (((ofType "Part").after (.addRelationship ⟨0, 0⟩ "Order Row")).after
    (.addTable { typeName := some "Note", aliasName := some "OR2" })).after
    (.addJoin { left := ⟨0, 0⟩, right := ⟨2, 0⟩, kind := .inner, cardinality := .oneToOne, leftProperty := "note",
                rightProperty := "id" })

example : ((Aliases.ofQuery {} orderRows).map fun aliases => aliases.map (·.2)).toOption = some ["p", "or2", "OR22"] := by
  cbv

theorem exists_aliases_orderRows :
    orderRows.Forest ∧ orderRows.contains orderRows.root = true
      ∧ (∀ t ∈ orderRows.walk, ∀ item, orderRows.get? t = some item → item.aliasName = none →
        ∃ r, orderRows.Resolves ({} : Context).schema.property? t r)
      ∧ ∃ aliases, Aliases.ofQuery {} orderRows = .ok aliases ∧ aliases.map (·.1) = orderRows.walk
        ∧ (aliases.name ⟨1, 0⟩).toLower ∉ reservedWords
        ∧ (aliases.name ⟨1, 0⟩).toLower ≠ (aliases.name ⟨2, 0⟩).toLower
        ∧ (aliases.name ⟨2, 0⟩ = "OR2" ↔
          ∀ u ∈ [(⟨0, 0⟩ : TableId), ⟨1, 0⟩], (aliases.name u).toLower ≠ "OR2".toLower) := by
  have hforest : orderRows.Forest := by
    have hpart : (ofType "Part").Kept := kept_ofItem rfl
    have hrows := hpart.after (c := .addRelationship ⟨0, 0⟩ "Order Row") (.inl rfl)
    have hnote := hrows.after (c := .addTable { typeName := some "Note", aliasName := some "OR2" }) rfl
    exact (hnote.after (c := .addJoin _) trivial).rooted.forest
  have hroot : orderRows.contains orderRows.root = true := by decide +kernel
  have hwalk : orderRows.walk = [⟨0, 0⟩, ⟨1, 0⟩, ⟨2, 0⟩] := by decide +kernel
  -- Every table has a type of its own.
  have hends : ∀ t ∈ orderRows.walk, ∀ item, orderRows.get? t = some item → item.aliasName = none →
      ∃ r, orderRows.Resolves ({} : Context).schema.property? t r := by
    have htyped : ∀ t ∈ orderRows.walk, ((orderRows.get? t).bind (·.typeName)).isSome = true := by
      rw [hwalk]
      decide +kernel
    intro t ht item hitem _
    obtain ⟨name, hname⟩ := Option.isSome_iff_exists.mp (htyped t ht)
    obtain ⟨other, hother, hname⟩ := Option.bind_eq_some_iff.mp hname
    exact ⟨_, .own hother hname⟩
  obtain ⟨aliases, hrun, htables, -, hapart, hcalled⟩ := hforest.exists_aliases hroot {} hends
  obtain ⟨row, hrow, hrowCalled⟩ := hcalled [⟨0, 0⟩] ⟨1, 0⟩ [⟨2, 0⟩] hwalk
  obtain ⟨note, hnote, hnoteCalled⟩ := hcalled [⟨0, 0⟩, ⟨1, 0⟩] ⟨2, 0⟩ [] hwalk
  cases hrow
  cases hnote
  refine ⟨hforest, hroot, hends, aliases, hrun, htables, hrowCalled.unreserved rfl, ?_, hnoteCalled.kept "OR2" rfl⟩
  exact hapart _ (by simp [hwalk]) _ (by simp [hwalk]) (by decide)

/-- A part joined to a table that is said to come from a property of itself. -/
def circular : Query :=
  ((ofType "Part").after (.addTable { provider := some ⟨⟨1, 0⟩, "owner"⟩ })).after
    (.addJoin { left := ⟨0, 0⟩, right := ⟨1, 0⟩, kind := .inner, cardinality := .oneToOne, leftProperty := "owner",
                rightProperty := "id" })

/-- No table is named when the root was removed: the walk still starts at its handle. Where the property that leads to a
    table is one of this table, the search for its type has no end. -/
theorem aliases_rootRemoved_and_circular :
    (((ofType "Part").removeTable ⟨0, 0⟩).2.Forest
      ∧ Aliases.ofQuery {} ((ofType "Part").removeTable ⟨0, 0⟩).2 = .error (.stale 0))
    ∧ circular.Forest ∧ circular.contains circular.root = true ∧ ⟨1, 0⟩ ∈ circular.walk
      ∧ (circular.get? ⟨1, 0⟩).map (·.aliasName) = some none
      ∧ ∀ lookup r, ¬circular.Resolves lookup ⟨1, 0⟩ r := by
  have hpart : (ofType "Part").Kept := kept_ofItem rfl
  have hwalk : ((ofType "Part").removeTable ⟨0, 0⟩).2.walk = [⟨0, 0⟩] := by decide +kernel
  refine ⟨⟨(hpart.removeTable _).rooted.forest, ?_⟩, ?_, by decide +kernel, by decide +kernel, by decide +kernel,
    fun lookup r => not_resolves_of_circle (p := ⟨⟨1, 0⟩, "owner"⟩) ⟨_, rfl, rfl, rfl⟩ rfl⟩
  · rw [Aliases.ofQuery, hwalk]
    rfl
  · have hadded := hpart.after (c := .addTable { provider := some ⟨⟨1, 0⟩, "owner"⟩ }) rfl
    exact (hadded.after (c := .addJoin _) trivial).rooted.forest

end ItemQuery.Query
