import ItemQuery.Number.Integer

/-! Whole numbers are read back from their text. -/

namespace ItemQuery.Number

theorem isDigit_of_mem_toString {n : Nat} {c : Char} (hc : c ∈ (toString n).toList) : c.isDigit = true := by
  rw [Nat.toString_eq_ofList_toDigits, String.toList_ofList] at hc
  exact Nat.isDigit_of_mem_toDigits (by decide) (by decide) hc

theorem toString_toList_ne_nil (n : Nat) : (toString n).toList ≠ [] := by
  rw [Nat.toString_eq_ofList_toDigits, String.toList_ofList]
  exact Nat.toDigits_ne_nil

theorem digits?_toString (n : Nat) : digits? (toString n).toList = some n := by
  have hall : (toString n).toList.all Char.isDigit = true := List.all_eq_true.mpr fun c hc => isDigit_of_mem_toString hc
  have hvalue : (toString n).toList.foldl (fun n c => 10 * n + (c.toNat - '0'.toNat)) 0 = n := by
    rw [Nat.toString_eq_ofList_toDigits, String.toList_ofList, ← Nat.ofDigitChars_eq_foldl]
    exact Nat.ofDigitChars_ten_toDigits
  unfold digits?
  split
  · rename_i hnil
    exact absurd hnil (toString_toList_ne_nil n)
  · rw [if_pos hall, hvalue]

theorem ne_sign_of_toString {n : Nat} {c : Char} {cs : List Char} (h : (toString n).toList = c :: cs) :
    c ≠ '-' ∧ c ≠ '+' := by
  have hc : c.isDigit = true := isDigit_of_mem_toString (by rw [h]; exact List.mem_cons_self)
  refine ⟨?_, ?_⟩ <;> rintro rfl <;> exact absurd hc (by decide)

theorem natural?_toString (n : Nat) : natural? (toString n).toList = some n := by
  unfold natural?
  split
  · rename_i hcs
    exact absurd rfl (ne_sign_of_toString hcs).2
  · exact digits?_toString n

theorem integer?_toString (n : Nat) : integer? (toString n).toList = some (n : Int) := by
  unfold integer?
  split
  · rename_i hcs
    exact absurd rfl (ne_sign_of_toString hcs).1
  · rw [natural?_toString]
    rfl

theorem int64?_toInt (n : Int64) : int64? n.toInt = some n := by
  rw [int64?, if_pos ⟨n.minValue_le_toInt, n.toInt_le⟩, Int64.ofInt_toInt]

theorem int64Text_eq_toString {n : Int64} (h : 0 ≤ n) : int64Text n = toString n.toInt.toNat := by
  obtain ⟨k, hk⟩ := Int.eq_ofNat_of_zero_le (Int64.le_iff_toInt_le.mp h)
  rw [int64Text, hk]
  rfl

/-- A number is written with digits, behind a sign if it is negative. -/
theorem int64Text_cases (n : Int64) : ∃ k : Nat, n.toInt = k ∧ (int64Text n).toList = (toString k).toList ∨
    n.toInt = -k ∧ (int64Text n).toList = '-' :: (toString k).toList := by
  rw [int64Text]
  rcases n.toInt with k | k
  · exact ⟨k, .inl ⟨rfl, rfl⟩⟩
  · refine ⟨k + 1, .inr ⟨rfl, ?_⟩⟩
    have htext : toString (Int.negSucc k) = "-" ++ toString (k + 1) := rfl
    simp [htext]

theorem integer?_int64Text (n : Int64) : integer? (int64Text n).toList = some n.toInt := by
  obtain ⟨k, ⟨hn, htext⟩ | ⟨hn, htext⟩⟩ := int64Text_cases n
  · rw [htext, integer?_toString, hn]
  · rw [htext, integer?, digits?_toString, hn]
    rfl

theorem readInt64?_int64Text (n : Int64) : readInt64? (int64Text n) = some n := by
  rw [readInt64?, integer?_int64Text, Option.bind_some, int64?_toInt]

theorem readUInt64?_uint64Text (n : UInt64) : readUInt64? (uint64Text n) = some n := by
  rw [readUInt64?, uint64Text, natural?_toString, Option.bind_some, if_pos n.toNat_lt_size, UInt64.ofNat_toNat]

end ItemQuery.Number
