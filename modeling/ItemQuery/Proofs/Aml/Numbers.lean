import Mathlib.Algebra.Field.Rat
import Mathlib.Algebra.Order.Ring.Cast
import Mathlib.Data.Int.Cast.Lemmas
import ItemQuery.Proofs.Aml.Told

/-! Numbers in value lists and ranges. Each is read as a number that is compared alike: an integer as an integer or its
    opposite, but the least one, which has no opposite, as a floating point number of its size. -/

namespace ItemQuery

/-- A floating point number that is whole is compared as the integer. -/
theorem Value.alike_float_integer {x : Float} {n : Int} (h : Number.toRat? x = some (n : Rat)) :
    Value.Alike (.float x) (.integer n) := by
  have hcast : ∀ m : Int, Ord.compare (m : Rat) (n : Rat) = Ord.compare m n := by
    intro m
    rw [LinearOrder.compare_eq_compareOfLessAndEq]
    simp only [compareOfLessAndEq, Int.cast_lt, Int.cast_inj]
    rfl
  rintro (_ | _ | m | y | _ | _ | _ | _) <;> simp only [Value.order?, h, Option.map_some, hcast]
  cases Number.toRat? y <;> rfl

namespace Aml

variable {w : Writer} {V : Interpretation → Valuation → Prop}

/-- A number that is written with a numeral. -/
theorem enumerable_numeral {e x : Expr} {text : String} (hrefs : e.tableRefs = []) (htext : w.listText e = .ok text)
    (hnumeral : Sql.IsNumeral text.toList) (hx : Sql.IsValue text x) (hne : ∀ s, x ≠ .text s) (hxrefs : x.tableRefs = [])
    (halike : ∀ I v, V I v → (x.eval I v).Alike (e.eval I v)) : Enumerable w V e := by
  refine enumerable_of_legible hrefs htext (ne_quoted ?_) (Sql.legible_numeral hnumeral hx) hne hxrefs halike
  obtain ⟨d, ds, hcons, hd⟩ := hnumeral.exists_cons
  rw [hcons]
  intro hhead
  cases hhead
  cases hd

/-- A number that is written with a numeral behind a sign. -/
theorem enumerable_negative {e x : Expr} {text : String} (hrefs : e.tableRefs = [])
    (htext : w.listText e = .ok ("-" ++ text)) (hnumeral : Sql.IsNumeral text.toList) (hx : Sql.IsValue text x)
    (hxrefs : x.tableRefs = []) (halike : ∀ I v, V I v → ((Expr.negate x).eval I v).Alike (e.eval I v)) :
    Enumerable w V e := by
  refine enumerable_of_legible hrefs htext (ne_quoted ?_) (Sql.legible_negative hnumeral hx) (by rintro s ⟨⟩) hxrefs halike
  simp

/-- Beyond the range of integers a numeral is read as a floating point number. -/
theorem isValue_beyond : Sql.IsValue "9223372036854775808" (.literal (.float 9223372036854775808)) := by
  intro t ht
  have hinteger : Number.readInt64? "9223372036854775808" = none := by decide +kernel
  have hfloat : Number.readFloat? "9223372036854775808" = some 9223372036854775808 := by decide +kernel
  simp only [Sql.numberValue, ht, hinteger, hfloat, ite_self]

/-- Integers may stand in lists and ranges. -/
theorem enumerable_integer (n : Int64) : Enumerable w V (.int n) := by
  have hwritten : w.listText (.int n) = .ok (Number.int64Text n) := by
    rw [Expr.int, Writer.listText]
    rfl
  by_cases hn : 0 ≤ n
  · exact enumerable_numeral rfl hwritten (Sql.isNumeral_int64Text hn) (Sql.isValue_int hn) (by rintro s ⟨⟩) rfl
      fun _ _ _ => .refl _
  by_cases hleast : n = Int64.minValue
  · subst hleast
    have hsigned : w.listText (.int Int64.minValue) = .ok ("-" ++ "9223372036854775808") := hwritten
    exact enumerable_negative rfl hsigned (Sql.isNumeral_toString 9223372036854775808) isValue_beyond rfl
      fun _ _ _ => Value.alike_float_integer (by decide +kernel)
  · have hopposite : (-n).toInt = -n.toInt := by
      have hlow : -9223372036854775808 ≤ n.toInt := n.minValue_le_toInt
      have hhigh : n.toInt ≤ 9223372036854775807 := n.toInt_le
      have hne : n.toInt ≠ -9223372036854775808 := fun h => hleast (Int64.toInt_inj.mp h)
      rw [Int64.toInt_neg]
      exact Int.bmod_eq_of_le (by omega) (by omega)
    rw [Int64.le_iff_toInt_le] at hn
    have hpositive : 0 ≤ -n := by
      rw [Int64.le_iff_toInt_le, hopposite]
      change (0 : Int) ≤ -n.toInt
      change ¬(0 : Int) ≤ n.toInt at hn
      omega
    have htext : Number.int64Text n = "-" ++ Number.int64Text (-n) := by
      rw [Number.int64Text, Number.int64Text, hopposite]
      cases hint : n.toInt with
      | ofNat k => exact absurd (hint ▸ Int.natCast_nonneg k) hn
      | negSucc k => rfl
    rw [htext] at hwritten
    refine enumerable_negative rfl hwritten (Sql.isNumeral_int64Text hpositive) (Sql.isValue_int hpositive) rfl
      fun I v _ => ?_
    have hvalue : (Expr.negate (.int (-n))).eval I v = (Expr.int n).eval I v := by
      change Value.integer (-(-n).toInt) = Value.integer n.toInt
      rw [hopposite, Int.neg_neg]
    rw [hvalue]
    exact .refl _

/-- Floating point numbers may stand in lists and ranges if their texts are read back. -/
theorem enumerable_float {x : Float} (h : Sql.ReadsBack x) : Enumerable w V (.literal (.float x)) := by
  have hwritten : w.listText (.literal (.float x)) = .ok (Number.floatText x) := by
    rw [Writer.listText]
    rfl
  obtain ⟨text, hnumeral, ⟨htext, hvalue⟩ | ⟨y, htext, hvalue, rfl⟩⟩ := h.exists_numeral
  · rw [htext] at hwritten
    exact enumerable_numeral rfl hwritten hnumeral hvalue (by rintro s ⟨⟩) rfl fun _ _ _ => .refl _
  · rw [htext] at hwritten
    exact enumerable_negative rfl hwritten hnumeral hvalue rfl fun _ _ _ => .refl _

end Aml
end ItemQuery
