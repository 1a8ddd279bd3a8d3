import Reckoner.Number.Basic

/-!
# The text of an integer

An integer is written with its decimal digits, after a minus sign if it is negative. It has a text
exactly if there are not too many of them (`tooLong_eq_false_iff`).
-/

set_option autoImplicit false

namespace Reckoner

namespace Number

theorem toList_toString_natCast (m : Nat) : (toString (m : Int)).toList = Nat.toDigits 10 m := by
  show (Nat.repr m).toList = _
  rw [Nat.repr_eq_ofList_toDigits, String.toList_ofList]

theorem toList_toString_negSucc (m : Nat) :
    (toString (Int.negSucc m)).toList = '-' :: Nat.toDigits 10 (m + 1) := by
  show ("-" ++ Nat.repr (m + 1)).toList = _
  rw [Nat.repr_eq_ofList_toDigits, String.toList_append,
    String.toList_ofList (l := Nat.toDigits 10 (m + 1))]
  rfl

theorem isDigit_of_mem_toDigits {m : Nat} : ∀ c ∈ Nat.toDigits 10 m, c.isDigit = true :=
  fun _ hc => Nat.isDigit_of_mem_toDigits (by decide) (by decide) hc

/-- Reading the digits of a natural gives it back. -/
theorem ofDigits_toDigits (m : Nat) : Binary64.ofDigits (Nat.toDigits 10 m) = m :=
  Nat.ofDigitChars_ten_toDigits

theorem tooLong_eq_false_iff {n : Int} :
    tooLong n = false ↔ (Nat.toDigits 10 n.natAbs).length ≤ digitLimit := by
  -- the power is not to be computed
  have hlimit : ∀ limit : Nat, 0 < limit →
      (decide (powTen limit ≤ n.natAbs) = false ↔
        (Nat.toDigits 10 n.natAbs).length ≤ limit) := by
    intro limit hpos
    rw [decide_eq_false_iff_not, Nat.not_le, Nat.length_toDigits_le_iff (by decide) hpos]
    rfl
  exact hlimit _ (by decide)

end Number

end Reckoner
