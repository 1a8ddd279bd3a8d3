import Reckoner.Number.Basic
import Reckoner.Proofs.Binary64.Overflow

/-!
# Exact values

A finite number has an exact value, which decides how the number compares with zero
(`Number.compare?_zero`). The nearest binary64 number has the sign of that value, unless it is zero
(`Number.signBit_toBinary64`), and is finite for a number in range (`Number.inRange_iff`).
-/

set_option autoImplicit false

namespace Reckoner

theorem Binary64.isZero_iff {x : Binary64} :
    x.isZero = true ↔ x.isFinite = true ∧ x.value = 0 := by
  cases x with
  | finite s m e h => simp [isZero, isFinite, value_eq_zero_iff]
  | _ => simp [isZero, isFinite]

namespace Number

open Binary64 (threshold Rounds)

/-- Neither infinite nor `nan`. -/
def IsFinite : Number → Prop
  | .int _ => True
  | .float x => x.isFinite = true

/-- The exact value of a finite number. -/
def value : Number → ℚ
  | .int n => n
  | .float x => x.value

/-- Finite, and not an integer out of the binary64 range. -/
def InRange (x : Number) : Prop := x.IsFinite ∧ |x.value| < threshold

section

variable {x y : Number}

/-! ## Zero -/

theorem compare_cast_zero (n : Int) : compare n 0 = cmp (n : ℚ) 0 := by
  rw [← cmp_eq_compare, ← Int.cast_strictMono (R := ℚ) |>.cmp_map_eq, Int.cast_zero]

/-- A finite number compares with zero as its value does. -/
theorem compare?_zero (hx : x.IsFinite) : x.compare? (.int 0) = some (cmp x.value 0) := by
  cases x with
  | int n => exact congrArg some (compare_cast_zero n)
  | float x =>
    obtain ⟨s, m, e, _, rfl⟩ := Binary64.exists_finite hx
    have hpos : (0 : Int) < powTwo (e - 0) := by exact_mod_cast powTwo_pos _
    have hvalue : (Binary64.signed s m : ℚ) * 2 ^ e = Binary64.oriented s (m * 2 ^ e) := by
      rw [Binary64.cast_signed, ← Binary64.oriented_mul_right]
    calc Option.map Ordering.swap (some (compare (0 * (powTwo (0 - e) : Int))
          (Binary64.signed s m * powTwo (e - 0))))
        = some (cmp (Binary64.signed s m * powTwo (e - 0)) (0 * (powTwo (e - 0) : Int))) := by
          rw [Option.map_some, zero_mul, zero_mul, ← cmp_eq_compare, cmp_swap]
      _ = some (cmp ((Binary64.signed s m : ℚ) * 2 ^ e) (0 * 2 ^ e)) := by
          rw [cmp_mul_pos_right hpos, cmp_mul_pos_right (by positivity), cmp_eq_compare,
            compare_cast_zero]
      _ = some (cmp (Binary64.oriented s (m * 2 ^ e)) 0) := by rw [hvalue, zero_mul]

theorem int_lt_zero_iff {n : Int} : (int n).lt (.int 0) = true ↔ n < 0 := by
  simp [lt, compare?, compare_lt_iff_lt]

theorem lt_zero_iff (hx : x.IsFinite) : x.lt (.int 0) = true ↔ x.value < 0 := by
  rw [lt, compare?_zero hx, beq_iff_eq, Option.some_inj, cmp_eq_lt_iff]

theorem eq_zero_iff (hx : x.IsFinite) : x.eq (.int 0) = true ↔ x.value = 0 := by
  rw [eq, compare?_zero hx, beq_iff_eq, Option.some_inj, cmp_eq_eq_iff]

theorem toBinary64_rounds (hx : x.IsFinite) : Rounds x.value x.toBinary64 := by
  cases x with
  | int n => exact Binary64.ofInt_rounds n
  | float x => exact Binary64.value_rounds hx

theorem toBinary64_ne_zero (hy : y.IsFinite) (hne : y.value ≠ 0)
    (hf : y.toBinary64.isFinite = true) : y.toBinary64.value ≠ 0 := by
  cases y with
  | float y => exact hne
  | int n =>
    refine (Binary64.ofInt_rounds n).value_ne_zero hf ?_
    have hn : n ≠ 0 := by simpa [value] using hne
    exact_mod_cast Int.one_le_abs hn

/-- A number is in range if it has a finite nearest binary64 number. -/
theorem inRange_iff (hx : x.IsFinite) : x.InRange ↔ x.toBinary64.isFinite = true := by
  refine ⟨fun h => (toBinary64_rounds hx).isFinite h.2, fun h => ⟨hx, ?_⟩⟩
  rcases (toBinary64_rounds hx).finite_or_infinite with ⟨-, hrange⟩ | ⟨s, hs, -⟩
  · exact hrange
  · rw [hs] at h
    cases h

theorem isZero_toBinary64 (hx : x.IsFinite) : x.toBinary64.isZero = true ↔ x.value = 0 := by
  rw [Binary64.isZero_iff]
  refine ⟨fun ⟨hf, hzero⟩ => by_contra fun hne => toBinary64_ne_zero hx hne hf hzero, fun h => ?_⟩
  cases x with
  | float x => exact ⟨hx, h⟩
  | int n =>
    obtain rfl : n = 0 := by simpa [value] using h
    exact ⟨rfl, by simp [toBinary64, Binary64.ofInt, Binary64.ofRatio, Binary64.zero,
      Binary64.value, Binary64.oriented]⟩

/-- The nearest binary64 number of a number other than zero has its sign, if only as an
infinity. -/
theorem signBit_toBinary64 (hx : x.IsFinite) (hne : x.value ≠ 0) :
    x.toBinary64.signBit = decide (x.value < 0) := by
  have hpos := Binary64.oriented_signBit_pos (toBinary64_rounds hx) (toBinary64_ne_zero hx hne)
  cases hsign : x.toBinary64.signBit <;> rw [hsign] at hpos
  · exact (decide_eq_false (not_lt_of_gt hpos)).symm
  · exact (decide_eq_true (neg_pos.1 hpos)).symm

end

end Number

end Reckoner
