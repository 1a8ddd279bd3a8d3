import Reckoner.Binary64.Power
import Reckoner.Proofs.Binary64.Integral

/-!
# Powers

How the kinds of two operands decide what becomes of their power: it fails as a division by zero
for a zero base and a negative exponent (`Binary64.pow?_eq_zeroBase_iff`), and where the exponent
is an integer, the parity of the exponent decides its sign (`Binary64.pow?_integral`).
-/

set_option autoImplicit false

namespace Reckoner

namespace Binary64

section

variable {s t : Bool} {m n : Nat} {e f : Int} {hx : Fits m e} {hy : Fits n f} {x y : Binary64}

/-! ## Kinds of operands -/

theorem pow?_of_isZero (h : y.isZero = true) : x.pow? y = .ok (one false) := if_pos h

theorem pow?_infinite_right (h : x ≠ .nan) : x.pow? (.infinite t) = .ok (powInfinite x t) := by
  cases x with
  | nan => exact absurd rfl h
  | _ => rfl

theorem pow?_infinite_left (hn : n ≠ 0) :
    (infinite s).pow? (.finite t n f hy) =
      .ok ((if t then zero else infinite) (s && (finite t n f hy).isOddInteger)) := by
  rw [pow?, if_neg (by simpa [isZero] using hn)]
  cases t <;> rfl

theorem pow?_zero_left {hx : Fits 0 e} (hn : n ≠ 0) :
    (finite s 0 e hx).pow? (.finite t n f hy) =
      if t then .error .zeroBase else .ok (zero (s && (finite t n f hy).isOddInteger)) := by
  rw [pow?, if_neg (by simpa [isZero] using hn)]
  rfl

/-- A negative base to an exponent that is not an integer. -/
theorem pow?_notReal (hm : m ≠ 0) (hn : n ≠ 0) (h : (finite t n f hy).toInt? = none) :
    (finite true m e hx).pow? (.finite t n f hy) =
      .error (if (powMagnitude m e t n f).isInfinite then .overflow else .notReal) := by
  rw [pow?, if_neg (by simpa [isZero] using hn)]
  simp only [hm, if_false, h]
  cases (powMagnitude m e t n f).isInfinite <;> rfl

/-- A power that is real; the magnitude of the base is raised, unless it is one. -/
theorem pow?_real (hm : m ≠ 0) (hn : n ≠ 0) (h : s = true → (finite t n f hy).toInt? ≠ none) :
    (finite s m e hx).pow? (.finite t n f hy) =
      if (finite s m e hx).abs = one false then .ok (one (s && (finite t n f hy).isOddInteger))
      else checkRange
        ((powMagnitude m e t n f).withSign (s && (finite t n f hy).isOddInteger)) := by
  have hreal : (s && (finite t n f hy).toInt?.isNone) = false := by
    cases s with
    | false => rfl
    | true =>
      obtain ⟨k, hk⟩ := Option.ne_none_iff_exists'.1 (h rfl)
      rw [hk]
      rfl
  rw [pow?, if_neg (by simpa [isZero] using hn)]
  simp only [hm, if_false, hreal]
  rfl

/-! ## Zero bases -/

theorem checkRange_ne_zeroBase : checkRange x ≠ .error .zeroBase := by
  unfold checkRange
  split <;> simp

/-- A power fails as a division by zero if the base is zero and the exponent finite and
negative. -/
theorem pow?_eq_zeroBase_iff :
    x.pow? y = .error .zeroBase ↔
      x.isZero = true ∧ y.isFinite = true ∧ y.isZero = false ∧ y.signBit = true := by
  cases y with
  | nan => cases x <;> simp [pow?, isZero, isFinite]
  | infinite t =>
    cases x with
    | nan => simp [pow?, isZero, isFinite]
    | _ => simp [pow?_infinite_right, isFinite]
  | finite t n f hf =>
    by_cases hn : n = 0
    · simp [pow?_of_isZero, isZero, hn]
    cases x with
    | nan => simp [pow?, isZero, hn]
    | infinite s => simp [pow?_infinite_left hn, isZero]
    | finite s m e hm =>
      by_cases hm0 : m = 0
      · subst hm0
        cases t <;> simp [pow?_zero_left hn, isZero, isFinite, signBit, hn]
      suffices hne : (finite s m e hm).pow? (.finite t n f hf) ≠ .error .zeroBase by
        simpa [isZero, hm0] using hne
      by_cases hreal : s = true → (finite t n f hf).toInt? ≠ none
      · rw [pow?_real hm0 hn hreal]
        split
        · simp
        · exact checkRange_ne_zeroBase
      · obtain ⟨rfl, hnone⟩ := Classical.not_imp.1 hreal
        rw [pow?_notReal hm0 hn (not_not.1 hnone)]
        split <;> simp

/-- A zero to the power of the negative infinity. -/
theorem powInfinite_of_isZero (h : x.isZero = true) : powInfinite x true = .infinite false := by
  cases x with
  | finite s m e hm =>
    obtain rfl : m = 0 := by simpa [isZero] using h
    obtain rfl : e = -1074 := by
      rw [fits_iff] at hm
      omega
    decide +revert
  | _ => cases h

/-! ## Signs -/

/-- A bracket settles on what some lower end is rounded to. -/
theorem exists_round_of_settle {bracket : Nat → Bracket} {widths : List Nat} (h : widths ≠ []) :
    ∃ width, settle bracket widths = Bracket.round (bracket width).low (bracket width).place := by
  fun_induction settle bracket widths with
  | case1 => exact absurd rfl h
  | case2 width => exact ⟨width, rfl⟩
  | case3 width wider _ b low hsame => exact ⟨width, rfl⟩
  | case4 width wider hwider b low hsame ih => exact ih hwider

theorem round_ne_nan (n : Nat) (place : Int) : Bracket.round n place ≠ .nan := by
  unfold Bracket.round
  split
  · exact Binary64.noConfusion
  split
  · exact Binary64.noConfusion
  split
  · exact Binary64.noConfusion
  · exact (ofScaled_rounds false n place).ne_nan

theorem powMagnitude_ne_nan : powMagnitude m e t n f ≠ .nan := by
  unfold powMagnitude
  dsimp only
  split
  · split <;> exact Binary64.noConfusion
  split
  · exact Binary64.noConfusion
  · obtain ⟨width, hwidth⟩ := exists_round_of_settle (List.cons_ne_nil _ _)
    rw [widths, hwidth]
    exact round_ne_nan _ _

theorem withSign_ne_nan (h : x ≠ .nan) : x.withSign s ≠ .nan := by
  cases x with
  | nan => exact absurd rfl h
  | _ => exact Binary64.noConfusion

theorem signBit_withSign (h : x ≠ .nan) : (x.withSign s).signBit = s := by
  cases x with
  | nan => exact absurd rfl h
  | _ => rfl

/-- With an integer as its exponent, a power is negative if the base is negative and the exponent
odd. -/
theorem pow?_integral {k : Int} (hx : x.isZero = false) (hnan : x ≠ .nan)
    (hy : y.toInt? = some k) :
    x.pow? y = .error .overflow ∨
      ∃ z, x.pow? y = .ok z ∧ z ≠ .nan ∧ z.signBit = (x.signBit && y.isOddInteger) := by
  obtain ⟨t, n, f, hn, rfl⟩ := exists_finite (toInt?_eq_some_iff.1 hy).1
  by_cases hzero : n = 0
  · -- the exponent zero is even
    have hk : (0 : ℚ) = k := by
      rw [← (toInt?_eq_some_iff.1 hy).2, value_eq_zero_iff.2 hzero]
    obtain rfl : k = 0 := by exact_mod_cast hk.symm
    rw [isOddInteger_eq hy, pow?_of_isZero (by simpa [isZero] using hzero)]
    exact .inr ⟨_, rfl, Binary64.noConfusion, by simp [one, signBit]⟩
  cases x with
  | nan => exact absurd rfl hnan
  | infinite s =>
    rw [pow?_infinite_left hzero]
    refine .inr ⟨_, rfl, ?_, ?_⟩
    · cases t <;> exact Binary64.noConfusion
    · cases t <;> rfl
  | finite s m e hm =>
    have hm0 : m ≠ 0 := by simpa [isZero] using hx
    rw [pow?_real hm0 hzero fun _ => by rw [hy]; exact Option.some_ne_none k]
    split
    · exact .inr ⟨_, rfl, Binary64.noConfusion, rfl⟩
    · unfold checkRange
      split
      · exact .inl rfl
      · exact .inr ⟨_, rfl, withSign_ne_nan powMagnitude_ne_nan,
          signBit_withSign powMagnitude_ne_nan⟩

end

end Binary64

end Reckoner
