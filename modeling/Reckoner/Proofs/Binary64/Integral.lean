import Mathlib.Algebra.Ring.Int.Parity
import Reckoner.Proofs.Binary64.Overflow

/-!
# Integers in binary64

A finite number is an integer where its exact value is one (`Binary64.toInt?_eq_some_iff`). An
integer in range is rounded to itself or, if it has more than 53 bits, to an even one
(`Binary64.ofInt_integral`).
-/

set_option autoImplicit false

namespace Reckoner

namespace Binary64

section

variable {s : Bool} {m : Nat} {e : Int} {x : Binary64} {n : Int}

/-! ## Integral values -/

/-- A value at a negative place is a quotient. -/
theorem value_of_neg {h : Fits m e} (he : e < 0) :
    (finite s m e h).value = oriented s (m / powTwo (-e)) := by
  rw [value, powTwo_of_nonneg (by omega), zpow_neg, div_inv_eq_mul]

/-- A number is an integer if its value is one. -/
theorem toInt?_eq_some_iff : x.toInt? = some n ↔ x.isFinite = true ∧ x.value = n := by
  cases x with
  | finite s m e h =>
    rw [toInt?, isFinite, eq_self, true_and]
    by_cases he : 0 ≤ e
    · have hvalue : (finite s m e h).value = (signed s (m * powTwo e) : Int) := by
        rw [value, cast_signed, Nat.cast_mul, powTwo_of_nonneg he]
      rw [if_pos he, hvalue, Option.some_inj, Int.cast_inj]
    have hd : (powTwo (-e) : ℚ) ≠ 0 := by exact_mod_cast (powTwo_pos (-e)).ne'
    rw [if_neg he, value_of_neg (by omega)]
    generalize powTwo (-e) = d at hd
    by_cases hm : m % d = 0
    · obtain ⟨q, rfl⟩ := Nat.dvd_of_mod_eq_zero hm
      have hd0 : 0 < d := Nat.pos_of_ne_zero (by exact_mod_cast hd)
      rw [if_pos hm, Nat.cast_mul, mul_div_cancel_left₀ _ hd, Nat.mul_div_cancel_left _ hd0,
        ← cast_signed, Option.some_inj, Int.cast_inj]
    · rw [if_neg hm]
      refine iff_of_false (Option.some_ne_none n).symm fun hn =>
        hm (Nat.mod_eq_zero_of_dvd ⟨n.natAbs, ?_⟩)
      have habs := congrArg (|·|) hn
      rw [abs_oriented, abs_of_nonneg (by positivity), div_eq_iff hd] at habs
      have : (m : ℚ) = (d * n.natAbs : Nat) := by
        rw [habs, Nat.cast_mul, Nat.cast_natAbs, Int.cast_abs, mul_comm]
      exact_mod_cast this
  | _ => simp [toInt?, isFinite]

theorem isOddInteger_eq (h : x.toInt? = some n) : x.isOddInteger = decide (Odd n) := by
  simp [isOddInteger, h, Int.odd_iff, beq_eq_decide]

/-! ## Integers that are rounded -/

theorem value_ofParts (h : (ofParts s m e).isFinite = true) :
    (ofParts s m e).value = oriented s (m * 2 ^ e) := by
  unfold ofParts at h ⊢
  split
  · rfl
  · next hfits =>
    rw [dif_neg hfits] at h
    cases h

/-- What is rounded to a finite number is a multiple of its place, carried or not. -/
theorem exists_roundedAt (hn : 0 < m) (h : (ofRatio s m 1).isFinite = true) :
    ∃ k p, RoundedAt m k p ∧ (ofRatio s m 1).value = oriented s (k * 2 ^ p) := by
  obtain ⟨k, p, hrounded, hresult⟩ := exists_rounded s hn one_pos
  rw [Nat.cast_one, div_one] at hrounded
  refine ⟨k, p, hrounded, ?_⟩
  rw [hresult] at h ⊢
  split
  · next hk =>
    rw [if_pos hk] at h
    rw [value_ofParts h, hk, zpow_add_one₀ two_ne_zero]
    congr 1
    push_cast
    ring
  · next hk =>
    rw [if_neg hk] at h
    exact value_ofParts h

/-- At a place that is not above one an integer is a whole number of units, so that nothing is
rounded away. -/
theorem RoundedAt.eq_of_nonpos {N k : Nat} {p : Int} (h : RoundedAt N k p) (hp : p ≤ 0) :
    (k * 2 ^ p : ℚ) = N := by
  have hunit : (0 : ℚ) < 2 ^ p := by positivity
  have hd : (2 : ℚ) ^ p * powTwo (-p) = 1 := by
    rw [powTwo_of_nonneg (by omega), ← zpow_add₀ two_ne_zero, add_neg_cancel, zpow_zero]
  have herror : |((k - N * powTwo (-p) : Int) : ℚ)| * 2 ^ p ≤ 1 / 2 * 2 ^ p := by
    have hscaled : ((k - N * powTwo (-p) : Int) : ℚ) * 2 ^ p = k * 2 ^ p - N := by
      push_cast
      rw [sub_mul, mul_assoc, mul_comm (powTwo (-p) : ℚ), hd, mul_one]
    calc |((k - N * powTwo (-p) : Int) : ℚ)| * 2 ^ p = |(k * 2 ^ p - N : ℚ)| := by
          rw [← hscaled, abs_mul, abs_of_pos hunit]
      _ ≤ 1 / 2 * 2 ^ p := by linarith [h.error]
  have hlt : |((k - N * powTwo (-p) : Int) : ℚ)| < 1 :=
    (le_of_mul_le_mul_right herror hunit).trans_lt (by norm_num)
  have hzero : (k - N * powTwo (-p) : Int) = 0 := Int.abs_lt_one_iff.1 (by exact_mod_cast hlt)
  have hk : (k : ℚ) = N * powTwo (-p) := by exact_mod_cast sub_eq_zero.1 hzero
  rw [hk, mul_assoc, mul_comm (powTwo (-p) : ℚ), hd, mul_one]

/-- At a greater place an integer has more than 53 bits, and every multiple of the unit is even. -/
theorem RoundedAt.even_of_pos {N k : Nat} {p : Int} (h : RoundedAt N k p) (hp : 0 < p) :
    2 ^ 53 ≤ N ∧ ∃ j : Nat, Even j ∧ (k * 2 ^ p : ℚ) = j := by
  constructor
  · have hlow := h.bottom.resolve_left (by omega)
    have htwo : (2 : ℚ) ≤ 2 ^ p := by
      simpa using zpow_le_zpow_right₀ (one_le_two (α := ℚ)) (show (1 : Int) ≤ p by omega)
    have : (2 ^ 53 : ℚ) ≤ N := by linarith
    exact_mod_cast this
  · obtain ⟨q, rfl⟩ : ∃ q : Nat, p = q + 1 := ⟨(p - 1).toNat, by omega⟩
    refine ⟨k * 2 ^ (q + 1), (Nat.even_pow.2 ⟨even_two, q.succ_ne_zero⟩).mul_left k, ?_⟩
    push_cast
    rw [← zpow_natCast, Nat.cast_succ]

/-- An integer in range is rounded to itself, or has more than 53 bits and is rounded to an even
one. -/
theorem ofInt_integral (h : (ofInt n).isFinite = true) :
    ∃ k, (ofInt n).toInt? = some k ∧ (k = n ∨ 2 ^ 53 ≤ |n| ∧ Even k) := by
  rcases eq_or_ne n 0 with rfl | hn
  · exact ⟨0, by decide, .inl rfl⟩
  obtain ⟨k, p, hrounded, hvalue⟩ := exists_roundedAt (Int.natAbs_pos.2 hn) h
  rcases le_or_gt p 0 with hp | hp
  · refine ⟨n, toInt?_eq_some_iff.2 ⟨h, ?_⟩, .inl rfl⟩
    rw [ofInt, hvalue, hrounded.eq_of_nonpos hp, oriented_natAbs]
  · obtain ⟨hbits, j, hj, hkj⟩ := hrounded.even_of_pos hp
    refine ⟨signed (decide (n < 0)) j, toInt?_eq_some_iff.2 ⟨h, ?_⟩, .inr ⟨?_, ?_⟩⟩
    · rw [ofInt, hvalue, hkj, cast_signed]
    · rw [Int.abs_eq_natAbs]
      exact_mod_cast hbits
    · cases decide (n < 0) <;> simpa [signed] using hj

/-- No integer of at most 53 bits is rounded. -/
theorem toInt?_ofInt (h : |n| < 2 ^ 53) : (ofInt n).toInt? = some n := by
  have hrange : |(n : ℚ)| < threshold := by
    refine lt_threshold (p := 1) ?_ (by decide)
    have : |(n : ℚ)| < 2 ^ 53 := by exact_mod_cast h
    exact this.trans (by norm_num)
  obtain ⟨k, hk, rfl | ⟨hle, -⟩⟩ := ofInt_integral ((ofInt_rounds n).isFinite hrange)
  · exact hk
  · exact absurd h (not_lt_of_ge hle)

end

end Binary64

end Reckoner
