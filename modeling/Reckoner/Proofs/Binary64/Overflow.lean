import Reckoner.Proofs.Binary64.Rounding

/-!
# Overflow

Arithmetic with operands that were rounded themselves, at most one of them to an infinity: where a
result is infinite, it has the sign of the result of the exact operands (`Binary64.add_directed`
and its like for the other operations), and `nan` only comes from an infinity times a zero.
-/

set_option autoImplicit false

namespace Reckoner

namespace Binary64

section

variable {v w : ℚ} {x y : Binary64} {s : Bool}

/-- A finite number is what its own value is rounded to. -/
theorem value_rounds (hx : x.isFinite = true) : Rounds x.value x := by
  obtain ⟨s, m, e, h, rfl⟩ := exists_finite hx
  exact .finite h (abs_value_lt (.finite s m e h)) (by rw [value, sub_self, abs_zero]; positivity)

namespace Rounds

theorem finite_or_infinite (h : Rounds v x) :
    (x.isFinite = true ∧ |v| < threshold) ∨ ∃ s, x = .infinite s ∧ threshold ≤ oriented s v := by
  cases h with
  | finite _ hv => exact .inl ⟨rfl, hv⟩
  | infinite hv => exact .inr ⟨_, rfl, hv⟩

/-- What is infinite has the sign of the exact value. -/
theorem infinite_pos (h : Rounds v (.infinite s)) : 0 < oriented s v :=
  threshold_pos.trans_le h.threshold_le

theorem ne_zero (h : Rounds v (.infinite s)) : v ≠ 0 := by
  rintro rfl
  simpa [oriented] using h.infinite_pos

protected theorem neg (h : Rounds v x) : Rounds (-v) x.neg := by
  cases h with
  | @finite s m e h hv herror =>
    refine .finite h (by rwa [abs_neg]) ?_
    have hflip : oriented (!s) (m * 2 ^ e) - -v = -(oriented s (m * 2 ^ e) - v) := by
      rw [oriented_not, neg_sub_neg, neg_sub]
    rwa [signBit, hflip, abs_neg]
  | @infinite s hv =>
    exact .infinite (by rwa [signBit, oriented_not, oriented_neg, neg_neg])

end Rounds

/-- Two operands that are rounded are less than the range apart from the exact ones. -/
theorem two_errors_lt_threshold : (2 : ℚ) ^ 970 + 2 ^ 970 < threshold := by
  have hpos : (0 : ℚ) < 2 ^ 970 := by positivity
  rw [threshold_eq, two_zpow_greatest]
  generalize (2 : ℚ) ^ 970 = u at hpos
  linarith

/-! ## Sums -/

theorem add_ne_nan (hx : Rounds v x) (hy : Rounds w y)
    (hone : x.isFinite = true ∨ y.isFinite = true) : x.add y ≠ .nan := by
  rcases hx.finite_or_infinite with ⟨hxf, -⟩ | ⟨a, rfl, -⟩ <;>
    rcases hy.finite_or_infinite with ⟨hyf, -⟩ | ⟨b, rfl, -⟩
  · exact (add_rounds hxf hyf).ne_nan
  · obtain ⟨s, m, e, _, rfl⟩ := exists_finite hxf
    exact Binary64.noConfusion
  · obtain ⟨s, m, e, _, rfl⟩ := exists_finite hyf
    exact Binary64.noConfusion
  · simp [Binary64.isFinite] at hone

/-- An infinite sum has the sign of the exact one. -/
theorem add_directed (hx : Rounds v x) (hy : Rounds w y)
    (hone : x.isFinite = true ∨ y.isFinite = true) (h : x.add y = .infinite s) :
    0 < oriented s (v + w) := by
  rw [oriented_add]
  rcases hx.finite_or_infinite with ⟨hxf, hv⟩ | ⟨a, rfl, hv⟩ <;>
    rcases hy.finite_or_infinite with ⟨hyf, hw⟩ | ⟨b, rfl, hw⟩
  · have hsum := add_rounds hxf hyf
    rw [h] at hsum
    have hrange := hsum.threshold_le
    have hxv := (oriented_le_abs s _).trans (hx.error hxf)
    have hyw := (oriented_le_abs s _).trans (hy.error hyf)
    rw [sub_eq_add_neg, oriented_add, oriented_neg] at hxv hyw
    rw [oriented_add] at hrange
    have herrors := two_errors_lt_threshold
    generalize (2 : ℚ) ^ 970 = u at hxv hyw herrors
    linarith
  · obtain ⟨_, _, _, _, rfl⟩ := exists_finite hxf
    cases h
    linarith [neg_abs_le_oriented s v]
  · obtain ⟨_, _, _, _, rfl⟩ := exists_finite hyf
    cases h
    linarith [neg_abs_le_oriented s w]
  · simp [Binary64.isFinite] at hone

theorem sub_ne_nan (hx : Rounds v x) (hy : Rounds w y)
    (hone : x.isFinite = true ∨ y.isFinite = true) : x.sub y ≠ .nan :=
  add_ne_nan hx hy.neg (by rwa [isFinite_neg])

/-- An infinite difference has the sign of the exact one. -/
theorem sub_directed (hx : Rounds v x) (hy : Rounds w y)
    (hone : x.isFinite = true ∨ y.isFinite = true) (h : x.sub y = .infinite s) :
    0 < oriented s (v - w) := by
  rw [sub_eq_add_neg]
  exact add_directed hx hy.neg (by rwa [isFinite_neg]) h

/-! ## Products and quotients -/

/-- What is rounded to a number other than zero has the sign of the number. -/
theorem oriented_signBit_pos (hx : Rounds v x) (hne : x.isFinite = true → x.value ≠ 0) :
    0 < oriented x.signBit v := by
  rcases hx.finite_or_infinite with ⟨hxf, -⟩ | ⟨a, rfl, hv⟩
  · refine hx.oriented_pos ?_
    have hvalue := hne hxf
    obtain ⟨a, m, e, _, rfl⟩ := exists_finite hxf
    rw [value, signBit, oriented_oriented]
    refine lt_of_le_of_ne (by positivity) fun hzero => ?_
    rw [value, ← hzero] at hvalue
    simp [oriented] at hvalue
  · exact threshold_pos.trans_le hv

theorem value_eq_zero_iff {a : Bool} {m : Nat} {e : Int} {h : Fits m e} :
    (finite a m e h).value = 0 ↔ m = 0 := by
  cases a <;> simp [value, zpow_ne_zero]

/-- Nothing of magnitude one or more is rounded to zero. -/
theorem Rounds.value_ne_zero (h : Rounds v x) (hx : x.isFinite = true) (hv : 1 ≤ |v|) :
    x.value ≠ 0 := by
  cases h with
  | @finite a m e hfits _ herror =>
    intro hzero
    obtain rfl := value_eq_zero_iff.1 hzero
    have he : e = -1074 := by
      rw [fits_iff] at hfits
      omega
    have hsmall : (2 : ℚ) ^ e ≤ 1 := zpow_le_one_of_nonpos₀ one_le_two (by omega)
    have hzero : oriented a (((0 : Nat) : ℚ) * 2 ^ e) = 0 := hzero
    rw [hzero, zero_sub, abs_neg] at herror
    linarith
  | infinite => cases hx

/-- An infinite product has the signs of its factors, and neither is zero. -/
theorem mul_eq_infinite (h : x.mul y = .infinite s) :
    s = (x.signBit != y.signBit) ∧ (x.isFinite = true → x.value ≠ 0) ∧
      (y.isFinite = true → y.value ≠ 0) := by
  cases x with
  | finite a m e hm =>
    cases y with
    | finite b n f hn =>
      have hproduct := mul_rounds (x := .finite a m e hm) (y := .finite b n f hn) rfl rfl
      rw [h] at hproduct
      obtain ⟨hxne, hyne⟩ := mul_ne_zero_iff.1 hproduct.ne_zero
      refine ⟨oriented_inj hproduct.infinite_pos ?_, fun _ => hxne, fun _ => hyne⟩
      rw [oriented_mul]
      exact mul_pos (oriented_signBit_pos (value_rounds rfl) fun _ => hxne)
        (oriented_signBit_pos (value_rounds rfl) fun _ => hyne)
    | infinite b =>
      simp only [mul] at h
      split at h
      · cases h
      · next hm0 =>
        cases h
        exact ⟨rfl, fun _ => mt value_eq_zero_iff.1 hm0, (absurd · Bool.false_ne_true)⟩
    | nan => cases h
  | infinite a =>
    cases y with
    | finite b n f hn =>
      simp only [mul] at h
      split at h
      · cases h
      · next hn0 =>
        cases h
        exact ⟨rfl, (absurd · Bool.false_ne_true), fun _ => mt value_eq_zero_iff.1 hn0⟩
    | infinite b =>
      cases h
      exact ⟨rfl, (absurd · Bool.false_ne_true), (absurd · Bool.false_ne_true)⟩
    | nan => cases h
  | nan => cases h

/-- An infinite product has the sign of the exact one. -/
theorem mul_directed (hx : Rounds v x) (hy : Rounds w y) (h : x.mul y = .infinite s) :
    0 < oriented s (v * w) := by
  obtain ⟨rfl, hxne, hyne⟩ := mul_eq_infinite h
  rw [oriented_mul]
  exact mul_pos (oriented_signBit_pos hx hxne) (oriented_signBit_pos hy hyne)

/-- Only an infinity and a zero have no product. -/
theorem mul_eq_nan (hx : Rounds v x) (hy : Rounds w y) (h : x.mul y = .nan) :
    (x.isFinite = false ∧ y.value = 0) ∨ (y.isFinite = false ∧ x.value = 0) := by
  rcases hx.finite_or_infinite with ⟨hxf, -⟩ | ⟨a, rfl, -⟩ <;>
    rcases hy.finite_or_infinite with ⟨hyf, -⟩ | ⟨b, rfl, -⟩
  · exact absurd h (mul_rounds hxf hyf).ne_nan
  · obtain ⟨_, m, e, _, rfl⟩ := exists_finite hxf
    simp only [mul] at h
    split at h
    · next hm => exact .inr ⟨rfl, value_eq_zero_iff.2 hm⟩
    · cases h
  · obtain ⟨_, m, e, _, rfl⟩ := exists_finite hyf
    simp only [mul] at h
    split at h
    · next hm => exact .inl ⟨rfl, value_eq_zero_iff.2 hm⟩
    · cases h
  · cases h

theorem div_eq_infinite (hy : y.isFinite = true → y.value ≠ 0) (h : x.div y = .infinite s) :
    s = (x.signBit != y.signBit) ∧ (x.isFinite = true → x.value ≠ 0) := by
  cases x with
  | finite a m e hm =>
    cases y with
    | finite b n f hn =>
      have hquotient := div_rounds (x := .finite a m e hm) (y := .finite b n f hn) rfl rfl (hy rfl)
      rw [h] at hquotient
      have hxne := (div_ne_zero_iff.1 hquotient.ne_zero).1
      refine ⟨oriented_inj hquotient.infinite_pos ?_, fun _ => hxne⟩
      rw [oriented_div]
      exact div_pos (oriented_signBit_pos (value_rounds rfl) fun _ => hxne)
        (oriented_signBit_pos (value_rounds rfl) fun _ => hy rfl)
    | infinite b => cases h
    | nan => cases h
  | infinite a =>
    cases y with
    | finite b n f hn =>
      cases h
      exact ⟨rfl, (absurd · Bool.false_ne_true)⟩
    | _ => cases h
  | nan => cases h

/-- An infinite quotient has the sign of the exact one. -/
theorem div_directed (hx : Rounds v x) (hy : Rounds w y) (hne : y.isFinite = true → y.value ≠ 0)
    (h : x.div y = .infinite s) : 0 < oriented s (v / w) := by
  obtain ⟨rfl, hxne⟩ := div_eq_infinite hne h
  rw [oriented_div]
  exact div_pos (oriented_signBit_pos hx hxne) (oriented_signBit_pos hy hne)

theorem div_ne_nan (hx : Rounds v x) (hy : Rounds w y)
    (hone : x.isFinite = true ∨ y.isFinite = true) (hne : y.isFinite = true → y.value ≠ 0) :
    x.div y ≠ .nan := by
  rcases hx.finite_or_infinite with ⟨hxf, -⟩ | ⟨a, rfl, -⟩ <;>
    rcases hy.finite_or_infinite with ⟨hyf, -⟩ | ⟨b, rfl, -⟩
  · exact (div_rounds hxf hyf (hne hyf)).ne_nan
  · obtain ⟨_, _, _, _, rfl⟩ := exists_finite hxf
    exact Binary64.noConfusion
  · obtain ⟨_, _, _, _, rfl⟩ := exists_finite hyf
    exact Binary64.noConfusion
  · simp [Binary64.isFinite] at hone

end

end Binary64

end Reckoner
