import Reckoner.Binary64.Decimal
import Reckoner.Proofs.Binary64.Rounding

/-!
# Nearest numbers

The binary64 number nearest to a value is said here without a word on how it is found
(`Binary64.Nearest`): no finite number is nearer, and of two that are equally near it is the one
with the even significand. There is no other one (`Binary64.Nearest.unique`). A quotient of
naturals is rounded to it (`Binary64.ofRatio_nearest`), and a decimal is read as it
(`Binary64.ofDecimal_nearest`).
-/

set_option autoImplicit false

namespace Reckoner

/-- Of `e` and `-e` at most one is above zero, and the other one has the power one. -/
theorem powTen_cast (e : Int) : (powTen e : ℚ) = 10 ^ e * powTen (-e) := by
  unfold powTen
  rcases Int.le_total 0 e with h | h
  · obtain ⟨k, rfl⟩ := Int.eq_ofNat_of_zero_le h
    have hk : (-(k : Int)).toNat = 0 := by omega
    simp [hk]
  · obtain ⟨k, hk⟩ := Int.eq_ofNat_of_zero_le (Int.neg_nonneg.2 h)
    obtain rfl : e = -k := by omega
    have hk : (-(k : Int)).toNat = 0 := by omega
    simp [hk]

theorem powTen_pos (e : Int) : 0 < powTen e := Nat.pow_pos (by decide)

namespace Binary64

/-- `x` is the number nearest to the value `v`, which is not negative: the infinity from the end of
the range on. -/
inductive Nearest (v : ℚ) : Binary64 → Prop where
  | finite {m : Nat} {e : Int} (h : Fits m e) (hv : v < threshold)
      (hnearest : ∀ n f, Fits n f → |(m * 2 ^ e : ℚ) - v| ≤ |(n * 2 ^ f : ℚ) - v|)
      (heven : ∀ n f, Fits n f → (n * 2 ^ f : ℚ) ≠ m * 2 ^ e →
        |(n * 2 ^ f : ℚ) - v| = |(m * 2 ^ e : ℚ) - v| → Even m) :
      Nearest v (.finite false m e h)
  | infinite (hv : threshold ≤ v) : Nearest v (.infinite false)

section

variable {v : ℚ} {m n : Nat} {e f p : Int}

/-! ## Finite numbers -/

/-- A number at a place that is not below another one is a multiple of the unit there. -/
theorem exists_multiple (n : Nat) (h : e ≤ f) :
    ∃ j : Nat, (n * 2 ^ f : ℚ) = ((n * 2 ^ j : Nat) : ℚ) * 2 ^ e ∧ f = e + j := by
  obtain ⟨j, hj⟩ := Int.eq_ofNat_of_zero_le (Int.sub_nonneg.2 h)
  obtain rfl : f = e + j := by omega
  refine ⟨j, ?_, rfl⟩
  rw [zpow_add₀ two_ne_zero, zpow_natCast]
  push_cast
  ring

/-- The numbers below a place are half a unit at least below its least number. -/
theorem Fits.below (h : Fits n f) (hlt : f < p) :
    (n * 2 ^ f : ℚ) + 2 ^ p / 2 ≤ 2 ^ 52 * 2 ^ p := by
  have hn : (n : ℚ) ≤ 2 ^ 53 - 1 := by
    have : (n + 1 : ℚ) ≤ 2 ^ 53 := by exact_mod_cast (fits_iff.1 h).1
    linarith
  have hunit : (2 : ℚ) ^ f ≤ 2 ^ p / 2 :=
    calc (2 : ℚ) ^ f ≤ 2 ^ (p - 1) := zpow_le_zpow_right₀ one_le_two (by omega)
      _ = 2 ^ p / 2 := zpow_sub_one₀ two_ne_zero p
  calc (n * 2 ^ f : ℚ) + 2 ^ p / 2 ≤ (2 ^ 53 - 1) * (2 ^ p / 2) + 2 ^ p / 2 := by gcongr
    _ = 2 ^ 52 * 2 ^ p := by ring

/-- Equal numbers are written alike. -/
theorem Fits.value_inj (h : Fits m e) (h' : Fits n f) (heq : (m * 2 ^ e : ℚ) = n * 2 ^ f) :
    m = n ∧ e = f := by
  have hne : ∀ {m n : Nat} {e f : Int}, Fits m e → Fits n f → e < f →
      (m * 2 ^ e : ℚ) ≠ n * 2 ^ f := by
    intro m n e f h h' hlt heq
    have hbelow := h.below hlt
    have hn : (2 : ℚ) ^ 52 ≤ n := by
      have : 2 ^ 52 ≤ n := (fits_iff.1 h').2.2.2.resolve_right (by have := h.2.1; omega)
      exact_mod_cast this
    have hunit : (0 : ℚ) < 2 ^ f := by positivity
    have : (2 : ℚ) ^ 52 * 2 ^ f ≤ n * 2 ^ f := by gcongr
    linarith
  rcases lt_trichotomy e f with hlt | rfl | hlt
  · exact absurd heq (hne h h' hlt)
  · have hunit : (2 : ℚ) ^ e ≠ 0 := by positivity
    exact ⟨by exact_mod_cast mul_right_cancel₀ hunit heq, rfl⟩
  · exact absurd heq.symm (hne h' h hlt)

/-- Between two numbers with even significands there is another one. -/
theorem Fits.exists_between (h : Fits m e) (h' : Fits n f) (hm : Even m) (hn : Even n)
    (hlt : (m * 2 ^ e : ℚ) < n * 2 ^ f) :
    ∃ k g, Fits k g ∧ (m * 2 ^ e : ℚ) < k * 2 ^ g ∧ (k * 2 ^ g : ℚ) < n * 2 ^ f := by
  have hunit : (0 : ℚ) < 2 ^ e := by positivity
  refine ⟨m + 1, e, ?_, by push_cast; gcongr; exact lt_add_one _, ?_⟩
  · obtain ⟨j, rfl⟩ := hm
    rw [fits_iff] at h ⊢
    omega
  rcases le_or_gt e f with hef | hfe
  · obtain ⟨j, hj, -⟩ := exists_multiple n hef
    rw [hj] at hlt ⊢
    have hmj : m < n * 2 ^ j := by exact_mod_cast lt_of_mul_lt_mul_right hlt hunit.le
    obtain ⟨i, rfl⟩ := hm
    obtain ⟨k, hk⟩ := hn.mul_right (2 ^ j)
    gcongr
    omega
  · have hbelow := h'.below hfe
    have hm : (2 : ℚ) ^ 52 ≤ m := by
      have : 2 ^ 52 ≤ m := (fits_iff.1 h).2.2.2.resolve_right (by have := h'.2.1; omega)
      exact_mod_cast this
    have : (2 : ℚ) ^ 52 * 2 ^ e ≤ m * 2 ^ e := by gcongr
    linarith

/-! ## Uniqueness -/

/-- What lies between two values is nearer than the farther one of them. -/
theorem abs_sub_lt_of_between {a b c d : ℚ} (ha : |a - v| ≤ d) (hb : |b - v| ≤ d) (hac : a < c)
    (hcb : c < b) : |c - v| < d := by
  rw [abs_le] at ha hb
  rw [abs_lt]
  constructor <;> linarith

/-- Two different numbers that are equally near have not both an even significand. -/
theorem not_both_nearest (h : Fits m e) (h' : Fits n f) (hm : Even m) (hn : Even n)
    (hnearest : ∀ k g, Fits k g → |(m * 2 ^ e : ℚ) - v| ≤ |(k * 2 ^ g : ℚ) - v|)
    (hsame : |(n * 2 ^ f : ℚ) - v| = |(m * 2 ^ e : ℚ) - v|) :
    ¬ (m * 2 ^ e : ℚ) < n * 2 ^ f := by
  intro hlt
  obtain ⟨k, g, hk, hmk, hkn⟩ := h.exists_between h' hm hn hlt
  exact not_lt_of_ge (hnearest k g hk) (abs_sub_lt_of_between le_rfl hsame.le hmk hkn)

/-- There is only one nearest number. -/
theorem Nearest.unique {x y : Binary64} (hx : Nearest v x) (hy : Nearest v y) : x = y := by
  cases hx with
  | infinite hv =>
    cases hy with
    | infinite => rfl
    | finite h hv' => exact absurd hv' (not_lt_of_ge hv)
  | @finite m e h hv hnearest heven =>
    cases hy with
    | infinite hv' => exact absurd hv (not_lt_of_ge hv')
    | @finite n f h' _ hnearest' heven' =>
      have hsame : |(n * 2 ^ f : ℚ) - v| = |(m * 2 ^ e : ℚ) - v| :=
        le_antisymm (hnearest' m e h) (hnearest n f h')
      have heq : (m * 2 ^ e : ℚ) = n * 2 ^ f := by
        by_contra hne
        have hm : Even m := heven n f h' (Ne.symm hne) hsame
        have hn : Even n := heven' m e h hne hsame.symm
        rcases lt_or_gt_of_ne hne with hlt | hlt
        · exact not_both_nearest h h' hm hn hnearest hsame hlt
        · exact not_both_nearest h' h hn hm hnearest' hsame.symm hlt
      obtain ⟨rfl, rfl⟩ := h.value_inj h' heq
      rfl

/-! ## Rounding -/

/-- Whatever else there is, is half a place away at least. -/
theorem RoundedAt.half_le (h : RoundedAt v m p) (hf : Fits n f)
    (hne : (n * 2 ^ f : ℚ) ≠ m * 2 ^ p) : (2 ^ p / 2 : ℚ) ≤ |(n * 2 ^ f : ℚ) - v| := by
  have hunit : (0 : ℚ) < 2 ^ p := by positivity
  rcases le_or_gt p f with hpf | hfp
  · -- another multiple of the unit is one unit away from this one
    obtain ⟨j, hj, -⟩ := exists_multiple n hpf
    rw [hj] at hne ⊢
    generalize n * 2 ^ j = k at hne
    have hone : (1 : ℚ) ≤ |(k : ℚ) - m| := by
      have hkm : (k : Int) - m ≠ 0 := by
        intro hzero
        obtain rfl : k = m := by omega
        exact hne rfl
      exact_mod_cast Int.one_le_abs hkm
    have hunits : (2 : ℚ) ^ p ≤ |(k * 2 ^ p : ℚ) - m * 2 ^ p| := by
      rw [← sub_mul, abs_mul, abs_of_pos hunit]
      exact le_mul_of_one_le_left hunit.le hone
    have htriangle := abs_sub_le (k * 2 ^ p : ℚ) v (m * 2 ^ p)
    rw [abs_sub_comm v] at htriangle
    linarith [h.error]
  · have hbottom : (2 : ℚ) ^ 52 * 2 ^ p ≤ v :=
      h.bottom.resolve_left (by have := hf.2.1; omega)
    have hbelow := hf.below hfp
    rw [abs_sub_comm]
    exact le_trans (by linarith) (le_abs_self _)

/-- The number that a significand and its place stand for, however it is written. -/
theorem RoundedAt.nearest (h : RoundedAt v m p) (hfits : Fits n e) (hv : v < threshold)
    (hvalue : (n * 2 ^ e : ℚ) = m * 2 ^ p) (heven : Even m → Even n) :
    Nearest v (.finite false n e hfits) := by
  refine .finite hfits hv (fun k g hk => ?_) (fun k g hk hne hsame => heven (h.even ?_))
  · rw [hvalue]
    by_cases hne : (k * 2 ^ g : ℚ) = m * 2 ^ p
    · rw [hne]
    · exact h.error.trans (h.half_le hk hne)
  · rw [hvalue] at hne hsame
    exact le_antisymm h.error (hsame ▸ h.half_le hk hne)

theorem zero_nearest : Nearest 0 (zero false) :=
  .finite (by decide) threshold_pos (fun n f _ => by simp; positivity) fun _ _ _ _ _ => Even.zero

/-- A quotient of naturals is rounded to the nearest number. -/
theorem ofRatio_nearest (n : Nat) {d : Nat} (hd : 0 < d) :
    Nearest (n / d) (ofRatio false n d) := by
  rcases Nat.eq_zero_or_pos n with rfl | hn
  · simpa [ofRatio] using zero_nearest
  have hrounds := ofRatio_rounds false n hd
  obtain ⟨m, p, h, hresult⟩ := exists_rounded false hn hd
  rw [oriented_false] at hrounds
  generalize (n / d : ℚ) = v at hrounds h ⊢
  rw [hresult] at hrounds ⊢
  have hfinite : ∀ {k : Nat} {e : Int}, Rounds v (ofParts false k e) →
      (k * 2 ^ e : ℚ) = m * 2 ^ p → (Even m → Even k) → Nearest v (ofParts false k e) := by
    intro k e hr hvalue heven
    unfold ofParts at hr ⊢
    split
    · next hfits =>
      rw [dif_pos hfits] at hr
      cases hr with
      | finite _ hv => exact h.nearest hfits ((le_abs_self v).trans_lt hv) hvalue heven
    · next hfits =>
      rw [dif_neg hfits] at hr
      exact .infinite hr.threshold_le
  split
  · next hm =>
    rw [if_pos hm] at hrounds
    refine hfinite hrounds ?_ fun _ => by decide
    rw [hm, zpow_add_one₀ two_ne_zero]
    push_cast
    ring
  · next hm =>
    rw [if_neg hm] at hrounds
    exact hfinite hrounds rfl id

/-! ## Decimals -/

/-- What is less than half the least number is nearest to zero. -/
theorem zero_nearest_of_lt (h0 : 0 ≤ v) (h : v < 2 ^ (-1074 : Int) / 2) :
    Nearest v (zero false) := by
  refine .finite (by decide) ?_ (fun n f hf => ?_) fun _ _ _ _ _ => Even.zero
  · refine lt_threshold (p := -1074) (h.trans ?_) (by decide)
    have hunit : (0 : ℚ) < 2 ^ (-1074 : Int) := by positivity
    generalize (2 : ℚ) ^ (-1074 : Int) = u at hunit
    linarith
  · rw [Nat.cast_zero, zero_mul, zero_sub, abs_neg, abs_of_nonneg h0]
    rcases Nat.eq_zero_or_pos n with rfl | hn
    · rw [Nat.cast_zero, zero_mul, zero_sub, abs_neg, abs_of_nonneg h0]
    · have hleast : (2 : ℚ) ^ (-1074 : Int) ≤ n * 2 ^ f :=
        calc (2 : ℚ) ^ (-1074 : Int) ≤ 2 ^ f := zpow_le_zpow_right₀ one_le_two hf.2.1
          _ ≤ n * 2 ^ f := le_mul_of_one_le_left (by positivity) (by exact_mod_cast hn)
      generalize (2 : ℚ) ^ (-1074 : Int) = u at h hleast
      exact le_trans (by linarith) (le_abs_self _)

/-- The digits of a natural other than zero bound it from both sides. -/
theorem digitCount_bounds (hn : n ≠ 0) :
    (10 : ℚ) ^ ((digitCount n : Int) - 1) ≤ n ∧ (n : ℚ) < 10 ^ (digitCount n : Int) := by
  have hpos : 0 < digitCount n := Nat.length_toDigits_pos
  constructor
  · obtain ⟨k, hk⟩ : ∃ k, digitCount n = k + 1 := ⟨digitCount n - 1, by omega⟩
    rw [hk, Nat.cast_succ, add_sub_cancel_right, zpow_natCast]
    rcases Nat.eq_zero_or_pos k with rfl | hk0
    · simpa using Nat.one_le_iff_ne_zero.2 hn
    · have : ¬ n < 10 ^ k := fun hlt => by
        have := (Nat.length_toDigits_le_iff (by decide) hk0).2 hlt
        rw [digitCount] at hk
        omega
      exact_mod_cast not_lt.1 this
  · rw [zpow_natCast]
    exact_mod_cast (Nat.length_toDigits_le_iff (by decide) hpos).1 le_rfl

/-- Ninety-three bits need no more than twenty-eight digits. -/
theorem two_pow_le (k : Nat) : (2 : ℚ) ^ (1023 + k) ≤ 10 ^ 308 * 2 ^ k :=
  calc (2 : ℚ) ^ (1023 + k) = (2 ^ 93) ^ 11 * 2 ^ k := by rw [← pow_mul, ← pow_add]
    _ ≤ (10 ^ 28) ^ 11 * 2 ^ k := by
      gcongr
      norm_num
    _ = 10 ^ 308 * 2 ^ k := by rw [← pow_mul]

theorem threshold_le_ten_zpow : threshold ≤ 10 ^ (310 : Int) := by
  have hpow : (2 : ℚ) ^ 1024 ≤ 10 ^ 310 :=
    calc (2 : ℚ) ^ 1024 ≤ 10 ^ 308 * 2 ^ 1 := two_pow_le 1
      _ ≤ 10 ^ 308 * 10 ^ 2 := by
        gcongr
        norm_num
      _ = 10 ^ 310 := by rw [← pow_add]
  have hpos : (0 : ℚ) < 2 ^ 970 := by positivity
  rw [threshold, zpow_ofNat]
  generalize (2 : ℚ) ^ 1024 = a, (2 : ℚ) ^ 970 = b, (10 : ℚ) ^ 310 = c at hpow hpos
  linarith

theorem ten_zpow_lt_half : (10 : ℚ) ^ (-330 : Int) < 2 ^ (-1074 : Int) / 2 := by
  have hpow : (2 : ℚ) ^ 1075 < 10 ^ 330 :=
    calc (2 : ℚ) ^ 1075 ≤ 10 ^ 308 * 2 ^ 52 := two_pow_le 52
      _ < 10 ^ 308 * 10 ^ 22 := by
        gcongr
        norm_num
      _ = 10 ^ 330 := by rw [← pow_add]
  have hhalf : (2 : ℚ) ^ (-1074 : Int) / 2 = (2 ^ 1075)⁻¹ := by
    rw [div_eq_mul_inv, ← zpow_sub_one₀ two_ne_zero, ← zpow_ofNat, ← zpow_neg]
    rfl
  rw [hhalf, zpow_neg, zpow_ofNat]
  exact inv_strictAnti₀ (by positivity) hpow

/-- A decimal is read as the number nearest to its exact value. -/
theorem ofDecimal_nearest (digits : Nat) (exponent : Int) :
    Nearest (digits * 10 ^ exponent) (ofDecimal false digits exponent) := by
  unfold ofDecimal
  split
  · next hzero => simpa [hzero] using zero_nearest
  next hn =>
  obtain ⟨hlow, hhigh⟩ := digitCount_bounds hn
  have hpower : (0 : ℚ) < 10 ^ exponent := by positivity
  dsimp only
  split
  · next htop =>
    refine .infinite ?_
    calc threshold ≤ 10 ^ (310 : Int) := threshold_le_ten_zpow
      _ ≤ 10 ^ ((digitCount digits : Int) - 1 + exponent) :=
        zpow_le_zpow_right₀ (by norm_num) (by omega)
      _ = 10 ^ ((digitCount digits : Int) - 1) * 10 ^ exponent := zpow_add₀ (by norm_num) _ _
      _ ≤ digits * 10 ^ exponent := by gcongr
  split
  · next htop =>
    refine zero_nearest_of_lt (by positivity) ?_
    calc (digits * 10 ^ exponent : ℚ) < 10 ^ (digitCount digits : Int) * 10 ^ exponent := by gcongr
      _ = 10 ^ ((digitCount digits : Int) + exponent) := (zpow_add₀ (by norm_num) _ _).symm
      _ ≤ 10 ^ (-330 : Int) := zpow_le_zpow_right₀ (by norm_num) htop.le
      _ < 2 ^ (-1074 : Int) / 2 := ten_zpow_lt_half
  · have h := ofRatio_nearest (digits * powTen exponent) (powTen_pos (-exponent))
    have hne : (powTen (-exponent) : ℚ) ≠ 0 := by exact_mod_cast (powTen_pos (-exponent)).ne'
    have hvalue : ((digits * powTen exponent : Nat) / powTen (-exponent) : ℚ) =
        digits * 10 ^ exponent := by
      rw [Nat.cast_mul, powTen_cast exponent]
      field_simp
    rwa [hvalue] at h

end

end Binary64

end Reckoner
