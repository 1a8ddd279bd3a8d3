import Reckoner.Binary64.Basic
import Mathlib.Algebra.Order.Field.Power
import Mathlib.Algebra.Order.Field.Rat
import Mathlib.Tactic.FieldSimp
import Mathlib.Tactic.Linarith
import Mathlib.Tactic.NormNum
import Mathlib.Tactic.Positivity
import Mathlib.Tactic.Ring

/-!
# Rounding

Every result of binary64 arithmetic is the exact value rounded once (`Binary64.Rounds`): a finite
number at most half a place away if the value is in range, else the infinity of its sign. The
range ends at `Binary64.threshold`, half a place above the largest number, so that what is infinite
is known from the exact value alone.
-/

set_option autoImplicit false

namespace Reckoner

/-! ## Powers of two -/

theorem powTwo_pos (e : Int) : 0 < powTwo e := by
  rw [powTwo_eq]
  exact Nat.two_pow_pos _

/-- Of `e` and `-e` at most one is above zero, and the other one has the power one. -/
theorem powTwo_cast (e : Int) : (powTwo e : ℚ) = 2 ^ e * powTwo (-e) := by
  rw [powTwo_eq, powTwo_eq]
  rcases Int.le_total 0 e with h | h
  · obtain ⟨k, rfl⟩ := Int.eq_ofNat_of_zero_le h
    have hk : (-(k : Int)).toNat = 0 := by omega
    simp [hk]
  · obtain ⟨k, hk⟩ := Int.eq_ofNat_of_zero_le (Int.neg_nonneg.2 h)
    obtain rfl : e = -k := by omega
    have hk : (-(k : Int)).toNat = 0 := by omega
    simp [hk]

theorem powTwo_of_nonneg {e : Int} (h : 0 ≤ e) : (powTwo e : ℚ) = 2 ^ e := by
  have hneg : powTwo (-e) = 1 := by
    rw [powTwo_eq, Int.toNat_of_nonpos (by omega)]
  rw [powTwo_cast, hneg, Nat.cast_one, mul_one]

namespace Binary64

section

variable {n d : Nat}

/-- A quotient in units of the place `p`. -/
theorem cast_div_scaled (n : Nat) (hd : 0 < d) (p : Int) :
    ((n * powTwo (-p) : Nat) : ℚ) / ((d * powTwo p : Nat) : ℚ) = n / d / 2 ^ p := by
  have hd : (d : ℚ) ≠ 0 := by exact_mod_cast hd.ne'
  have hp : (powTwo (-p) : ℚ) ≠ 0 := by exact_mod_cast (powTwo_pos (-p)).ne'
  rw [Nat.cast_mul, Nat.cast_mul, powTwo_cast p]
  field_simp

theorem scaled_lt_iff (n : Nat) (hd : 0 < d) (k : Nat) (p : Int) :
    n * powTwo (-p) < k * (d * powTwo p) ↔ (n / d : ℚ) < k * 2 ^ p := by
  have hpos : (0 : ℚ) < (d * powTwo p : Nat) := by
    exact_mod_cast Nat.mul_pos hd (powTwo_pos p)
  rw [← div_lt_iff₀ (zpow_pos two_pos p), ← cast_div_scaled n hd, div_lt_iff₀ hpos]
  exact_mod_cast Iff.rfl

/-! ## The last place -/

/-- The binary logarithms of a quotient's parts bound it from both sides. -/
theorem log2_bounds (hn : 0 < n) (hd : 0 < d) {g : Int} (hg : g = (n.log2 : Int) - d.log2 - 52) :
    (2 ^ 51 * 2 ^ g : ℚ) < n / d ∧ (n / d : ℚ) < 2 ^ 53 * 2 ^ g := by
  have hd' : (0 : ℚ) < d := by exact_mod_cast hd
  have hnlow : (2 : ℚ) ^ n.log2 ≤ n := by exact_mod_cast Nat.log2_self_le hn.ne'
  have hnhigh : (n : ℚ) < 2 ^ (n.log2 + 1) := by exact_mod_cast Nat.lt_log2_self
  have hdlow : (2 : ℚ) ^ d.log2 ≤ d := by exact_mod_cast Nat.log2_self_le hd.ne'
  have hdhigh : (d : ℚ) < 2 ^ (d.log2 + 1) := by exact_mod_cast Nat.lt_log2_self
  have hlow : (2 ^ 51 * 2 ^ g : ℚ) * 2 ^ (d.log2 + 1) = 2 ^ n.log2 := by
    simp only [← zpow_natCast, ← zpow_add₀ (two_ne_zero' ℚ)]
    congr 1
    push_cast
    omega
  have hhigh : (2 ^ 53 * 2 ^ g : ℚ) * 2 ^ d.log2 = 2 ^ (n.log2 + 1) := by
    simp only [← zpow_natCast, ← zpow_add₀ (two_ne_zero' ℚ)]
    congr 1
    push_cast
    omega
  constructor
  · rw [lt_div_iff₀ hd']
    calc (2 ^ 51 * 2 ^ g : ℚ) * d < 2 ^ 51 * 2 ^ g * 2 ^ (d.log2 + 1) := by gcongr
      _ ≤ n := hlow.trans_le hnlow
  · rw [div_lt_iff₀ hd']
    calc (n : ℚ) < 2 ^ 53 * 2 ^ g * 2 ^ d.log2 := hhigh ▸ hnhigh
      _ ≤ 2 ^ 53 * 2 ^ g * d := by gcongr

/-- Unless the place is the least one, the quotient has 53 bits above it; it never has more. -/
theorem placeOf_spec (hn : 0 < n) (hd : 0 < d) :
    -1074 ≤ placeOf n d ∧ (n / d : ℚ) < 2 ^ 53 * 2 ^ placeOf n d ∧
      (placeOf n d = -1074 ∨ 2 ^ 52 * 2 ^ placeOf n d ≤ (n / d : ℚ)) := by
  obtain ⟨hlow, hhigh⟩ := log2_bounds hn hd rfl
  unfold placeOf
  generalize (n.log2 : Int) - d.log2 - 52 = g at hlow hhigh
  dsimp only
  -- the place before the least one is taken into account
  obtain ⟨p, hp, hplow, hphigh⟩ : ∃ p, p = (if n * powTwo (-g) < powTwo 52 * (d * powTwo g) then
      g - 1 else g) ∧ 2 ^ 52 * 2 ^ p ≤ (n / d : ℚ) ∧ (n / d : ℚ) < 2 ^ 53 * 2 ^ p := by
    have hshort : n * powTwo (-g) < powTwo 52 * (d * powTwo g) ↔ (n / d : ℚ) < 2 ^ 52 * 2 ^ g := by
      rw [scaled_lt_iff n hd, show powTwo 52 = 2 ^ 52 from rfl]
      norm_cast
    have hhalf : (2 : ℚ) ^ (g - 1) = 2 ^ g / 2 := by rw [zpow_sub_one₀ two_ne_zero]; rfl
    refine ⟨_, rfl, ?_⟩
    split
    · next h =>
      rw [hshort] at h
      rw [hhalf]
      constructor <;> linarith
    · next h =>
      rw [hshort, not_lt] at h
      exact ⟨h, hhigh⟩
  rw [← hp]
  rcases le_total (-1074) p with h | h
  · rw [max_eq_right h]
    exact ⟨h, hphigh, .inr hplow⟩
  · rw [max_eq_left h]
    refine ⟨le_refl _, hphigh.trans_le ?_, .inl rfl⟩
    gcongr
    exact one_le_two

/-! ## The nearest natural -/

/-- The fraction that is left decides which of the two neighbours is taken. -/
theorem divNearest_cases (n : Nat) (hd : 0 < d) : ∃ f : ℚ, (n / d : ℚ) = (n / d : Nat) + f ∧
    0 ≤ f ∧ f < 1 ∧ ((f < 1 / 2 ∧ divNearest n d = n / d) ∨
      (1 / 2 < f ∧ divNearest n d = n / d + 1) ∨
      (f = 1 / 2 ∧ divNearest n d = n / d + n / d % 2)) := by
  have hd' : (0 : ℚ) < d := by exact_mod_cast hd
  have hsum : (n : ℚ) = d * (n / d : Nat) + (n % d : Nat) := by
    exact_mod_cast (Nat.div_add_mod n d).symm
  refine ⟨(n % d : Nat) / d, ?_, by positivity, ?_, ?_⟩
  · field_simp
    linarith
  · rw [div_lt_one hd']
    exact_mod_cast Nat.mod_lt n hd
  · unfold divNearest
    dsimp only
    split
    · next h =>
      refine .inl ⟨?_, rfl⟩
      rw [div_lt_div_iff₀ hd' two_pos]
      exact_mod_cast (by omega : n % d * 2 < 1 * d)
    split
    · next h =>
      refine .inr (.inl ⟨?_, rfl⟩)
      rw [div_lt_div_iff₀ two_pos hd']
      exact_mod_cast (by omega : 1 * d < n % d * 2)
    · next h h' =>
      refine .inr (.inr ⟨?_, rfl⟩)
      rw [div_eq_div_iff hd'.ne' two_ne_zero]
      exact_mod_cast (by omega : n % d * 2 = 1 * d)

theorem divNearest_error (n : Nat) (hd : 0 < d) : |(divNearest n d : ℚ) - n / d| ≤ 1 / 2 := by
  obtain ⟨f, hf, h0, h1, hcases⟩ := divNearest_cases n hd
  rw [hf, abs_le]
  rcases hcases with ⟨h, hm⟩ | ⟨h, hm⟩ | ⟨h, hm⟩
  all_goals rw [hm]; push_cast
  · constructor <;> linarith
  · constructor <;> linarith
  · have hbit : (((n / d % 2 : Nat)) : ℚ) ≤ 1 := by exact_mod_cast (by omega : n / d % 2 ≤ 1)
    have hpos : (0 : ℚ) ≤ ((n / d % 2 : Nat) : ℚ) := Nat.cast_nonneg _
    constructor <;> linarith

/-- Halfway between two naturals the even one is taken. -/
theorem divNearest_even (n : Nat) (hd : 0 < d) (h : |(divNearest n d : ℚ) - n / d| = 1 / 2) :
    Even (divNearest n d) := by
  obtain ⟨f, hf, h0, h1, hcases⟩ := divNearest_cases n hd
  rw [hf] at h
  rcases hcases with ⟨hlt, hm⟩ | ⟨hlt, hm⟩ | ⟨-, hm⟩
  · rw [hm, sub_add_cancel_left, abs_neg, abs_of_nonneg h0] at h
    linarith
  · rw [hm, Nat.cast_succ, add_sub_add_left_eq_sub, abs_of_pos (by linarith)] at h
    linarith
  · rw [hm, Nat.even_iff]
    omega

/-- An odd natural is passed from halfway to the next one on. -/
theorem lt_divNearest_iff (n : Nat) (hd : 0 < d) {k : Nat} (hk : k % 2 = 1) :
    k < divNearest n d ↔ (k + 1 / 2 : ℚ) ≤ n / d := by
  obtain ⟨f, hf, h0, h1, hcases⟩ := divNearest_cases n hd
  rw [hf]
  generalize n / d = q at *
  rcases hcases with ⟨h, hm⟩ | ⟨h, hm⟩ | ⟨h, hm⟩
  all_goals rw [hm]; constructor <;> intro hlt
  · have : (k + 1 : ℚ) ≤ q := by exact_mod_cast hlt
    linarith
  · have : (k : ℚ) < q := by linarith
    exact_mod_cast this
  · have : (k : ℚ) ≤ q := by exact_mod_cast Nat.lt_succ_iff.1 hlt
    linarith
  · have : (k : ℚ) < (q + 1 : Nat) := by push_cast; linarith
    exact_mod_cast this
  · have : (k : ℚ) ≤ q := by exact_mod_cast (by omega : k ≤ q)
    linarith
  · -- between `q` and the next natural the odd one of them is passed
    have : (k : ℚ) ≤ q := by linarith
    have : k ≤ q := by exact_mod_cast this
    omega

end

/-! ## The end of the range -/

/-- The least magnitude that is rounded to an infinity, half a place above the largest number. -/
def threshold : ℚ := 2 ^ 1024 - 2 ^ 970

theorem two_zpow_greatest : (2 : ℚ) ^ (971 : Int) = 2 ^ 970 * 2 := by
  rw [zpow_ofNat, ← pow_succ]

/-- The end of the range in units of the greatest place. -/
theorem threshold_eq : threshold = (2 ^ 53 - 1 / 2) * 2 ^ (971 : Int) := by
  have htop : (2 : ℚ) ^ 1024 = 2 ^ 54 * 2 ^ 970 := by rw [← pow_add]
  rw [threshold, htop, two_zpow_greatest]
  generalize (2 : ℚ) ^ 970 = u
  ring

theorem threshold_pos : 0 < threshold := by
  rw [threshold_eq]
  have : (0 : ℚ) < 2 ^ 53 - 1 / 2 := by norm_num
  positivity

/-- What is below the last step of the significand is in range. -/
theorem lt_threshold {v : ℚ} {p : Int} (hv : v < (2 ^ 53 - 1 / 2) * 2 ^ p) (hp : p ≤ 971) :
    v < threshold := by
  rw [threshold_eq]
  refine hv.trans_le ?_
  gcongr
  exact one_le_two

/-- What reaches the last step of the significand in the greatest place is out of range. -/
theorem threshold_le {v : ℚ} {p : Int} (hv : (2 ^ 53 - 1 / 2) * 2 ^ p ≤ v) (hp : 971 ≤ p) :
    threshold ≤ v := by
  rw [threshold_eq]
  refine le_trans ?_ hv
  gcongr
  exact one_le_two

/-! ## The significand before its carry -/

/-- The significand and the place that a quotient is rounded to, before a significand that is too
large by one is carried. -/
structure RoundedAt (v : ℚ) (m : Nat) (p : Int) : Prop where
  least : -1074 ≤ p
  top : m ≤ 2 ^ 53
  bottom : p = -1074 ∨ 2 ^ 52 * 2 ^ p ≤ v
  error : |(m * 2 ^ p : ℚ) - v| ≤ 2 ^ p / 2
  even : |(m * 2 ^ p : ℚ) - v| = 2 ^ p / 2 → Even m
  carried : m = 2 ^ 53 ↔ (2 ^ 53 - 1 / 2) * 2 ^ p ≤ v

theorem fits_iff {m : Nat} {e : Int} :
    Fits m e ↔ m < 2 ^ 53 ∧ -1074 ≤ e ∧ e ≤ 971 ∧ (2 ^ 52 ≤ m ∨ e = -1074) := Iff.rfl

/-- At a place that is not the least the significand has 53 bits. -/
theorem RoundedAt.significand {v : ℚ} {m : Nat} {p : Int} (h : RoundedAt v m p) :
    2 ^ 52 ≤ m ∨ p = -1074 := by
  refine h.bottom.symm.imp_left fun hv => ?_
  have hunit : (0 : ℚ) < 2 ^ p := by positivity
  have : (2 ^ 52 : ℚ) * 2 ^ p < (m + 1) * 2 ^ p := by linarith [(abs_le.1 h.error).1]
  have : ((2 ^ 52 : Nat) : ℚ) < (m + 1 : Nat) := by
    push_cast
    exact lt_of_mul_lt_mul_right this hunit.le
  exact Nat.lt_succ_iff.1 (by exact_mod_cast this)

/-- Every quotient but zero is rounded by way of such a significand. -/
theorem exists_rounded (negative : Bool) {n d : Nat} (hn : 0 < n) (hd : 0 < d) :
    ∃ m p, RoundedAt (n / d) m p ∧ ofRatio negative n d =
      if m = 2 ^ 53 then ofParts negative (2 ^ 52) (p + 1) else ofParts negative m p := by
  obtain ⟨hleast, hhigh, hlow⟩ := placeOf_spec hn hd
  refine ⟨divNearest (n * powTwo (-placeOf n d)) (d * powTwo (placeOf n d)), placeOf n d, ?_, ?_⟩
  · generalize placeOf n d = p at hleast hhigh hlow ⊢
    have hunit : (0 : ℚ) < 2 ^ p := by positivity
    have hD : 0 < d * powTwo p := Nat.mul_pos hd (powTwo_pos p)
    have herror := divNearest_error (n * powTwo (-p)) hD
    have heven := divNearest_even (n * powTwo (-p)) hD
    have hlast := lt_divNearest_iff (n * powTwo (-p)) hD (k := 2 ^ 53 - 1) (by decide)
    rw [cast_div_scaled n hd] at herror heven hlast
    generalize divNearest (n * powTwo (-p)) (d * powTwo p) = m at herror heven hlast ⊢
    generalize (n / d : ℚ) = v at *
    have htop : m ≤ 2 ^ 53 := by
      have : (m : ℚ) < (2 ^ 53 + 1 : Nat) := by
        rw [← div_lt_iff₀ hunit] at hhigh
        push_cast
        linarith [(abs_le.1 herror).2]
      exact Nat.lt_succ_iff.1 (by exact_mod_cast this)
    have hdistance : |(m * 2 ^ p : ℚ) - v| = |m - v / 2 ^ p| * 2 ^ p := by
      have : (m * 2 ^ p : ℚ) - v = (m - v / 2 ^ p) * 2 ^ p := by field_simp
      rw [this, abs_mul, abs_of_pos hunit]
    refine ⟨hleast, htop, hlow, ?_, fun htie => heven ?_, ?_⟩
    · rw [hdistance]
      linarith [mul_le_mul_of_nonneg_right herror hunit.le]
    · rw [hdistance] at htie
      exact mul_right_cancel₀ hunit.ne' (htie.trans (by ring))
    · rw [← le_div_iff₀ hunit]
      norm_num at hlast ⊢
      rw [← hlast]
      omega
  · unfold ofRatio
    rw [if_neg hn.ne']
    rfl

/-! ## Signs and values -/

/-- The value itself, or with its sign changed. -/
def oriented (negative : Bool) (v : ℚ) : ℚ := if negative then -v else v

@[simp] theorem oriented_false (v : ℚ) : oriented false v = v := rfl

@[simp] theorem oriented_true (v : ℚ) : oriented true v = -v := rfl

theorem oriented_oriented (s : Bool) (v : ℚ) : oriented s (oriented s v) = v := by
  cases s <;> simp

theorem abs_oriented (s : Bool) (v : ℚ) : |oriented s v| = |v| := by
  cases s <;> simp

theorem oriented_neg (s : Bool) (v : ℚ) : oriented s (-v) = -oriented s v := by
  cases s <;> simp

theorem oriented_not (s : Bool) (v : ℚ) : oriented (!s) v = -oriented s v := by
  cases s <;> simp

theorem oriented_mul_right (s : Bool) (v w : ℚ) : oriented s (v * w) = oriented s v * w := by
  cases s <;> simp

theorem oriented_mul (s t : Bool) (v w : ℚ) :
    oriented (s != t) (v * w) = oriented s v * oriented t w := by
  cases s <;> cases t <;> simp

theorem oriented_div (s t : Bool) (v w : ℚ) :
    oriented (s != t) (v / w) = oriented s v / oriented t w := by
  cases s <;> cases t <;> simp [div_neg, neg_div]

theorem oriented_add (s : Bool) (v w : ℚ) : oriented s (v + w) = oriented s v + oriented s w := by
  cases s
  · rfl
  · exact neg_add v w

theorem oriented_le_abs (s : Bool) (v : ℚ) : oriented s v ≤ |v| :=
  (le_abs_self _).trans_eq (abs_oriented s v)

theorem neg_abs_le_oriented (s : Bool) (v : ℚ) : -|v| ≤ oriented s v := by
  rw [← abs_oriented s v]
  exact neg_abs_le _

theorem oriented_eq_abs {s : Bool} {v : ℚ} (h : 0 < oriented s v) : oriented s v = |v| := by
  rw [← abs_oriented s v, abs_of_pos h]

theorem oriented_inj {s t : Bool} {v : ℚ} (hs : 0 < oriented s v) (ht : 0 < oriented t v) :
    s = t := by
  cases s <;> cases t <;> simp only [oriented_false, oriented_true] at hs ht
  · rfl
  · linarith
  · linarith
  · rfl

theorem oriented_abs (v : ℚ) : oriented (decide (v < 0)) |v| = v := by
  by_cases h : v < 0
  · simp [h, abs_of_neg h]
  · simp [h, abs_of_nonneg (le_of_not_gt h)]

theorem oriented_natAbs (n : Int) : oriented (decide (n < 0)) n.natAbs = n := by
  rw [Nat.cast_natAbs, Int.cast_abs]
  simpa using oriented_abs n

/-- The exact value of a finite number; zero for the others. -/
def value : Binary64 → ℚ
  | .finite negative m e _ => oriented negative (m * 2 ^ e)
  | _ => 0

theorem cast_signed (negative : Bool) (m : Nat) :
    (signed negative m : ℚ) = oriented negative m := by
  cases negative <;> simp [signed]

/-- `z` is the value `v` rounded once. -/
inductive Rounds (v : ℚ) : Binary64 → Prop where
  | finite {negative : Bool} {m : Nat} {e : Int} (h : Fits m e) (hv : |v| < threshold)
      (herror : |oriented negative (m * 2 ^ e) - v| ≤ 2 ^ e / 2) :
      Rounds v (.finite negative m e h)
  | infinite {negative : Bool} (hv : threshold ≤ oriented negative v) :
      Rounds v (.infinite negative)

namespace Rounds

variable {v : ℚ} {z : Binary64}

theorem ne_nan (h : Rounds v z) : z ≠ .nan := by
  rintro rfl
  cases h

/-- What is infinite is out of range in the direction of its sign. -/
theorem threshold_le {negative : Bool} (h : Rounds v (.infinite negative)) :
    threshold ≤ oriented negative v := by
  cases h with
  | infinite hv => exact hv

theorem isFinite (h : Rounds v z) (hv : |v| < threshold) : z.isFinite = true := by
  cases h with
  | finite => rfl
  | @infinite negative hv' =>
    have := (le_abs_self _).trans_eq (abs_oriented negative v)
    linarith

theorem eq_infinite (h : Rounds v z) (hv : threshold ≤ |v|) : z = .infinite (decide (v < 0)) := by
  cases h with
  | finite _ hv' => linarith
  | @infinite negative hv' =>
    have := threshold_pos
    cases negative
    · have : ¬ v < 0 := by rw [oriented_false] at hv'; linarith
      simp [this]
    · have : v < 0 := by rw [oriented_true] at hv'; linarith
      simp [this]

/-- A finite number is half of the greatest place away at most. -/
theorem error (h : Rounds v z) (hz : z.isFinite = true) : |z.value - v| ≤ 2 ^ 970 := by
  cases h with
  | @finite negative m e hfits _ herror =>
    calc |oriented negative (m * 2 ^ e) - v| ≤ 2 ^ e / 2 := herror
      _ ≤ 2 ^ (971 : Int) / 2 := by
        gcongr
        · exact one_le_two
        · exact hfits.2.2.1
      _ = 2 ^ 970 := by rw [two_zpow_greatest, mul_div_cancel_right₀ _ two_ne_zero]
  | infinite => cases hz

/-- Rounding keeps the sign of what it does not make zero. -/
theorem oriented_pos (h : Rounds v z) {s : Bool} (hz : 0 < oriented s z.value) :
    0 < oriented s v := by
  cases h with
  | @finite negative m e _ _ herror =>
    have hunit : (0 : ℚ) < 2 ^ e := by positivity
    have hm : (0 : ℚ) ≤ m * 2 ^ e := by positivity
    -- a significand that is not zero is at least one, and half of it is left
    have hone : 0 < (m * 2 ^ e : ℚ) → (2 ^ e : ℚ) ≤ m * 2 ^ e := fun hpos => by
      have : m ≠ 0 := by
        rintro rfl
        simp at hpos
      have : (1 : ℚ) ≤ m := by exact_mod_cast Nat.one_le_iff_ne_zero.2 this
      exact le_mul_of_one_le_left hunit.le this
    rw [abs_le] at herror
    cases s <;> cases negative <;> simp only [value, oriented_false, oriented_true] at hz herror ⊢
    · linarith [hone hz]
    · linarith
    · linarith
    · linarith [hone (by linarith)]
  | infinite => simp [value, oriented] at hz

end Rounds

/-- Finite numbers are in range. -/
theorem abs_value_lt (x : Binary64) : |x.value| < threshold := by
  cases x with
  | finite s m e h =>
    rw [value, abs_oriented, abs_of_nonneg (by positivity)]
    refine lt_threshold ?_ h.2.2.1
    have : (m : ℚ) ≤ (2 ^ 53 - 1 : Nat) := by exact_mod_cast Nat.le_pred_of_lt (fits_iff.1 h).1
    have hunit : (0 : ℚ) < 2 ^ e := by positivity
    gcongr
    refine this.trans_lt ?_
    norm_num
  | _ => simpa [value] using threshold_pos

/-! ## Rounding a quotient -/

theorem rounds_finite {negative : Bool} {v : ℚ} {m : Nat} {e : Int} (h : Fits m e) (hv0 : 0 ≤ v)
    (hv : v < threshold) (herror : |(m * 2 ^ e : ℚ) - v| ≤ 2 ^ e / 2) :
    Rounds (oriented negative v) (.finite negative m e h) := by
  refine .finite h (by rwa [abs_oriented, abs_of_nonneg hv0]) ?_
  cases negative
  · exact herror
  · rwa [oriented_true, oriented_true, ← abs_neg, neg_sub, sub_neg_eq_add, neg_add_eq_sub]

theorem rounds_infinite {negative : Bool} {v : ℚ} (hv : threshold ≤ v) :
    Rounds (oriented negative v) (.infinite negative) :=
  .infinite (by rwa [oriented_oriented])

section

variable {negative : Bool} {v : ℚ} {m : Nat} {p : Int}

/-- A significand that is too large by one is half of it in the next place. -/
theorem RoundedAt.ofParts_carried (h : RoundedAt v m p) (hv : 0 ≤ v) (hm : m = 2 ^ 53) :
    Rounds (oriented negative v) (ofParts negative (2 ^ 52) (p + 1)) := by
  have hleast := h.least
  unfold ofParts
  split
  · next hfits =>
    have hcarry : (2 : ℚ) ^ (p + 1) = 2 * 2 ^ p := by rw [zpow_add_one₀ two_ne_zero, mul_comm]
    have hunit : (0 : ℚ) < 2 ^ p := by positivity
    have hvalue : ((2 ^ 52 : Nat) * 2 ^ (p + 1) : ℚ) = m * 2 ^ p := by
      rw [hcarry, hm]
      push_cast
      ring
    have herror := h.error
    refine rounds_finite hfits hv (lt_threshold (p := p + 1) ?_ hfits.2.2.1) ?_
    · rw [hcarry]
      rw [hm] at herror
      push_cast at herror
      linarith [(abs_le.1 herror).1]
    · rw [hvalue, hcarry]
      linarith
  · next hfits =>
    have hp : 971 ≤ p := by
      rw [fits_iff] at hfits
      omega
    exact rounds_infinite (threshold_le (h.carried.1 hm) hp)

theorem RoundedAt.ofParts (h : RoundedAt v m p) (hv : 0 ≤ v) (hm : m ≠ 2 ^ 53) :
    Rounds (oriented negative v) (ofParts negative m p) := by
  have hleast := h.least
  unfold Binary64.ofParts
  split
  · next hfits =>
    exact rounds_finite hfits hv (lt_threshold (lt_of_not_ge (mt h.carried.2 hm)) hfits.2.2.1)
      h.error
  · next hfits =>
    have hp : 972 ≤ p := by
      have := h.top
      have := h.significand
      rw [fits_iff] at hfits
      omega
    have hhalf : (2 : ℚ) ^ p = 2 * 2 ^ (p - 1) := by
      rw [zpow_sub_one₀ two_ne_zero]
      ring
    have hunit : (0 : ℚ) < 2 ^ (p - 1) := by positivity
    refine rounds_infinite (threshold_le (p := p - 1) ?_ (by omega))
    rcases h.bottom with h | h
    · omega
    · rw [hhalf] at h
      linarith

end

/-- A quotient of naturals is rounded once, and gets the sign that is asked for. -/
theorem ofRatio_rounds (negative : Bool) (n : Nat) {d : Nat} (hd : 0 < d) :
    Rounds (oriented negative (n / d)) (ofRatio negative n d) := by
  rcases Nat.eq_zero_or_pos n with rfl | hn
  · refine rounds_finite (by decide) (by simp) (by simpa using threshold_pos) ?_
    simp
    positivity
  obtain ⟨m, p, h, hresult⟩ := exists_rounded negative hn hd
  have hv : (0 : ℚ) ≤ n / d := by positivity
  rw [hresult]
  split
  · next hm => exact h.ofParts_carried hv hm
  · next hm => exact h.ofParts hv hm

theorem ofScaled_rounds (negative : Bool) (n : Nat) (e : Int) :
    Rounds (oriented negative (n * 2 ^ e)) (ofScaled negative n e) := by
  have h := ofRatio_rounds negative (n * powTwo e) (powTwo_pos (-e))
  have hpos : (powTwo (-e) : ℚ) ≠ 0 := by exact_mod_cast (powTwo_pos (-e)).ne'
  have hvalue : ((n * powTwo e : Nat) / powTwo (-e) : ℚ) = n * 2 ^ e := by
    rw [Nat.cast_mul, powTwo_cast e]
    field_simp
  rwa [hvalue] at h

/-! ## Integers -/

theorem ofInt_rounds (n : Int) : Rounds n (ofInt n) := by
  have h := ofRatio_rounds (decide (n < 0)) n.natAbs one_pos
  rwa [Nat.cast_one, div_one, oriented_natAbs] at h

theorem ofQuotient_rounds (a : Int) {b : Int} (hb : b ≠ 0) : Rounds (a / b) (ofQuotient a b) := by
  have h := ofRatio_rounds (decide (a < 0) != decide (b < 0)) a.natAbs (Int.natAbs_pos.2 hb)
  rwa [oriented_div, oriented_natAbs, oriented_natAbs] at h

/-! ## Arithmetic -/

section

variable {x y : Binary64}

theorem zero_rounds (negative : Bool) : Rounds 0 (zero negative) :=
  .finite (by decide) (by simpa using threshold_pos) (by simp [oriented]; positivity)

/-- A significand over a smaller exponent. -/
theorem cast_signed_shift (s : Bool) (m : Nat) {e low : Int} (h : low ≤ e) :
    (signed s (m * powTwo (e - low)) : ℚ) * 2 ^ low = oriented s (m * 2 ^ e) := by
  rw [cast_signed, ← oriented_mul_right, Nat.cast_mul, powTwo_of_nonneg (Int.sub_nonneg.2 h),
    mul_assoc, ← zpow_add₀ two_ne_zero, Int.sub_add_cancel]

theorem exists_finite (hx : x.isFinite = true) : ∃ s m e h, x = .finite s m e h := by
  cases x with
  | finite s m e h => exact ⟨s, m, e, h, rfl⟩
  | _ => cases hx

theorem add_rounds (hx : x.isFinite = true) (hy : y.isFinite = true) :
    Rounds (x.value + y.value) (x.add y) := by
  obtain ⟨s, m, e, _, rfl⟩ := exists_finite hx
  obtain ⟨t, n, f, _, rfl⟩ := exists_finite hy
  simp only [add, value]
  rw [← cast_signed_shift s m (Int.min_le_left e f),
    ← cast_signed_shift t n (Int.min_le_right e f), ← add_mul, ← Int.cast_add]
  generalize signed s _ + signed t _ = sum
  split
  · next h =>
    rw [h, Int.cast_zero, zero_mul]
    exact zero_rounds _
  · have h := ofScaled_rounds (decide (sum < 0)) sum.natAbs (min e f)
    rwa [oriented_mul_right, oriented_natAbs] at h

theorem value_neg (x : Binary64) : x.neg.value = -x.value := by
  cases x with
  | finite s m e => cases s <;> simp [neg, withSign, signBit, value]
  | _ => simp [neg, withSign, value]

theorem isFinite_neg (x : Binary64) : x.neg.isFinite = x.isFinite := by
  cases x <;> rfl

theorem sub_rounds (hx : x.isFinite = true) (hy : y.isFinite = true) :
    Rounds (x.value - y.value) (x.sub y) := by
  rw [sub_eq_add_neg, ← value_neg]
  exact add_rounds hx (by rwa [isFinite_neg])

theorem mul_rounds (hx : x.isFinite = true) (hy : y.isFinite = true) :
    Rounds (x.value * y.value) (x.mul y) := by
  obtain ⟨s, m, e, _, rfl⟩ := exists_finite hx
  obtain ⟨t, n, f, _, rfl⟩ := exists_finite hy
  have h := ofScaled_rounds (s != t) (m * n) (e + f)
  rwa [Nat.cast_mul, zpow_add₀ two_ne_zero, mul_mul_mul_comm, oriented_mul] at h

theorem div_rounds (hx : x.isFinite = true) (hy : y.isFinite = true) (hzero : y.value ≠ 0) :
    Rounds (x.value / y.value) (x.div y) := by
  obtain ⟨s, m, e, _, rfl⟩ := exists_finite hx
  obtain ⟨t, n, f, _, rfl⟩ := exists_finite hy
  have hn : n ≠ 0 := by
    rintro rfl
    simp [value, oriented] at hzero
  have h := ofRatio_rounds (s != t) (m * powTwo (e - f))
    (Nat.mul_pos (Nat.pos_of_ne_zero hn) (powTwo_pos (f - e)))
  rw [← neg_sub f e, cast_div_scaled m (Nat.pos_of_ne_zero hn), zpow_sub₀ two_ne_zero,
    div_div_div_eq, oriented_div] at h
  simpa only [div, if_neg hn, value, neg_sub] using h

end

end Binary64

end Reckoner
