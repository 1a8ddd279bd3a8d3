import Reckoner.Number.Arithmetic
import Reckoner.Proofs.Number.Value

/-!
# Saturation

Sums, differences, products and quotients of finite numbers become infinite only out of the
binary64 range, and then with the sign of the exact result (`Number.operate_saturates`). What
counts is the result of the operands as they take part: two integers do so exactly, but beside a
binary64 number an integer is rounded first, and one that is out of range is an infinity.
-/

set_option autoImplicit false

namespace Reckoner

namespace Number

open Binary64 (threshold oriented Rounds)

/-! ## Operands and results -/

/-- The value with which a number takes part in an operation with `other`. -/
def valueBeside (x other : Number) : ℚ :=
  match x, other with
  | .int n, .float _ => (Binary64.ofInt n).value
  | x, _ => x.value

/-- The number is an integer out of the binary64 range and the other one is no integer, so that it
takes part as an infinity. -/
def Exceeds (x other : Number) : Prop :=
  match x, other with
  | .int n, .float _ => threshold ≤ |(n : ℚ)|
  | _, _ => False

/-- The operation on exact values. Powers are left aside. -/
def Operation.rational? : Operation → Option (ℚ → ℚ → ℚ)
  | .add => some (· + ·)
  | .sub => some (· - ·)
  | .mul => some (· * ·)
  | .div => some (· / ·)
  | .pow => none

/-- `z`, the result of `op`, is infinite or `nan` only where it may be: an infinity has the sign of
the exact result, which is out of range as far as the operands take part with their values. -/
structure Saturates (op : Operation) (f : ℚ → ℚ → ℚ) (x y z : Number) : Prop where
  nan : z = .float .nan →
    op = .mul ∧ (x.Exceeds y ∧ y.value = 0 ∨ y.Exceeds x ∧ x.value = 0)
  sign : ∀ s, z = .float (.infinite s) → 0 < oriented s (f x.value y.value)
  magnitude : ∀ s, z = .float (.infinite s) →
    threshold ≤ |f (x.valueBeside y) (y.valueBeside x)| ∨ x.Exceeds y ∨ y.Exceeds x

section

variable {op : Operation} {f : ℚ → ℚ → ℚ} {x y : Number}

theorem saturates_int (n : Int) : Saturates op f x y (.int n) :=
  ⟨nofun, nofun, nofun⟩

/-! ## Operands that are rounded -/

/-- At least one of two numbers is a binary64 number, so that an operation rounds the other one. -/
def Mixed : Number → Number → Prop
  | .int _, .int _ => False
  | _, _ => True

theorem Mixed.isFinite (h : Mixed x y) (hx : x.IsFinite) (hy : y.IsFinite) :
    x.toBinary64.isFinite = true ∨ y.toBinary64.isFinite = true := by
  cases x with
  | float x => exact .inl hx
  | int m =>
    cases y with
    | float y => exact .inr hy
    | int n => cases h

theorem Mixed.value_toBinary64 (h : Mixed x y) :
    x.toBinary64.value = x.valueBeside y ∧ y.toBinary64.value = y.valueBeside x := by
  cases x <;> cases y <;> first | exact ⟨rfl, rfl⟩ | cases h

theorem Mixed.symm (h : Mixed x y) : Mixed y x := by
  cases x <;> cases y <;> exact h

/-- Beside a binary64 number nothing but an integer out of range takes part as an infinity. -/
theorem Mixed.exceeds (h : Mixed x y) (hx : x.IsFinite)
    (hinfinite : x.toBinary64.isFinite = false) : x.Exceeds y ∧ y.toBinary64.value = y.value := by
  cases x with
  | float x => cases hx.symm.trans hinfinite
  | int n =>
    cases y with
    | int m => cases h
    | float y =>
      refine ⟨le_of_not_gt fun hrange => ?_, rfl⟩
      cases ((toBinary64_rounds hx).isFinite hrange).symm.trans hinfinite

/-- In a mixed operation it is enough that the result of two finite operands is rounded once. -/
theorem Mixed.saturates (h : Mixed x y) (hx : x.IsFinite) (hy : y.IsFinite)
    {g : Binary64 → Binary64 → Binary64}
    (hrounds : x.toBinary64.isFinite = true → y.toBinary64.isFinite = true →
      Rounds (f x.toBinary64.value y.toBinary64.value) (g x.toBinary64 y.toBinary64))
    (hdirected : ∀ s, g x.toBinary64 y.toBinary64 = .infinite s →
      0 < oriented s (f x.value y.value))
    (hnan : g x.toBinary64 y.toBinary64 = .nan →
      op = .mul ∧ (x.Exceeds y ∧ y.value = 0 ∨ y.Exceeds x ∧ x.value = 0)) :
    Saturates op f x y (.float (g x.toBinary64 y.toBinary64)) where
  nan hz := hnan (Number.float.inj hz)
  sign s hz := hdirected s (Number.float.inj hz)
  magnitude s hz := by
    cases hxf : x.toBinary64.isFinite with
    | false => exact .inr (.inl (h.exceeds hx hxf).1)
    | true =>
      cases hyf : y.toBinary64.isFinite with
      | false => exact .inr (.inr (h.symm.exceeds hy hyf).1)
      | true =>
        have hresult := hrounds hxf hyf
        rw [Number.float.inj hz, h.value_toBinary64.1, h.value_toBinary64.2] at hresult
        exact .inl (hresult.threshold_le.trans (Binary64.oriented_le_abs s _))

/-! ## Quotients of integers -/

/-- The quotient of two integers is rounded once, unless it and its divisor are out of range. -/
theorem divInt_rounds {a b : Int} (hb : b ≠ 0)
    (h : threshold ≤ |(b : ℚ)| → |(a / b : ℚ)| < threshold) : Rounds (a / b) (divInt a b) := by
  have hb' : (b : ℚ) ≠ 0 := by exact_mod_cast hb
  have hquotient := Binary64.ofQuotient_rounds a hb
  unfold divInt
  dsimp only
  split
  · next hinfinite =>
    rcases hquotient.finite_or_infinite with ⟨hfinite, -⟩ | ⟨s, -, hrange⟩
    · obtain ⟨_, _, _, _, hq⟩ := Binary64.exists_finite hfinite
      rw [hq] at hinfinite
      cases hinfinite
    · have hlarge := hrange.trans (Binary64.oriented_le_abs s _)
      have hbrange : |(b : ℚ)| < threshold := lt_of_not_ge fun hb => by linarith [h hb]
      have harange : threshold ≤ |(a : ℚ)| := by
        have hone : (1 : ℚ) ≤ |(b : ℚ)| := by exact_mod_cast Int.one_le_abs hb
        rw [abs_div, le_div_iff₀ (by linarith)] at hlarge
        exact (le_mul_of_one_le_right Binary64.threshold_pos.le hone).trans hlarge
      have ha := Binary64.ofInt_rounds a
      have hbf := (Binary64.ofInt_rounds b).isFinite hbrange
      obtain ⟨t, _, _, _, hbeq⟩ := Binary64.exists_finite hbf
      have hdiv : (Binary64.ofInt a).div (Binary64.ofInt b) =
          .infinite (decide ((a : ℚ) < 0) != t) := by
        rw [ha.eq_infinite harange, hbeq]
        rfl
      have hsign := Binary64.div_directed ha (Binary64.ofInt_rounds b)
        (fun hf => toBinary64_ne_zero (y := .int b) trivial hb' hf) hdiv
      rw [hdiv]
      exact .infinite (by rwa [Binary64.oriented_eq_abs hsign])
  · exact hquotient

/-! ## Operations -/

theorem operate?_mixed (h : Mixed x y) :
    operate? .add x y = some (.float (x.toBinary64.add y.toBinary64)) ∧
      operate? .sub x y = some (.float (x.toBinary64.sub y.toBinary64)) ∧
      operate? .mul x y = some (.float (x.toBinary64.mul y.toBinary64)) ∧
      (y.eq (.int 0) = false →
        operate? .div x y = some (.float (x.toBinary64.div y.toBinary64))) := by
  cases x <;> cases y
  · cases h
  all_goals exact ⟨rfl, rfl, rfl, fun hne => by simp [operate?, hne]⟩

/-- A mixed operation has a result that is infinite or `nan` only where it may be. -/
theorem Mixed.operate (h : Mixed x y) (hop : op.rational? = some f) (hx : x.IsFinite)
    (hy : y.IsFinite) (hzero : op = .div → y.value ≠ 0) :
    ∃ z, operate? op x y = some z ∧ Saturates op f x y z := by
  obtain ⟨hadd, hsub, hmul, hdiv⟩ := operate?_mixed h
  have hxr := toBinary64_rounds hx
  have hyr := toBinary64_rounds hy
  have hone := h.isFinite hx hy
  cases op with
  | add =>
    cases hop
    exact ⟨_, hadd, h.saturates hx hy Binary64.add_rounds
      (fun _ => Binary64.add_directed hxr hyr hone)
      fun hnan => absurd hnan (Binary64.add_ne_nan hxr hyr hone)⟩
  | sub =>
    cases hop
    exact ⟨_, hsub, h.saturates hx hy Binary64.sub_rounds
      (fun _ => Binary64.sub_directed hxr hyr hone)
      fun hnan => absurd hnan (Binary64.sub_ne_nan hxr hyr hone)⟩
  | mul =>
    cases hop
    refine ⟨_, hmul, h.saturates hx hy Binary64.mul_rounds
      (fun _ => Binary64.mul_directed hxr hyr) fun hnan => ⟨rfl, ?_⟩⟩
    rcases Binary64.mul_eq_nan hxr hyr hnan with ⟨hinfinite, hyzero⟩ | ⟨hinfinite, hxzero⟩
    · obtain ⟨hexceeds, hvalue⟩ := h.exceeds hx hinfinite
      exact .inl ⟨hexceeds, hvalue.symm.trans hyzero⟩
    · obtain ⟨hexceeds, hvalue⟩ := h.symm.exceeds hy hinfinite
      exact .inr ⟨hexceeds, hvalue.symm.trans hxzero⟩
  | div =>
    cases hop
    have hne := hzero rfl
    have hdivisor := toBinary64_ne_zero hy hne
    have heq : y.eq (.int 0) = false := by
      rw [← Bool.not_eq_true, eq_zero_iff hy]
      exact hne
    exact ⟨_, hdiv heq, h.saturates hx hy
      (fun hxf hyf => Binary64.div_rounds hxf hyf (hdivisor hyf))
      (fun _ => Binary64.div_directed hxr hyr hdivisor)
      fun hnan => absurd hnan (Binary64.div_ne_nan hxr hyr hone hdivisor)⟩
  | pow => cases hop

/-- Let two numbers be finite and, for a quotient, the second one not zero; and let a quotient of
integers be in range if its divisor is not. Then sum, difference, product and quotient exist, and
are infinite or `nan` only where they may be. -/
theorem operate_saturates (hop : op.rational? = some f) (hx : x.IsFinite) (hy : y.IsFinite)
    (hzero : op = .div → y.value ≠ 0)
    (hquotient : ∀ a b, op = .div → x = .int a → y = .int b → threshold ≤ |(b : ℚ)| →
      |(a / b : ℚ)| < threshold) :
    ∃ z, operate? op x y = some z ∧ Saturates op f x y z := by
  by_cases hmixed : Mixed x y
  · exact hmixed.operate hop hx hy hzero
  obtain ⟨a, b, rfl, rfl⟩ : ∃ a b, x = .int a ∧ y = .int b := by
    cases x <;> cases y <;> first | exact ⟨_, _, rfl, rfl⟩ | exact absurd trivial hmixed
  cases op with
  | add | sub | mul => exact ⟨_, rfl, saturates_int _⟩
  | div =>
    cases hop
    have hb : b ≠ 0 := by simpa [value] using hzero rfl
    have hrounds := divInt_rounds hb (hquotient a b rfl rfl rfl)
    refine ⟨.float (divInt a b), if_neg hb, fun hz => ?_, fun s hz => ?_, fun s hz => .inl ?_⟩
    · exact absurd (Number.float.inj hz) hrounds.ne_nan
    all_goals
      rw [Number.float.inj hz] at hrounds
    · exact hrounds.infinite_pos
    · exact hrounds.threshold_le.trans (Binary64.oriented_le_abs s _)
  | pow => cases hop

end

/-- A quotient of integers, of which one is out of range. -/
theorem third_saturates :
    operate? .div (.int (10 ^ 400)) (.int 3) = some (.float (.infinite false)) ∧
      Saturates .div (· / ·) (.int (10 ^ 400)) (.int 3) (.float (.infinite false)) := by
  have hresult : operate? .div (.int (10 ^ 400)) (.int 3) = some (.float (.infinite false)) := by
    decide +kernel
  have hthree : |((3 : Int) : ℚ)| < threshold := by
    refine Binary64.lt_threshold (p := 0) ?_ (by decide)
    norm_num
  have hop : Operation.div.rational? = some (· / ·) := rfl
  obtain ⟨z, hz, hsaturates⟩ := operate_saturates (x := .int (10 ^ 400)) (y := .int 3)
    hop trivial trivial (fun _ => by simp [value]) (by
      rintro a b - - hy hb
      cases hy
      exact absurd hb (not_le_of_gt hthree))
  cases hz.symm.trans hresult
  exact ⟨hresult, hsaturates⟩

/-- One half. -/
def half : Binary64 := .finite false (powTwo 52) (-53) (by decide)

/-- Half of the greatest place. -/
def halfPlace : Binary64 := .finite false (powTwo 52) 918 (by decide)

/-- The least integer that is rounded up to the largest binary64 number. -/
def nearTop : Int := 2 ^ 1024 - 2 ^ 971 - 2 ^ 970 + 1

theorem product_in_range : |(int (2 ^ 1024)).value * (float half).value| < threshold := by
  have hint : (int (2 ^ 1024)).value = 2 ^ 53 * 2 ^ (971 : Int) := by
    rw [value, Int.cast_pow, Int.cast_ofNat, zpow_ofNat, ← pow_add]
  have hhalf : (float half).value = 1 / 2 := by
    norm_num [value, half, Binary64.value, show powTwo 52 = 2 ^ 52 from rfl, zpow_neg]
  have hunit : (0 : ℚ) < 2 ^ (971 : Int) := by positivity
  rw [hint, hhalf, abs_of_pos (by positivity)]
  refine Binary64.lt_threshold (p := 971) ?_ le_rfl
  generalize (2 : ℚ) ^ (971 : Int) = u at hunit
  linarith

theorem sum_in_range : |(int nearTop).value + (float halfPlace).value| < threshold := by
  have hint : (int nearTop).value = 2 ^ 1024 - 2 ^ 971 - 2 ^ 970 + 1 := by
    simp only [value, nearTop, Int.cast_add, Int.cast_sub, Int.cast_pow, Int.cast_ofNat,
      Int.cast_one]
  have hplace : (float halfPlace).value = 2 ^ 970 := by
    change ((powTwo 52 : Nat) : ℚ) * 2 ^ (918 : Int) = 2 ^ 970
    rw [show powTwo 52 = 2 ^ 52 from rfl, Nat.cast_pow, Nat.cast_ofNat, zpow_ofNat, ← pow_add]
  have htop : (2 : ℚ) ^ 1024 = 2 ^ 54 * 2 ^ 970 := by rw [← pow_add]
  have hgreatest : (2 : ℚ) ^ 971 = 2 * 2 ^ 970 := pow_succ' 2 970
  have hone : (1 : ℚ) < 2 ^ 970 := one_lt_pow₀ one_lt_two (by decide)
  rw [hint, hplace, threshold, htop, hgreatest, abs_lt]
  generalize (2 : ℚ) ^ 970 = u at hone
  constructor <;> linarith

/-- Results that are in range, but infinite or `nan`: an integer out of range beside a binary64
number, and one that is rounded up. -/
theorem in_range_infinite :
    operate? .mul (.int (2 ^ 1024)) (.float half) = some (.float (.infinite false)) ∧
      |(int (2 ^ 1024)).value * (float half).value| < threshold ∧
      operate? .add (.int nearTop) (.float halfPlace) = some (.float (.infinite false)) ∧
      |(int nearTop).value + (float halfPlace).value| < threshold ∧
      operate? .mul (.int (2 ^ 1024)) (.float (.zero false)) = some (.float .nan) :=
  ⟨by decide +kernel, product_in_range, by decide +kernel, sum_in_range, by decide +kernel⟩

end Number

end Reckoner
