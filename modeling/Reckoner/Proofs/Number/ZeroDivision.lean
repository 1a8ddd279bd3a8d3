import Reckoner.Evaluation.Tree
import Reckoner.Proofs.Binary64.Power
import Reckoner.Proofs.Number.Value

/-!
# Division by zero

An operation fails on a zero divisor, and on a zero base whose exponent is negative and in the
binary64 range (`Number.operate?_eq_none_iff`). An exponent out of range takes part as an
infinity, and then the power of zero is infinite.
-/

set_option autoImplicit false

namespace Reckoner

namespace Number

/-- A zero divisor, or a zero base whose exponent is negative and in range. -/
def DividesByZero (op : Operation) (x y : Number) : Prop :=
  op = .div ∧ y.eq (.int 0) = true ∨
    op = .pow ∧ x.eq (.int 0) = true ∧ y.lt (.int 0) = true ∧ y.InRange

section

variable {op : Operation} {x y : Number}

theorem isFinite_or : x.IsFinite ∨ (∃ s, x = .float (.infinite s)) ∨ x = .float .nan := by
  rcases x with n | (_ | s | _)
  · exact .inl trivial
  · exact .inl rfl
  · exact .inr (.inl ⟨s, rfl⟩)
  · exact .inr (.inr rfl)

theorem eq_zero_iff_isZero : x.eq (.int 0) = true ↔ x.toBinary64.isZero = true := by
  rcases isFinite_or (x := x) with hx | ⟨s, rfl⟩ | rfl
  · rw [eq_zero_iff hx, isZero_toBinary64 hx]
  · cases s <;> decide
  · decide

/-- The nearest binary64 number of a negative number in range is negative and finite. -/
theorem negative_inRange_iff :
    y.lt (.int 0) = true ∧ y.InRange ↔
      y.toBinary64.isFinite = true ∧ y.toBinary64.isZero = false ∧ y.toBinary64.signBit = true := by
  by_cases hy : y.IsFinite
  · rw [lt_zero_iff hy, inRange_iff hy, ← Bool.not_eq_true, isZero_toBinary64 hy, and_comm]
    refine and_congr_right fun _ => ⟨fun h => ⟨h.ne, ?_⟩, fun ⟨hne, hs⟩ => ?_⟩
    · rw [signBit_toBinary64 hy h.ne, decide_eq_true h]
    · simpa [signBit_toBinary64 hy hne] using hs
  · refine iff_of_false (fun h => hy h.2.1) fun h => hy ?_
    cases y with
    | int n => trivial
    | float y => exact h.1

/-! ## Powers -/

theorem powFloat?_eq_none_iff :
    powFloat? x y = none ↔ x.toBinary64.pow? y.toBinary64 = .error .zeroBase := by
  unfold powFloat?
  split <;> simp [*]

/-- Division by zero is the only way in which an operation fails. -/
theorem operate?_eq_none_iff : operate? op x y = none ↔ DividesByZero op x y := by
  cases op with
  | add | sub | mul => cases x <;> cases y <;> simp [operate?, DividesByZero]
  | div =>
    have hint : ∀ b : Int, (int b).eq (.int 0) = true ↔ b = 0 := by simp [eq, compare?]
    cases x <;> cases y <;> simp [operate?, DividesByZero, hint]
  | pow =>
    suffices h : operate? .pow x y = none ↔
        x.eq (.int 0) = true ∧ y.lt (.int 0) = true ∧ y.InRange by
      simpa [DividesByZero] using h
    by_cases hints : ∀ a b, x = .int a → y = .int b → b < 0
    · rw [operate?_pow hints, powFloat?_eq_none_iff, Binary64.pow?_eq_zeroBase_iff,
        eq_zero_iff_isZero, negative_inRange_iff]
    · -- the exponent is a natural, and not negative
      push Not at hints
      obtain ⟨a, b, rfl, rfl, hb⟩ := hints
      refine iff_of_false (by simp [operate?, hb]) fun h => ?_
      exact not_le_of_gt (int_lt_zero_iff.1 h.2.1) hb

/-- A negative number that is not in range takes part as the negative infinity. -/
theorem toBinary64_beyond (hy : y.lt (.int 0) = true) (hrange : ¬ y.InRange) :
    y.toBinary64 = .infinite true := by
  rcases isFinite_or (x := y) with hfinite | ⟨s, rfl⟩ | rfl
  · have hneg := (lt_zero_iff hfinite).1 hy
    have hlarge := le_of_not_gt fun h => hrange ⟨hfinite, h⟩
    rw [(toBinary64_rounds hfinite).eq_infinite hlarge, decide_eq_true hneg]
  · cases s
    · cases hy
    · rfl
  · cases hy

/-- The power of a zero with a negative exponent that is not in range. -/
theorem operate?_zero_beyond (hx : x.eq (.int 0) = true) (hy : y.lt (.int 0) = true)
    (hrange : ¬ y.InRange) : operate? .pow x y = some (.float (.infinite false)) := by
  have hzero := eq_zero_iff_isZero.1 hx
  have hnan : x.toBinary64 ≠ .nan := by
    intro h
    rw [h] at hzero
    cases hzero
  have hints : ∀ a b, x = .int a → y = .int b → b < 0 := by
    rintro a b - rfl
    exact int_lt_zero_iff.1 hy
  rw [operate?_pow hints, powFloat?, toBinary64_beyond hy hrange, Binary64.pow?_infinite_right hnan,
    Binary64.powInfinite_of_isZero hzero]

end

/-- A zero base with an integer out of range and with an infinity as negative exponents. -/
theorem zero_beyond_infinite :
    (int 0).eq (.int 0) = true ∧ (int (-10 ^ 400)).lt (.int 0) = true ∧
      operate? .pow (.int 0) (.int (-10 ^ 400)) = some (.float (.infinite false)) ∧
      (float (.zero false)).eq (.int 0) = true ∧ (float (.infinite true)).lt (.int 0) = true ∧
      operate? .pow (.float (.zero false)) (.float (.infinite true)) =
        some (.float (.infinite false)) := by
  refine ⟨rfl, ?_, ?_, rfl, rfl, rfl⟩ <;> decide +kernel

end Number

/-! ## Operators -/

open Number (DividesByZero operate?)

section

variable {set : Settings} {key : Datum} {op : Number.Operation} {x y : Number} {right : Tree}
  {start stop : Position} {s : State}

theorem Eval.orFault_bind {α β : Type} (f : Fault) (a : α) (k : α → Eval β) :
    (orFault f (some a) >>= k) = k a := rfl

/-- Applied to two numbers, an arithmetic operator has a number as its result, or is diagnosed as a
division by zero at the right operand where the operation fails. -/
theorem Eval.arithmetic_outcome (hop : Operator.ofKey? key = some (.arithmetic op))
    (hends : right.ends? = .ok (start, stop)) :
    (DividesByZero op x y →
      Eval.binary set key (.number x) (.number y) right s =
        (.diagnosed
          { kind := .divisionByZero, start, stop, details := "Division by zero",
            frames := set.frames }, s)) ∧
    (¬ DividesByZero op x y → ∃ z, operate? op x y = some z ∧
      Eval.binary set key (.number x) (.number y) right s = (.done (.number z), s)) ∧
    (op = .pow → x.eq (.int 0) = true → y.lt (.int 0) = true → ¬ y.InRange →
      Eval.binary set key (.number x) (.number y) right s =
        (.done (.number (.float (.infinite false))), s)) := by
  have hsome : ∀ z, operate? op x y = some z →
      Eval.binary set key (.number x) (.number y) right s = (.done (.number z), s) := by
    intro z hz
    have happly : (Operator.arithmetic op).apply (.number x) (.number y) = .ok (.number z) := by
      simp only [Operator.apply, Datum.arithmetic, Datum.plain, hz]
    rw [Eval.binary, hop, Eval.orFault_bind, happly]
    rfl
  refine ⟨fun h => ?_, fun h => ?_, fun hpow hx hy hrange => ?_⟩
  · have happly : (Operator.arithmetic op).apply (.number x) (.number y) =
        .error .divisionByZero := by
      simp only [Operator.apply, Datum.arithmetic, Datum.plain, Number.operate?_eq_none_iff.2 h]
    rw [Eval.binary, hop, Eval.orFault_bind, happly]
    change Eval.diagnose set .divisionByZero right _ s = _
    rw [Eval.diagnose, hends]
    rfl
  · obtain ⟨z, hz⟩ := Option.ne_none_iff_exists'.1 (mt Number.operate?_eq_none_iff.1 h)
    exact ⟨z, hz, hsome z hz⟩
  · subst hpow
    exact hsome _ (Number.operate?_zero_beyond hx hy hrange)

end

/-- The right operand of a power, somewhere in a text. -/
def exponentTree : Tree :=
  .literal (.make (.known .int) (.number (.int 1)) ⟨some ⟨4, 0, 4, "<t>"⟩, none⟩)

/-- The powers of zero with the exponents minus one and `-10 ^ 400`. -/
theorem zero_powers_outcome :
    Eval.binary {} (.text "POW") (.number (.int 0)) (.number (.int (-1))) exponentTree {} =
        (.diagnosed
          { kind := .divisionByZero, start := ⟨4, 0, 4, "<t>"⟩, stop := ⟨5, 0, 5, "<t>"⟩,
            details := "Division by zero", frames := [{ name := "<program>" }] }, {}) ∧
      Eval.binary {} (.text "POW") (.number (.int 0)) (.number (.int (-10 ^ 400)))
          exponentTree {} = (.done (.number (.float (.infinite false))), {}) := by
  have hop : Operator.ofKey? (.text "POW") = some (.arithmetic .pow) := by decide
  have hends : exponentTree.ends? = .ok (⟨4, 0, 4, "<t>"⟩, ⟨5, 0, 5, "<t>"⟩) := by decide
  have hone : (Number.int (-1)).InRange :=
    (Number.inRange_iff (x := .int (-1)) trivial).2 (by decide +kernel)
  have hbeyond : ¬ (Number.int (-10 ^ 400)).InRange := by
    rw [Number.inRange_iff (x := .int (-10 ^ 400)) trivial]
    decide +kernel
  exact ⟨(Eval.arithmetic_outcome hop hends).1 (.inr ⟨rfl, rfl, rfl, hone⟩),
    (Eval.arithmetic_outcome hop hends).2.2 rfl rfl (by decide +kernel) hbeyond⟩

end Reckoner
