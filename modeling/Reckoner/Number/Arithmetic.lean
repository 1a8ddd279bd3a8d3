import Reckoner.Number.Basic

/-!
# Arithmetic of numbers

Integers stay exact under sums, differences, products and powers with an exponent that is not
negative. Every other result is a binary64 number, formed from the nearest binary64 numbers of
the operands; only the quotient of two integers is rounded once from the exact one. What is out
of range becomes infinite, and division by zero is the only failure.
-/

set_option autoImplicit false

namespace Reckoner

namespace Number

inductive Operation where
  | add
  | sub
  | mul
  | div
  | pow
  deriving DecidableEq

/-- The power of a natural; zero and one need no multiplication, however long the exponent is. -/
def powNat (n k : Nat) : Nat := if n ≤ 1 ∧ k ≠ 0 then n else Nat.pow n k

/-- The power of an integer with a natural exponent, formed from its magnitude. -/
def powInt (a : Int) (k : Nat) : Int :=
  if a < 0 ∧ k % 2 = 1 then -(powNat a.natAbs k : Int) else powNat a.natAbs k

/-- The quotient of two integers. One out of range is formed again from the nearest binary64
numbers, so that two operands out of range give `nan`. -/
def divInt (a b : Int) : Binary64 :=
  let q := Binary64.ofQuotient a b
  if q.isInfinite then (Binary64.ofInt a).div (Binary64.ofInt b) else q

/-- Whether a number leaves remainder one when divided by two. -/
def isOdd : Number → Bool
  | .int n => n % 2 == 1
  | .float x => x.isOddInteger

/-- The infinity that stands for a power out of range. -/
def powOverflow (x y : Number) : Number :=
  .float (.infinite (x.lt (.int 0) && y.isOdd))

/-- The power formed in binary64; none for zero to a negative exponent. -/
def powFloat? (x y : Number) : Option Number :=
  match x.toBinary64.pow? y.toBinary64 with
  | .ok z => some (.float z)
  | .error .zeroBase => none
  | .error .overflow => some (powOverflow x y)
  | .error .notReal => some (.float .nan)

/-- The result of an operation; none for a division by zero. -/
def operate? : Operation → Number → Number → Option Number
  | .add, .int a, .int b => some (.int (a + b))
  | .add, x, y => some (.float (x.toBinary64.add y.toBinary64))
  | .sub, .int a, .int b => some (.int (a - b))
  | .sub, x, y => some (.float (x.toBinary64.sub y.toBinary64))
  | .mul, .int a, .int b => some (.int (a * b))
  | .mul, x, y => some (.float (x.toBinary64.mul y.toBinary64))
  | .div, .int a, .int b => if b = 0 then none else some (.float (divInt a b))
  | .div, x, y =>
    if y.eq (.int 0) then none else some (.float (x.toBinary64.div y.toBinary64))
  | .pow, .int a, .int b =>
    if 0 ≤ b then some (.int (powInt a b.toNat)) else powFloat? (.int a) (.int b)
  | .pow, x, y => powFloat? x y

/-- Other than powers of integers with natural exponents, powers are formed in binary64. -/
theorem operate?_pow {x y : Number} (h : ∀ a b, x = .int a → y = .int b → b < 0) :
    operate? .pow x y = powFloat? x y := by
  cases x with
  | float x => cases y <;> rfl
  | int a =>
    cases y with
    | float y => rfl
    | int b => exact if_neg (Int.not_le_of_gt (h a b rfl rfl))

/-- The number with its sign changed, that of a binary64 zero included. -/
def neg : Number → Number
  | .int n => .int (-n)
  | .float x => .float x.neg

end Number

end Reckoner
