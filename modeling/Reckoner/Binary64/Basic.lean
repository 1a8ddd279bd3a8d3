/-!
# Binary64 numbers

A binary64 number is a signed significand times a power of two, an infinity or `nan`. Every
finite result is made by `ofRatio`, which rounds an exact quotient of naturals once: to nearest,
a half to the even neighbour, and to an infinity when the rounded value does not fit.
-/

set_option autoImplicit false

namespace Reckoner

/-- Two to the power `e`; one if `e` is negative. -/
def powTwo (e : Int) : Nat := 1 <<< e.toNat

theorem powTwo_eq (e : Int) : powTwo e = Nat.pow 2 e.toNat := Nat.one_shiftLeft _

/-- Ten to the power `e`; one if `e` is negative. -/
def powTen (e : Int) : Nat := Nat.pow 10 e.toNat

/-- A significand and exponent in normal form: 53 bits, of which the first is set unless the
exponent is the least one. -/
def Binary64.Fits (significand : Nat) (exponent : Int) : Prop :=
  significand < powTwo 53 ∧ -1074 ≤ exponent ∧ exponent ≤ 971 ∧
    (powTwo 52 ≤ significand ∨ exponent = -1074)

instance (significand : Nat) (exponent : Int) : Decidable (Binary64.Fits significand exponent) :=
  inferInstanceAs (Decidable (_ ∧ _ ∧ _ ∧ _))

/-- The finite number is `± significand * 2 ^ exponent`; zero keeps its sign. -/
inductive Binary64 where
  | finite (negative : Bool) (significand : Nat) (exponent : Int)
      (fits : Binary64.Fits significand exponent)
  | infinite (negative : Bool)
  | nan
  deriving DecidableEq

namespace Binary64

def zero (negative : Bool) : Binary64 := .finite negative 0 (-1074) (by decide)

def one (negative : Bool) : Binary64 := .finite negative (powTwo 52) (-52) (by decide)

instance : Inhabited Binary64 := ⟨zero false⟩

/-! ## Rounding -/

/-- The quotient rounded to the nearest natural, a half to the even one. -/
def divNearest (n d : Nat) : Nat :=
  let q := n / d
  let r := n % d
  if 2 * r < d then q else if d < 2 * r then q + 1 else q + q % 2

/-- The exponent of the last place kept of `n / d`: the quotient has 53 bits above it, unless
that would fall below the least exponent. -/
def placeOf (n d : Nat) : Int :=
  let guess : Int := (n.log2 : Int) - d.log2 - 52
  let short := n * powTwo (-guess) < powTwo 52 * (d * powTwo guess)
  max (-1074) (if short then guess - 1 else guess)

/-- The number `± significand * 2 ^ exponent` if it is in normal form, else the infinity. -/
def ofParts (negative : Bool) (significand : Nat) (exponent : Int) : Binary64 :=
  if h : Fits significand exponent then .finite negative significand exponent h
  else .infinite negative

/-- The quotient `± n / d` rounded once. -/
def ofRatio (negative : Bool) (n d : Nat) : Binary64 :=
  if n = 0 then zero negative
  else
    let place := placeOf n d
    let m := divNearest (n * powTwo (-place)) (d * powTwo place)
    if m = powTwo 53 then ofParts negative (powTwo 52) (place + 1)
    else ofParts negative m place

/-- The number `± n * 2 ^ e` rounded once. -/
def ofScaled (negative : Bool) (n : Nat) (e : Int) : Binary64 :=
  ofRatio negative (n * powTwo e) (powTwo (-e))

/-- An integer rounded once; one beyond the range becomes the infinity of its sign. -/
def ofInt (n : Int) : Binary64 := ofRatio (decide (n < 0)) n.natAbs 1

/-- The quotient of two integers rounded once; the sign is that of the operands also at zero. -/
def ofQuotient (a b : Int) : Binary64 :=
  ofRatio (decide (a < 0) != decide (b < 0)) a.natAbs b.natAbs

/-! ## Classes and signs -/

def isNan : Binary64 → Bool
  | .nan => true
  | _ => false

def isInfinite : Binary64 → Bool
  | .infinite _ => true
  | _ => false

def isFinite : Binary64 → Bool
  | .finite .. => true
  | _ => false

def isZero : Binary64 → Bool
  | .finite _ m _ _ => m == 0
  | _ => false

/-- The sign bit; that of `nan` is clear. -/
def signBit : Binary64 → Bool
  | .finite s _ _ _ => s
  | .infinite s => s
  | .nan => false

def withSign (negative : Bool) : Binary64 → Binary64
  | .finite _ m e h => .finite negative m e h
  | .infinite _ => .infinite negative
  | .nan => .nan

def abs (x : Binary64) : Binary64 := x.withSign false

def neg (x : Binary64) : Binary64 := x.withSign !x.signBit

/-- The signed significand. -/
def signed (negative : Bool) (m : Nat) : Int := if negative then -(m : Int) else m

/-! ## Comparison -/

/-- Order of `a * 2 ^ e` and `b * 2 ^ f`, by integers over a common exponent. -/
def compareScaled (a : Int) (e : Int) (b : Int) (f : Int) : Ordering :=
  compare (a * powTwo (e - f)) (b * powTwo (f - e))

/-- Order of an integer and a number; none if the number is `nan`. -/
def compareInt (n : Int) : Binary64 → Option Ordering
  | .finite s m e _ => some (compareScaled n 0 (signed s m) e)
  | .infinite s => some (if s then .gt else .lt)
  | .nan => none

/-- Order of two numbers; none if one is `nan`. The two zeros are equal. -/
def compare? : Binary64 → Binary64 → Option Ordering
  | .finite s m e _, y => match y with
    | .finite t n f _ => some (compareScaled (signed s m) e (signed t n) f)
    | .infinite t => some (if t then .gt else .lt)
    | .nan => none
  | .infinite s, y => match y with
    | .finite .. => some (if s then .lt else .gt)
    | .infinite t => some (compare (signed s 1) (signed t 1))
    | .nan => none
  | .nan, _ => none

/-! ## Arithmetic -/

/-- The sum of two finite numbers is formed exactly over the smaller exponent. An exact zero is
negative only if both operands are. -/
def add : Binary64 → Binary64 → Binary64
  | .finite s m e _, .finite t n f _ =>
    let low := min e f
    let sum := signed s (m * powTwo (e - low)) + signed t (n * powTwo (f - low))
    if sum = 0 then zero (s && t) else ofScaled (decide (sum < 0)) sum.natAbs low
  | .infinite s, .infinite t => if s = t then .infinite s else .nan
  | .infinite s, .finite .. => .infinite s
  | .finite .., .infinite t => .infinite t
  | .nan, _ => .nan
  | _, .nan => .nan

def sub (x y : Binary64) : Binary64 := x.add y.neg

def mul : Binary64 → Binary64 → Binary64
  | .finite s m e _, .finite t n f _ => ofScaled (s != t) (m * n) (e + f)
  | .infinite s, .infinite t => .infinite (s != t)
  | .infinite s, .finite t n _ _ => if n = 0 then .nan else .infinite (s != t)
  | .finite s m _ _, .infinite t => if m = 0 then .nan else .infinite (s != t)
  | .nan, _ => .nan
  | _, .nan => .nan

/-- Division by a number that is not zero; a zero divisor counts as an endlessly small one. -/
def div : Binary64 → Binary64 → Binary64
  | .finite s m e _, .finite t n f _ =>
    if n = 0 then (if m = 0 then .nan else .infinite (s != t))
    else ofRatio (s != t) (m * powTwo (e - f)) (n * powTwo (f - e))
  | .infinite _, .infinite _ => .nan
  | .infinite s, .finite t _ _ _ => .infinite (s != t)
  | .finite s _ _ _, .infinite t => zero (s != t)
  | .nan, _ => .nan
  | _, .nan => .nan

/-! ## Integers among the numbers -/

/-- The integer that a number is, if it is one. -/
def toInt? : Binary64 → Option Int
  | .finite s m e _ =>
    if 0 ≤ e then some (signed s (m * powTwo e))
    else if m % powTwo (-e) = 0 then some (signed s (m / powTwo (-e))) else none
  | _ => none

def isOddInteger (x : Binary64) : Bool :=
  match x.toInt? with
  | some n => n % 2 == 1
  | none => false

end Binary64

end Reckoner
