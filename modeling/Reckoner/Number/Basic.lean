import Reckoner.Binary64.Decimal
import Reckoner.Binary64.Power

/-!
# Numbers

A number is an integer of any size or a binary64 number. Comparison is exact across the two.
Integers have text only up to `digitLimit` digits.
-/

set_option autoImplicit false

namespace Reckoner

inductive Number where
  | int (n : Int)
  | float (x : Binary64)
  deriving DecidableEq

namespace Number

instance : Inhabited Number := ⟨.int 0⟩

/-- The binary64 number nearest to a number; an integer out of range becomes an infinity. -/
def toBinary64 : Number → Binary64
  | .int n => .ofInt n
  | .float x => x

/-- An integer out of the binary64 range becomes the infinity of its sign; any other number
stays as it is. -/
def clamp : Number → Number
  | .int n => if (Binary64.ofInt n).isInfinite then .float (.ofInt n) else .int n
  | .float x => .float x

/-! ## Comparison -/

/-- The exact order of two numbers; none if one is `nan`. -/
def compare? : Number → Number → Option Ordering
  | .int a, .int b => some (compare a b)
  | .int a, .float y => Binary64.compareInt a y
  | .float x, .int b => (Binary64.compareInt b x).map Ordering.swap
  | .float x, .float y => x.compare? y

def eq (a b : Number) : Bool := a.compare? b == some .eq
def lt (a b : Number) : Bool := a.compare? b == some .lt
def gt (a b : Number) : Bool := a.compare? b == some .gt
def le (a b : Number) : Bool := a.lt b || a.eq b
def ge (a b : Number) : Bool := a.gt b || a.eq b

/-- The number in the form that it shares with all numbers equal to it: an integer where it is
one. -/
def canonical : Number → Number
  | .int n => .int n
  | .float x =>
    match x.toInt? with
    | some n => .int n
    | none => .float x

/-- Every number but zero counts as true, `nan` included. -/
def isTrue (a : Number) : Bool := !a.eq (.int 0)

/-! ## Text -/

/-- The most decimal digits that an integer with a text has. -/
def digitLimit : Nat := 4300

/-- Whether an integer has more digits than can be written. -/
def tooLong (n : Int) : Bool := powTen digitLimit ≤ n.natAbs

/-- The text of a number, of whatever length. -/
def text : Number → String
  | .int n => toString n
  | .float x => x.text

/-- The text of a number that has one. -/
def text? : Number → Option String
  | .int n => if tooLong n then none else some (toString n)
  | .float x => some x.text

end Number

end Reckoner
