import Reckoner.Binary64.Basic

/-!
# Powers of binary64 numbers

A positive base to a finite exponent is bracketed between two numbers `low * 2 ^ place` and
`high * 2 ^ place`: whole powers by repeated squaring, the binary fraction of the exponent by
repeated square roots. The bracket is accepted when both of its ends round to the same number;
otherwise it is formed again with more bits. `pow?` adds the special cases of zeros, infinities,
`nan` and negative bases.
-/

set_option autoImplicit false

namespace Reckoner

/-! ## Brackets -/

/-- A positive number known to lie between `low * 2 ^ place` and `high * 2 ^ place`. -/
structure Bracket where
  low : Nat
  high : Nat
  place : Int
  deriving DecidableEq

namespace Bracket

/-- The quotient rounded up. -/
def divUp (n d : Nat) : Nat := (n + d - 1) / d

/-- The number of bits of a natural. -/
def bits (n : Nat) : Nat := if n = 0 then 0 else n.log2 + 1

def exact (n : Nat) (place : Int) : Bracket := ⟨n, n, place⟩

/-- The bracket widened to ends of at most `width` bits, or one bit more for the upper one. -/
def trim (width : Nat) (b : Bracket) : Bracket :=
  let excess := bits b.high - width
  ⟨b.low / powTwo excess, divUp b.high (powTwo excess), b.place + excess⟩

def mul (width : Nat) (a b : Bracket) : Bracket :=
  trim width ⟨a.low * b.low, a.high * b.high, a.place + b.place⟩

/-- The square root: the ends are lengthened to about twice the width, over an even place. -/
def sqrt (width : Nat) (b : Bracket) : Bracket :=
  let room := 2 * width - bits b.high
  let shift := if (b.place - room) % 2 = 0 then room else room + 1
  let low := (b.low * powTwo shift).sqrt
  let top := b.high * powTwo shift
  let high := if top.sqrt * top.sqrt = top then top.sqrt else top.sqrt + 1
  trim width ⟨low, high, (b.place - shift) / 2⟩

/-- The reciprocal. -/
def inverse (width : Nat) (b : Bracket) : Bracket :=
  let shift := 2 * width + bits b.high
  ⟨powTwo shift / b.high, divUp (powTwo shift) b.low, -b.place - shift⟩

/-- The power with a whole exponent, whose bits are given from the lowest. -/
def powBits (width : Nat) : List Bool → Bracket → Bracket → Bracket
  | [], _, result => result
  | bit :: rest, base, result =>
    powBits width rest (mul width base base) (if bit then mul width result base else result)

/-- The power with a fractional exponent, whose bits are given from the highest. -/
def rootBits (width : Nat) : List Bool → Bracket → Bracket → Bracket
  | [], _, result => result
  | bit :: rest, base, result =>
    let root := sqrt width base
    rootBits width rest root (if bit then mul width result root else result)

/-- The number at the end `n * 2 ^ place`; ends far beyond the range need not be written out. -/
def round (n : Nat) (place : Int) : Binary64 :=
  if n = 0 then .zero false
  else if 1100 < bits n + place then .infinite false
  else if bits n + place < -1200 then .zero false
  else .ofScaled false n place

end Bracket

namespace Binary64

/-- The lowest `count` bits of a natural, the lowest one first. -/
def lowBits (n count : Nat) : List Bool := (List.range count).map n.testBit

/-- A bracket of `(m * 2 ^ e) ^ (k / 2 ^ j)` with ends of about `width` bits. -/
def powBracket (width m : Nat) (e : Int) (k j : Nat) : Bracket :=
  let base := Bracket.exact m e
  let whole := k / powTwo j
  let part := Bracket.powBits width (lowBits whole (Bracket.bits whole)) base (Bracket.exact 1 0)
  Bracket.rootBits width (lowBits k j).reverse base part

/-- The common rounding of both ends of a bracket, if they have one; the lower end's rounding
once the last width is reached. -/
def settle (bracket : Nat → Bracket) : List Nat → Binary64
  | [] => .nan
  | [width] => Bracket.round (bracket width).low (bracket width).place
  | width :: wider =>
    let b := bracket width
    let low := Bracket.round b.low b.place
    if low = Bracket.round b.high b.place then low else settle bracket wider

/-- The widths tried for a bracket. -/
def widths : List Nat := [128, 256, 512, 1024]

/-- The power of a positive number other than one, `(m * 2 ^ e) ^ (± n * 2 ^ f)`, rounded once.
An exponent of more than 64 bits before the point leads out of the range, one below `2 ^ -64`
to one. That powers are rounded once is an assumption: a mathematical library may give another
last digit where the power lies close to the middle between two numbers. -/
def powMagnitude (m : Nat) (e : Int) (negative : Bool) (n : Nat) (f : Int) : Binary64 :=
  let top : Int := Bracket.bits n + f
  if 64 < top then
    let aboveOne := compareScaled 1 0 m e == .lt
    if aboveOne != negative then .infinite false else zero false
  else if top < -64 then one false
  else
    let k := n * powTwo f
    let j := (-f).toNat
    settle (fun width =>
      let b := powBracket width m e k j
      if negative then b.inverse width else b) widths

/-- Why a power has no binary64 value. -/
inductive PowFailure where
  /-- zero to a negative exponent -/
  | zeroBase
  /-- a finite result is out of range -/
  | overflow
  /-- a negative base to an exponent that is not an integer -/
  | notReal
  deriving DecidableEq

/-- A result of finite operands; an infinity is an overflow. -/
def checkRange (x : Binary64) : Except PowFailure Binary64 :=
  if x.isInfinite then .error .overflow else .ok x

/-- `x ^ y` for infinite `y`: the size of the base decides. -/
def powInfinite (x : Binary64) (negative : Bool) : Binary64 :=
  match x.abs.compare? (one false) with
  | some .eq => one false
  | some .gt => if negative then zero false else .infinite false
  | _ => if negative then .infinite false else zero false

/-- `x ^ y`; an exponent zero gives one and a base one gives one, whatever the other operand
is. An odd integer exponent keeps the sign of the base. A result out of range and a base zero to
a negative exponent fail, and so does a negative base to an exponent that is not an integer. -/
def pow? (x y : Binary64) : Except PowFailure Binary64 :=
  if y.isZero then .ok (one false)
  else match x, y with
    | .nan, _ => .ok .nan
    | x, .nan => .ok (if x = one false then one false else .nan)
    | x, .infinite t => .ok (powInfinite x t)
    | .infinite s, .finite t _ _ _ =>
      let sign := s && y.isOddInteger
      .ok (if t then zero sign else .infinite sign)
    | .finite s m e _, .finite t n f _ =>
      if m = 0 then
        if t then .error .zeroBase else .ok (zero (s && y.isOddInteger))
      else if s && y.toInt?.isNone then
        if (powMagnitude m e t n f).isInfinite then .error .overflow else .error .notReal
      else
        let sign := s && y.isOddInteger
        if x.abs = one false then .ok (one sign)
        else checkRange ((powMagnitude m e t n f).withSign sign)

end Binary64

end Reckoner
