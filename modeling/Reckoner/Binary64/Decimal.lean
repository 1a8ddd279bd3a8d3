import Reckoner.Binary64.Basic

/-!
# Decimal text of binary64 numbers

`ofDecimal` reads a decimal by one rounding. `shortest` finds the fewest digits that read back,
and `text` writes them: positionally when the leading digit stands for `10 ^ -4` up to `10 ^ 15`,
else with an exponent of at least two digits. `parse?` reads any text that `text` writes.
-/

set_option autoImplicit false

namespace Reckoner

namespace Binary64

/-! ## Reading decimals -/

/-- The number of decimal digits of a natural; that of zero is one. -/
def digitCount (n : Nat) : Nat := (Nat.toDigits 10 n).length

/-- The number `± digits * 10 ^ exponent` rounded once. Beyond the exponents tried first the
answer is an infinity or a zero whatever the digits are. -/
def ofDecimal (negative : Bool) (digits : Nat) (exponent : Int) : Binary64 :=
  if digits = 0 then zero negative
  else
    let top : Int := digitCount digits + exponent
    if 310 < top then .infinite negative
    else if top < -330 then zero negative
    else ofRatio negative (digits * powTen exponent) (powTen (-exponent))

/-! ## The fewest digits that read back -/

/-- Digits and the power of ten of the last one. -/
structure Decimal where
  digits : Nat
  exponent : Int
  deriving DecidableEq

/-- Whether `10 ^ k ≤ n / d`. -/
def reachesPower (n d : Nat) (k : Int) : Bool :=
  d * powTen k ≤ n * powTen (-k)

/-- The power of ten of the leading digit of `n / d`. -/
def leadingPower (n d : Nat) : Int :=
  let guess : Int := ((n.log2 : Int) - d.log2 - 1) * 30103 / 100000
  if reachesPower n d (guess + 1) then guess + 1
  else if reachesPower n d guess then guess else guess - 1

/-- The nearest of the two neighbours of `n / d` with `count` digits that satisfies `reads`; of
two equally near ones the even one. -/
def neighbour? (reads : Decimal → Bool) (n d : Nat) (count : Nat) : Option Decimal :=
  let place := leadingPower n d - (count : Int) + 1
  let top := n * powTen (-place)
  let bottom := d * powTen place
  let low : Decimal := ⟨top / bottom, place⟩
  let high : Decimal := ⟨top / bottom + 1, place⟩
  let nearestFirst :=
    if divNearest top bottom = low.digits then [low, high] else [high, low]
  nearestFirst.find? reads

/-- The decimal of fewest digits, at most 17, whose neighbourhood holds the positive number. -/
def shortestOf (reads : Decimal → Bool) (n d : Nat) : Decimal :=
  ((List.range 17).findSome? fun k => neighbour? reads n d (k + 1)).getD ⟨0, 0⟩

/-- The shortest decimal that `ofDecimal` reads as the magnitude of the number. -/
def shortest (m : Nat) (e : Int) (h : Fits m e) : Decimal :=
  if m = 0 then ⟨0, 0⟩
  else
    shortestOf (fun t => ofDecimal false t.digits t.exponent == .finite false m e h)
      (m * powTwo e) (powTwo (-e))

/-! ## Written form -/

/-- The digits without their trailing zeros. -/
def significantDigits (n : Nat) : List Char :=
  ((Nat.toDigits 10 n).reverse.dropWhile (· == '0')).reverse

/-- The exponent with its sign and at least two digits. -/
def exponentText (k : Int) : List Char :=
  let ds := Nat.toDigits 10 k.natAbs
  'e' :: (if k < 0 then '-' else '+') :: (if ds.length < 2 then '0' :: ds else ds)

/-- The digits `ds` with the first one at `10 ^ k`. -/
def layout (ds : List Char) (k : Int) : List Char :=
  if -4 ≤ k ∧ k < 16 then
    if k < 0 then
      '0' :: '.' :: (List.replicate (-k - 1).toNat '0' ++ ds)
    else
      let whole := k.toNat + 1
      let after := ds.drop whole
      ds.take whole ++ List.replicate (whole - ds.length) '0' ++
        '.' :: (if after.isEmpty then ['0'] else after)
  else
    match ds with
    | [] => exponentText k
    | [c] => c :: exponentText k
    | c :: rest => c :: '.' :: rest ++ exponentText k

/-- The text of a number, the shortest that reads back. -/
def text : Binary64 → String
  | .finite s m e h =>
    let t := shortest m e h
    let ds := significantDigits t.digits
    let body :=
      if ds.isEmpty then ['0', '.', '0']
      else layout ds (t.exponent + (digitCount t.digits : Int) - 1)
    String.ofList (if s then '-' :: body else body)
  | .infinite s => if s then "-inf" else "inf"
  | .nan => "nan"

/-! ## Reading text -/

def digitValue (c : Char) : Nat := c.toNat - '0'.toNat

/-- The natural that a list of decimal digits stands for. -/
def ofDigits (ds : List Char) : Nat := ds.foldl (fun n c => 10 * n + digitValue c) 0

/-- An optional sign in front of a text. -/
def splitSign : List Char → Bool × List Char
  | '-' :: rest => (true, rest)
  | '+' :: rest => (false, rest)
  | rest => (false, rest)

/-- The exponent part `e±ddd` of a text, absent or complete. -/
def parseExponent? : List Char → Option Int
  | [] => some 0
  | c :: rest =>
    if c = 'e' ∨ c = 'E' then
      let (negative, ds) := splitSign rest
      if ds.isEmpty || !ds.all Char.isDigit then none
      else some (signed negative (ofDigits ds))
    else none

/-- The number that an unsigned text with digits, a fraction and an exponent stands for. -/
def parseUnsigned? (negative : Bool) (cs : List Char) : Option Binary64 :=
  let whole := cs.takeWhile Char.isDigit
  let rest := cs.dropWhile Char.isDigit
  let (fraction, rest) : List Char × List Char := match rest with
    | '.' :: more => (more.takeWhile Char.isDigit, more.dropWhile Char.isDigit)
    | _ => ([], rest)
  if whole.isEmpty && fraction.isEmpty then none
  else (parseExponent? rest).map fun k =>
    ofDecimal negative (ofDigits (whole ++ fraction)) (k - (fraction.length : Int))

/-- The number that a text stands for. -/
def parse? (s : String) : Option Binary64 :=
  let (negative, cs) := splitSign s.toList
  if cs = "inf".toList then some (.infinite negative)
  else if cs = "nan".toList then some .nan
  else parseUnsigned? negative cs

end Binary64

end Reckoner
