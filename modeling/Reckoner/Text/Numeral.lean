import Reckoner.Number.Basic
import Reckoner.Text.Blank
import Reckoner.Text.Digit

/-!
# Numerals in texts

`int?` and `float?` read a whole text as a number. White space may stand around the numeral, its
digits may be those of any script, and a single underscore may stand between two digits.
-/

set_option autoImplicit false

namespace Reckoner

namespace Text

/-- A digit of any script as the decimal digit of its value. -/
def plainDigit (c : Char) : Char :=
  match digit? c with
  | some d => Nat.digitChar d
  | none => c

/-- The text without its underscores, each of which must stand between two digits. `inside` says
whether a digit stands before the text. -/
def ungroup? (inside : Bool) : List Char → Option (List Char)
  | [] => some []
  | c :: rest =>
    if c = '_' then
      if inside && rest.head?.any Char.isDigit then ungroup? false rest else none
    else (ungroup? c.isDigit rest).map (c :: ·)

/-- Whether a numeral has a minus sign, and what comes after the sign. -/
def unsigned? (s : String) : Option (Bool × List Char) :=
  (ungroup? false ((trim s.toList).map plainDigit)).map Binary64.splitSign

/-- The integer that a text stands for; integers have as many digits as they may be written
with. -/
def int? (s : String) : Option Int := do
  let (negative, ds) ← unsigned? s
  if ds.isEmpty || !ds.all Char.isDigit || Number.digitLimit < ds.length then none
  else return Binary64.signed negative (Binary64.ofDigits ds)

/-- The binary64 number that a text stands for, the infinities and `nan` by name in letters of
either case. -/
def float? (s : String) : Option Binary64 := do
  let (negative, cs) ← unsigned? s
  let word := String.ofList (cs.map Char.toLower)
  if word = "inf" ∨ word = "infinity" then return .infinite negative
  else if word = "nan" then return .nan
  else Binary64.parseUnsigned? negative cs

end Text

end Reckoner
