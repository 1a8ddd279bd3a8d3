import Reckoner.Number.Arithmetic
import Reckoner.Text.Numeral

/-!
# Data of tokens

A token carries a number, a text, a truth value or nothing. Scanned literals carry numbers; a
stored tree may hold any datum in a literal, so the operators are given here for all of them:
truth values count as one and zero, texts are joined, repeated and ordered, and every other
mixture is refused.
-/

set_option autoImplicit false

namespace Reckoner

inductive Datum where
  | number (n : Number)
  | text (s : String)
  | bool (b : Bool)
  | blank
  deriving DecidableEq

namespace Datum

instance : Inhabited Datum := ⟨.blank⟩

/-- A truth value as the number that it counts as. -/
def plain : Datum → Datum
  | .bool b => .number (.int (if b then 1 else 0))
  | d => d

/-- The datum in the form that it shares with all data equal to it. -/
def canonical (d : Datum) : Datum :=
  match d.plain with
  | .number n => .number n.canonical
  | d => d

/-- Numbers are equal by value, so that an integer may equal a float and `nan` never equals. -/
def eq (x y : Datum) : Bool :=
  match x.plain, y.plain with
  | .number a, .number b => a.eq b
  | .text s, .text t => s == t
  | .blank, .blank => true
  | _, _ => false

def truthText (b : Bool) : String := if b then "True" else "False"

/-- The written form, of whatever length. -/
def display : Datum → String
  | .number n => n.text
  | .text s => s
  | .bool b => truthText b
  | .blank => "None"

/-- The written form, if there is one. -/
def display? : Datum → Option String
  | .number n => n.text?
  | d => some d.display

/-- Only the number zero counts as false. -/
def isTrue (d : Datum) : Bool :=
  match d.plain with
  | .number n => n.isTrue
  | _ => true

/-! ## Operators -/

/-- Why an operator has no result. -/
inductive OperatorFailure where
  | divisionByZero
  /-- the operator is not defined on these kinds of data -/
  | mismatch
  /-- a product is out of range and its text is no numeral -/
  | notNumeral
  /-- a repeated text leaves no room -/
  | tooLong
  deriving DecidableEq

/-- The bound on counts and lengths: they are words of 64 bits, one of them for the sign. -/
def countLimit : Int := 9223372036854775808

/-- The longest text that is formed by repetition. -/
def longestText : Int := 68719476736

/-- Whether a text cannot be written `n` times because the count or the length has no word. -/
def outOfRange (s : String) (n : Int) : Bool :=
  n < -countLimit || countLimit ≤ n || countLimit ≤ n * s.length

/-- A text written `n` times, not at all for a negative count. -/
def repeatText (s : String) (n : Int) : Except OperatorFailure Datum :=
  if longestText < n * s.length then .error .tooLong
  else if s = "" then .ok (.text "")
  else .ok (.text (String.join (List.replicate n.toNat s)))

/-- The product of a text and a count. Out of range it is refused. -/
def textTimes (s : String) (n : Int) : Except OperatorFailure Datum :=
  if outOfRange s n then .error (if (Text.float? s).isSome then .mismatch else .notNumeral)
  else repeatText s n

/-- The product of a count and a text. Out of range the text must be a numeral, and a positive
count in the binary64 range saturates. -/
def timesText (n : Int) (s : String) : Except OperatorFailure Datum :=
  if outOfRange s n then
    if (Text.float? s).isNone then .error .notNumeral
    else if 0 ≤ n ∧ (Number.int n).clamp = .int n then .ok (.number (.float (.infinite false)))
    else .error .mismatch
  else repeatText s n

/-- The result of an arithmetic operation. -/
def arithmetic (op : Number.Operation) (x y : Datum) : Except OperatorFailure Datum :=
  match op, x.plain, y.plain with
  | op, .number a, .number b =>
    match Number.operate? op a b with
    | some c => .ok (.number c)
    | none => .error .divisionByZero
  | .add, .text s, .text t => .ok (.text (s ++ t))
  | .mul, .text s, .number (.int n) => textTimes s n
  | .mul, .number (.int n), .text s => timesText n s
  | .div, _, .number b => if b.eq (.int 0) then .error .divisionByZero else .error .mismatch
  | _, _, _ => .error .mismatch

inductive Relation where
  | eq
  | ne
  | lt
  | gt
  | le
  | ge
  deriving DecidableEq

/-- Whether two numbers stand in a relation; `nan` stands only in `ne`. -/
def Relation.holdsOfNumbers : Relation → Number → Number → Bool
  | .eq, a, b => a.eq b
  | .ne, a, b => !a.eq b
  | .lt, a, b => a.lt b
  | .gt, a, b => a.gt b
  | .le, a, b => a.le b
  | .ge, a, b => a.ge b

/-- Whether two texts stand in a relation; texts are ordered by code points. -/
def Relation.holdsOfTexts : Relation → String → String → Bool
  | .eq, s, t => s == t
  | .ne, s, t => s != t
  | .lt, s, t => decide (s < t)
  | .gt, s, t => decide (t < s)
  | .le, s, t => !decide (t < s)
  | .ge, s, t => !decide (s < t)

/-- Whether two data stand in a relation; none if their kinds have no order. -/
def relate? (r : Relation) (x y : Datum) : Option Bool :=
  match r, x.plain, y.plain with
  | r, .number a, .number b => some (r.holdsOfNumbers a b)
  | r, .text s, .text t => some (r.holdsOfTexts s t)
  | .eq, x, y => some (x.eq y)
  | .ne, x, y => some (!x.eq y)
  | _, _, _ => none

/-- The datum with its sign changed; a text counted minus one times is empty. -/
def neg? (d : Datum) : Option Datum :=
  match d.plain with
  | .number n => some (.number n.neg)
  | .text _ => some (.text "")
  | _ => none

end Datum

end Reckoner
