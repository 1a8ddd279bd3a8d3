import Reckoner.Token.Basic

/-!
# Operators

A token names an operator by its key. Binary operators are arithmetic, compare two data, or
connect truth values; the last two kinds answer one or zero.
-/

set_option autoImplicit false

namespace Reckoner

inductive Operator where
  | arithmetic (op : Number.Operation)
  | relation (r : Datum.Relation)
  | and
  | or
  deriving DecidableEq

namespace Operator

def table : List (String × Operator) :=
  [(Symbol.plus.label, .arithmetic .add),
   (Symbol.minus.label, .arithmetic .sub),
   (Symbol.times.label, .arithmetic .mul),
   (Symbol.divide.label, .arithmetic .div),
   (Symbol.power.label, .arithmetic .pow),
   (Symbol.equal.label, .relation .eq),
   (Symbol.unequal.label, .relation .ne),
   (Symbol.less.label, .relation .lt),
   (Symbol.greater.label, .relation .gt),
   (Symbol.atMost.label, .relation .le),
   (Symbol.atLeast.label, .relation .ge),
   (Keyword.and.text, .and),
   (Keyword.or.text, .or)]

/-- The operator that a key names. -/
def ofKey? : Datum → Option Operator
  | .text s => table.lookup s
  | _ => none

def truth (b : Bool) : Datum := .number (.int (if b then 1 else 0))

def apply : Operator → Datum → Datum → Except Datum.OperatorFailure Datum
  | .arithmetic op, x, y => Datum.arithmetic op x y
  | .relation r, x, y =>
    match Datum.relate? r x y with
    | some b => .ok (truth b)
    | none => .error .mismatch
  | .and, x, y => .ok (truth (x.isTrue && y.isTrue))
  | .or, x, y => .ok (truth (x.isTrue || y.isTrue))

/-- The result of a unary operator: a minus changes the sign, `NOT` answers one for a false
operand, and any other key leaves the operand as it is. -/
def applyUnary? (key x : Datum) : Option Datum :=
  if key = .text Symbol.minus.label then x.neg?
  else if key = .text Keyword.not.text then some (truth !x.isTrue)
  else some x

end Operator

end Reckoner
