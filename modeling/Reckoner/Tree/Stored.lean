import Reckoner.Json.Basic
import Reckoner.Tree.Basic

/-!
# Stored tokens

What a stored token holds is not looked at when it is read: its kind, its datum and the parts of its
positions may be any values. Only where its end is left out there must be one, a character after
its start. Evaluation is given for tokens that hold scalars and stand at integers
(`Stored.Token.settle?`, `Tree.settle?`).
-/

set_option autoImplicit false

namespace Reckoner

namespace Json

/-- One more than a value; truth values count as one and zero. -/
def next? : Json → Option Json
  | .number n => (Number.operate? .add n (.int 1)).map .number
  | .bool b => some (.ofInt (if b then 2 else 1))
  | _ => none

/-- The datum that a value without parts stands for. -/
def datum? : Json → Option Datum
  | .null => some .blank
  | .bool b => some (.bool b)
  | .number n => some (.number n)
  | .text s => some (.text s)
  | .list _ | .object _ => none

end Json

namespace Stored

structure Position where
  index : Json
  line : Json
  column : Json
  file : String

structure Token where
  kind : Json
  value : Json
  start : Option Position
  stop : Option Position

/-- One character on. -/
def Position.next? (p : Position) : Option Position := do
  let index ← p.index.next?
  let column ← p.column.next?
  return { p with index, column }

def Position.settle? : Position → Option Reckoner.Position
  | ⟨.number (.int i), .number (.int l), .number (.int c), file⟩ => some ⟨i, l, c, file⟩
  | _ => none

/-- The token with its kind, datum and positions, if it holds nothing else. -/
def Token.settle? (t : Token) : Option Reckoner.Token := do
  let label ← t.kind.datum?
  let value ← t.value.datum?
  let start ← t.start.mapM Position.settle?
  let stop ← t.stop.mapM Position.settle?
  return .make (.ofLabel label) value ⟨start, stop⟩

end Stored

mutual

def Tree.settle? : Tree Stored.Token → Option Tree
  | .absent => some .absent
  | .literal t => do return .literal (← t.settle?)
  | .ident t => do return .ident (← t.settle?)
  | .assign name value => do return .assign (← name.settle?) (← value.settle?)
  | .unary op operand => do return .unary (← op.settle?) (← operand.settle?)
  | .binary op left right => do
    return .binary (← op.settle?) (← left.settle?) (← right.settle?)
  | .conditional branches otherwise => do
    return .conditional (← branches.settle?) (← otherwise.settle?)
  | .forLoop name first last stride body => do
    return .forLoop (← name.settle?) (← first.settle?) (← last.settle?) (← stride.settle?)
      (← body.settle?)
  | .whileLoop condition body => do
    return .whileLoop (← condition.settle?) (← body.settle?)

def Branches.settle? : Branches Stored.Token → Option Branches
  | .nil => some .nil
  | .cons condition body rest => do
    return .cons (← condition.settle?) (← body.settle?) (← rest.settle?)

end

end Reckoner
