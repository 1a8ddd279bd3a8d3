import Reckoner.Evaluation.Basic

/-!
# Evaluating trees

Children are evaluated from left to right, both operands of an operator always. Loops count
their passes before the body; a counted loop evaluates its bounds once.
-/

set_option autoImplicit false

namespace Reckoner

namespace Eval

/-- The datum of an operand; a value that is nothing is diagnosed at the tree it came from. -/
def datumOf (set : Settings) (t : Tree) : Value → Eval Datum
  | .datum d _ => pure d
  | .nothing => diagnose set .illegalOperation t

/-- The result of a binary operator. A division by zero is diagnosed at the right operand. -/
def binary (set : Settings) (key x y : Datum) (right : Tree) : Eval Datum := do
  let op ← orFault (.unknownOperator key) (Operator.ofKey? key)
  match op.apply x y with
  | .ok d => pure d
  | .error .divisionByZero => diagnose set .divisionByZero right
  | .error why => faulted (.operand why)

/-- A bound of a counted loop, one if it is left out. -/
def bound (set : Settings) (t : Tree) (value : Eval Value) : Eval Datum := do
  match t with
  | .absent => pure (.number (.int 1))
  | t => datumOf set t (← value)

def relation (r : Datum.Relation) (x y : Datum) : Eval Bool :=
  orFault (.operand .mismatch) (Datum.relate? r x y)

/-- Whether a counted loop goes on: its last bound is not reached, counting up for a step that is
not negative and down for any other. -/
def proceeds (i limit step : Datum) : Eval Bool := do
  if ← relation .ge step (.number (.int 0)) then relation .lt i limit
  else relation .gt i limit

def successor (i step : Datum) : Eval Datum :=
  match Datum.arithmetic .add i step with
  | .ok d => pure d
  | .error why => faulted (.operand why)

end Eval

/-- The line that says how a condition turned out. -/
def conditionText (loop : String) (v : Value) : Option String := do
  return loop ++ " condition " ++ (← v.text?) ++ " -> " ++ Datum.truthText v.isTrue

open Eval

mutual

def Tree.evaluate (set : Settings) : Tree → Eval Value
  | .absent => faulted .missingTree
  | .literal t => pure (.datum t.value t.span)
  | .ident t => do
    match (← environment).get? t.name with
    | some v => pure (v.withSpan t.span)
    | none =>
      let name ← orFault .oversizedInteger t.name.text?
      diagnose set .undefinedVariable (.ident t) ("'" ++ name ++ "' is not defined")
  | .assign name value => do
    let v ← value.evaluate set
    Eval.assign name.name v
    note set 2 fun _ => do return "assign " ++ (← name.name.text?) ++ " = " ++ (← v.text?)
    pure v
  | .unary op operand => do
    let x ← datumOf set operand (← operand.evaluate set)
    let d ← orFault (.operand .mismatch) (Operator.applyUnary? op.operatorKey x)
    let span ← placed (Tree.unary op operand).span?
    pure (.datum d span)
  | .binary op left right => do
    let x ← left.evaluate set
    let y ← right.evaluate set
    let x ← datumOf set left x
    let y ← datumOf set right y
    let d ← Eval.binary set op.operatorKey x y right
    let span ← placed (Tree.binary op left right).span?
    pure (.datum d span)
  | .conditional branches otherwise => do
    match ← branches.evaluate set with
    | some v => pure v
    | none =>
      match otherwise with
      | .absent => pure .nothing
      | _ => otherwise.evaluate set
  | .forLoop name first last stride body => do
    let i ← bound set first (first.evaluate set)
    let limit ← bound set last (last.evaluate set)
    let step ← bound set stride (stride.evaluate set)
    note set 2 fun _ => do
      return "for " ++ (← name.name.text?) ++ " = " ++ (← i.display?) ++ " upto " ++
        (← limit.display?) ++ " step " ++ (← step.display?)
    iterate set.passes (fun i => do
      if ← proceeds i limit step then
        tick set (.forLoop name first last stride body)
        Eval.assign name.name (.datum i name.span)
        note set 3 fun _ => do
          return "for iteration " ++ (← name.name.text?) ++ " = " ++ (← i.display?)
        let next ← successor i step
        let _ ← body.evaluate set
        pure (some next)
      else pure none) i
    pure .nothing
  | .whileLoop condition body => do
    iterate set.passes (fun _ => do
      let v ← condition.evaluate set
      note set 3 fun _ => conditionText "while" v
      if v.isTrue then
        tick set (.whileLoop condition body)
        let _ ← body.evaluate set
        pure (some ())
      else pure none) ()
    pure .nothing

/-- The value of the first branch whose condition is true. -/
def Branches.evaluate (set : Settings) : Branches → Eval (Option Value)
  | .nil => pure none
  | .cons condition body rest => do
    let v ← condition.evaluate set
    note set 3 fun _ => conditionText "if" v
    if v.isTrue then
      let w ← body.evaluate set
      pure (some w)
    else rest.evaluate set

end

end Reckoner
