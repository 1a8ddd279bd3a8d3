import Reckoner.Diagnostic
import Reckoner.Environment.Basic
import Reckoner.Operator
import Reckoner.Tree.Basic

/-!
# Evaluation steps

An evaluation step changes the state and ends in one of four ways: with a result, with a
diagnostic, with a fault, or unfinished. A fault is a failure for which there is no diagnostic:
the tree is not one that parsing gives, or an integer is too long to be written.
-/

set_option autoImplicit false

namespace Reckoner

inductive Fault where
  | missingTree
  | unplaced (why : Unplaced)
  | unknownOperator (key : Datum)
  | operand (why : Datum.OperatorFailure)
  | oversizedInteger
  | voidBudget
  /-- the tokens have no end -/
  | endless
  deriving DecidableEq

inductive Outcome (α : Type) where
  | done (a : α)
  | diagnosed (d : Diagnostic)
  | faulted (f : Fault)
  /-- a loop was not followed to its end -/
  | unfinished
  deriving DecidableEq

/-- A line of the trace and the least verbosity at which it is written. -/
structure Note where
  level : Nat
  text : String
  deriving DecidableEq

/-- How many loop passes may be made. -/
inductive Budget where
  | unlimited
  /-- a further pass is a diagnostic -/
  | passes (limit : Int)
  /-- a limit that says nothing, against which no pass can be counted -/
  | void
  deriving DecidableEq

/-- What stays the same during an evaluation. -/
structure Settings where
  budget : Budget := .unlimited
  verbosity : Nat := 0
  frames : List Frame := [{ name := "<program>" }]
  /-- how many passes of one loop are followed where there is no budget -/
  patience : Nat := 0

/-- How many passes of one loop are followed. A loop that makes more passes than its budget
allows ends before them. -/
def Settings.passes (s : Settings) : Nat :=
  match s.budget with
  | .passes n => n.toNat + 2
  | .void => 1
  | .unlimited => s.patience

/-- What an evaluation changes. -/
structure State where
  environment : Environment := {}
  /-- the loop passes made so far, one over the budget included -/
  steps : Nat := 0
  trace : Array Note := #[]

def Eval (α : Type) : Type := State → Outcome α × State

namespace Eval

variable {α β : Type}

protected def pure (a : α) : Eval α := fun s => (.done a, s)

protected def bind (m : Eval α) (f : α → Eval β) : Eval β := fun s =>
  match m s with
  | (.done a, s) => f a s
  | (.diagnosed d, s) => (.diagnosed d, s)
  | (.faulted e, s) => (.faulted e, s)
  | (.unfinished, s) => (.unfinished, s)

instance : Monad Eval where
  pure := Eval.pure
  bind := Eval.bind

def diagnosed (d : Diagnostic) : Eval α := fun s => (.diagnosed d, s)

def faulted (f : Fault) : Eval α := fun s => (.faulted f, s)

def environment : Eval Environment := fun s => (.done s.environment, s)

def assign (name : Name) (v : Value) : Eval Unit := fun s =>
  (.done (), { s with environment := s.environment.set name v })

/-- The result, or the fault of having none. -/
def orFault (f : Fault) : Option α → Eval α
  | some a => pure a
  | none => faulted f

/-- What is said of a place, or the fault of having none. -/
def placed : Except Unplaced α → Eval α
  | .ok a => pure a
  | .error why => faulted (.unplaced why)

/-- Writes a line to the trace if the verbosity asks for it. A line that has no text is a fault
then. -/
def note (set : Settings) (level : Nat) (text : Unit → Option String) : Eval Unit :=
  if level ≤ set.verbosity then
    match text () with
    | some t => fun s => (.done (), { s with trace := s.trace.push ⟨level, t⟩ })
    | none => faulted .oversizedInteger
  else pure ()

/-- Ends with a diagnostic about a tree. -/
def diagnose (set : Settings) (kind : Diagnostic.Kind) (t : Tree)
    (details : String := kind.defaultDetails) : Eval α := do
  let (start, stop) ← placed t.ends?
  diagnosed { kind := kind, start := start, stop := stop, details := details, frames := set.frames }

/-- Counts one pass of the loop `t` against the budget. -/
def tick (set : Settings) (t : Tree) : Eval Unit := do
  let steps ← (fun s => (.done (s.steps + 1), { s with steps := s.steps + 1 }) : Eval Nat)
  match set.budget with
  | .unlimited => pure ()
  | .void => faulted .voidBudget
  | .passes limit =>
    if limit < steps then
      let _ ← placed t.span?
      let limitText ← orFault .oversizedInteger (Number.int limit).text?
      diagnose set .stepLimit t ("Step limit of " ++ limitText ++ " exceeded")
    else pure ()

/-- Passes of a loop, at most so many, each from where the one before it ended, until one says
that the loop is over. -/
def iterate {σ : Type} : Nat → (σ → Eval (Option σ)) → σ → Eval Unit
  | 0, _, _ => fun s => (.unfinished, s)
  | n + 1, pass, i => fun s =>
    match pass i s with
    | (.done (some i), s) => iterate n pass i s
    | (.done none, s) => (.done (), s)
    | (.diagnosed d, s) => (.diagnosed d, s)
    | (.faulted e, s) => (.faulted e, s)
    | (.unfinished, s) => (.unfinished, s)

end Eval

end Reckoner
