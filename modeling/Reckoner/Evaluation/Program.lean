import Reckoner.Evaluation.Source
import Reckoner.Evaluation.Tree

/-!
# Running programs

A program is one expression. It is scanned, parsed and evaluated; the first stage that fails ends
the run, and a run that does not reach evaluation leaves the state as it was but for the trace.
-/

set_option autoImplicit false

namespace Reckoner

/-- The fault of a text that is refused without a diagnostic. -/
def Source.Refusal.fault : Source.Refusal → Fault
  | .halt .endless => .endless
  | .halt .unlocated => .unplaced .missing
  | .scan _ | .parse _ => .oversizedInteger

namespace Eval

/-- Evaluates a whole tree, with the passes counted from zero. -/
def execute (set : Settings) (t : Tree) : Eval Value := fun s =>
  match t.evaluate set { s with steps := 0 } with
  | (.done v, s) => (do
      note set 1 fun _ => v.text?.map ("result: " ++ ·)
      pure v : Eval Value) s
  | (.diagnosed d, s) => (do
      note set 1 fun _ => some ("runtime error: " ++ d.details)
      diagnosed d : Eval Value) s
  | other => other

/-- Ends a run whose text is refused. -/
def refuse (set : Settings) (file stage : String) (e : Source.Refusal) : Eval Value := do
  match e.diagnostic? with
  | some d =>
    note set 1 fun _ => some (file ++ ": " ++ stage ++ " error: " ++ d.details)
    diagnosed d
  | none => faulted e.fault

/-- Evaluates a text. -/
def run (set : Settings) (file text : String) : Eval Value := do
  match Source.tokens file text with
  | .error e => refuse set file "lexer" e
  | .ok tokens =>
    note set 1 fun _ => some (file ++ ": " ++ toString tokens.length ++ " tokens")
    match Source.treeOfTokens tokens with
    | .error e => refuse set file "syntax" e
    | .ok t =>
      note set 1 fun _ => some (file ++ ": parsed " ++ t.form)
      execute set t

end Eval

end Reckoner
