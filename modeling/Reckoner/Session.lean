import Reckoner.Evaluation.Program

/-!
# Sessions

A session keeps an environment, a budget and a verbosity from one run to the next, and the
number of loop passes of the last evaluation.
-/

set_option autoImplicit false

namespace Reckoner

/-- What a run came to and what it wrote to the trace. -/
structure Answer where
  outcome : Outcome Value
  trace : Array Note

/-- The lines of a trace, each ended by a line feed. -/
def Answer.traceText (a : Answer) : String :=
  String.join (a.trace.toList.map fun n => n.text ++ "\n")

structure Session where
  environment : Environment := {}
  budget : Budget := .unlimited
  verbosity : Nat := 0
  steps : Nat := 0

namespace Session

def settings (s : Session) (patience : Nat) : Settings :=
  { budget := s.budget, verbosity := s.verbosity, patience := patience }

/-- Evaluates in the session. Without a budget, loops are followed for `patience` passes. -/
def perform (s : Session) (patience : Nat) (m : Settings → Eval Value) : Answer × Session :=
  let (outcome, state) :=
    m (s.settings patience) { environment := s.environment, steps := s.steps }
  (⟨outcome, state.trace⟩, { s with environment := state.environment, steps := state.steps })

def run (s : Session) (patience : Nat) (file text : String) : Answer × Session :=
  s.perform patience fun set => Eval.run set file text

def execute (s : Session) (patience : Nat) (t : Tree) : Answer × Session :=
  s.perform patience fun set => Eval.execute set t

end Session

end Reckoner
