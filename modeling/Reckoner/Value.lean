import Reckoner.Datum
import Reckoner.Position

/-!
# Values

Evaluation yields a datum or nothing. A datum remembers the span of the tree that gave it, which
plays no part in equality or arithmetic.
-/

set_option autoImplicit false

namespace Reckoner

inductive Value where
  | datum (d : Datum) (span : Span)
  /-- what loops yield, and conditionals none of whose branches is taken -/
  | nothing
  deriving DecidableEq, Inhabited

namespace Value

/-- Equality without regard to spans. -/
def eq : Value → Value → Bool
  | .datum a _, .datum b _ => a.eq b
  | .nothing, .nothing => true
  | _, _ => false

def isTrue : Value → Bool
  | .datum d _ => d.isTrue
  | .nothing => false

def span? : Value → Option Span
  | .datum _ s => some s
  | .nothing => none

/-- The value as it is seen at another place. -/
def withSpan (v : Value) (span : Span) : Value :=
  match v with
  | .datum d _ => .datum d span
  | .nothing => .nothing

/-- The text of a value, if it has one. -/
def text? : Value → Option String
  | .datum d _ => d.display?
  | .nothing => some "None"

end Value

end Reckoner
