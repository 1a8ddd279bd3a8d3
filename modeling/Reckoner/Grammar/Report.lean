/-!
# Reports of grammar rules

Each rule of the grammar answers with a report: the node it built or the error it met, and how
many tokens it consumed, in all and in its last step. A rule that would rather give an error of
its own may do so only where its last step consumed nothing, so the error that stands is the one
of the alternative that got furthest.
-/

set_option autoImplicit false

namespace Reckoner

structure Report (ε α : Type) where
  error : Option ε := none
  node : Option α := none
  lastStep : Nat := 0
  consumed : Nat := 0
  deriving DecidableEq

namespace Report

variable {ε α : Type}

/-- The report of a rule that has consumed nothing yet. -/
def empty : Report ε α := {}

/-- One more token was consumed. -/
def advance (r : Report ε α) : Report ε α := { r with lastStep := 1, consumed := r.consumed + 1 }

/-- A rule inside this one answered with `sub`. -/
def register (r sub : Report ε α) : Report ε α :=
  { r with
    lastStep := sub.consumed
    consumed := r.consumed + sub.consumed
    error := match sub.error with
      | some e => some e
      | none => r.error }

def succeed (r : Report ε α) (node : α) : Report ε α := { r with node := some node }

/-- An error of this rule itself gives way to an earlier one after a step that consumed. -/
def fail (r : Report ε α) (e : ε) : Report ε α :=
  if r.error.isNone || r.lastStep == 0 then { r with error := some e } else r

end Report

end Reckoner
