/-!
# Slots

A slot holds what an evaluation left: a value or an error, never both once something is put into
it. Registering another slot takes over its error and hands out its value.
-/

set_option autoImplicit false

namespace Reckoner

structure Slot (ε α : Type) where
  value : Option α := none
  error : Option ε := none
  deriving DecidableEq

namespace Slot

variable {ε α β : Type}

def empty : Slot ε α := {}

def succeed (v : α) : Slot ε α := ⟨some v, none⟩

def fail (e : ε) : Slot ε α := ⟨none, some e⟩

/-- The error becomes that of `inner`, also if it has none. -/
def register (s : Slot ε α) (inner : Slot ε β) : Slot ε α := { s with error := inner.error }

end Slot

end Reckoner
