import Reckoner.Assoc
import Reckoner.Name
import Reckoner.Value

/-!
# Environments

An environment is a scope inside a chain of enclosing ones. A name is looked up from the inside
out; binding a name touches the innermost scope only.
-/

set_option autoImplicit false

namespace Reckoner

/-- The names bound in one scope, in the order in which they were first bound. -/
structure Bindings where
  entries : List (Name × Value) := []
  deriving Inhabited

namespace Bindings

def get? (b : Bindings) (name : Name) : Option Value := b.entries.lookup name

def set (b : Bindings) (name : Name) (v : Value) : Bindings := ⟨Assoc.put name v b.entries⟩

/-- A name that was set has its new value, and every other name what it had. -/
theorem get?_set (b : Bindings) (name other : Name) (v : Value) :
    (b.set name v).get? other = if other == name then some v else b.get? other :=
  Assoc.lookup_put name other v b.entries

end Bindings

/-- A scope and the scopes around it, from the inside out. -/
structure Environment where
  current : Bindings := {}
  enclosing : List Bindings := []
  deriving Inhabited

namespace Environment

def scopes (e : Environment) : List Bindings := e.current :: e.enclosing

def get? (e : Environment) (name : Name) : Option Value :=
  e.scopes.findSome? fun b => b.get? name

def set (e : Environment) (name : Name) (v : Value) : Environment :=
  { e with current := e.current.set name v }

/-- A new empty scope inside the current one. -/
def push (e : Environment) : Environment := ⟨{}, e.scopes⟩

/-- Back to the enclosing scope, if there is one. -/
def pop (e : Environment) : Environment :=
  match e.enclosing with
  | [] => e
  | b :: rest => ⟨b, rest⟩

theorem get?_set (e : Environment) (name other : Name) (v : Value) :
    (e.set name v).get? other = if other == name then some v else e.get? other := by
  simp only [get?, scopes, set, List.findSome?_cons, Bindings.get?_set]
  by_cases h : other == name <;> simp [h]

end Environment

end Reckoner
