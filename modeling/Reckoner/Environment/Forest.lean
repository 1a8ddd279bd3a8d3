import Reckoner.Environment.Basic

/-!
# Forests of scopes

Scopes that are created one after the other, each with no parent or an earlier one, form a
forest. Scopes are known by their place in the order of creation, and the path from a scope to
its root is an environment.
-/

set_option autoImplicit false

namespace Reckoner

structure Scope where
  parent : Option Nat
  bindings : Bindings := {}

/-- A parent is older than its children. -/
structure Forest where
  scopes : Array Scope := #[]
  older : ∀ i : Nat, ∀ s ∈ scopes[i]?, ∀ p ∈ s.parent, p < i := by simp

namespace Forest

/-- The bindings from scope `i` out to its root. -/
def path (f : Forest) (i : Nat) : List Bindings :=
  match h : f.scopes[i]? with
  | none => []
  | some s =>
    match hp : s.parent with
    | none => [s.bindings]
    | some p =>
      have : p < i := f.older i s (by simp [h]) p (by simp [hp])
      s.bindings :: f.path p
termination_by i

def get? (f : Forest) (i : Nat) (name : Name) : Option Value :=
  (f.path i).findSome? fun b => b.get? name

/-- A new empty scope; a parent that does not exist counts as none. -/
def create (f : Forest) (parent : Option Nat) : Forest where
  scopes := f.scopes.push ⟨parent.filter (· < f.scopes.size), {}⟩
  older := by
    intro i s hs p hp
    rw [Option.mem_def, Array.getElem?_push] at hs
    split at hs
    · next h =>
      cases hs
      simp only [Option.mem_def, Option.filter_eq_some_iff] at hp
      simpa [h] using hp.2
    · exact f.older i s hs p hp

/-- Binds a name in scope `i`. -/
def set (f : Forest) (i : Nat) (name : Name) (v : Value) : Forest where
  scopes := f.scopes.modify i fun s => { s with bindings := s.bindings.set name v }
  older := by
    intro j s hs p hp
    rw [Option.mem_def, Array.getElem?_modify] at hs
    split at hs
    · obtain ⟨t, ht, rfl⟩ := Option.map_eq_some_iff.1 hs
      exact f.older j t ht p hp
    · exact f.older j s hs p hp

def bindings (f : Forest) (i : Nat) : Bindings :=
  match f.scopes[i]? with
  | some s => s.bindings
  | none => {}

end Forest

end Reckoner
