import Reckoner.Datum

/-!
# Names

The names in a program are texts. In a stored tree any datum can stand where a name is due, and
numbers are then one name if they are equal.
-/

set_option autoImplicit false

namespace Reckoner

structure Name where
  datum : Datum
  deriving Inhabited

namespace Name

instance : Coe String Name := ⟨fun s => ⟨.text s⟩⟩

/-- The same name, unless it is `nan`, which is a new name wherever it stands. -/
def same (a b : Name) : Bool :=
  a.datum.canonical == b.datum.canonical && a.datum.canonical != .number (.float .nan)

instance : BEq Name := ⟨same⟩

theorem beq_iff (a b : Name) :
    (a == b) = true ↔ a.datum.canonical = b.datum.canonical ∧
      a.datum.canonical ≠ .number (.float .nan) := by
  show same a b = true ↔ _
  simp [same]

instance : PartialEquivBEq Name where
  symm {a b} h := by
    rw [beq_iff] at h ⊢
    exact ⟨h.1.symm, h.1 ▸ h.2⟩
  trans {a b c} h k := by
    rw [beq_iff] at h k ⊢
    exact ⟨h.1.trans k.1, h.2⟩

/-- Texts are the same name if they are equal. -/
theorem beq_text (s t : String) : ((s : Name) == (t : Name)) = (s == t) := by
  rw [Bool.eq_iff_iff, beq_iff]
  simp [Datum.canonical, Datum.plain]

/-- The written form, if there is one. -/
def text? (n : Name) : Option String := n.datum.display?

end Name

end Reckoner
