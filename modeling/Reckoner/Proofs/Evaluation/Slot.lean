import Reckoner.Evaluation.Slot
import Reckoner.Proofs.Evaluation.Simulation

/-!
# What evaluations leave in slots

An evaluation that comes to a value or a diagnostic leaves a slot with that one of them
(`Outcome.slot?_settled`). One evaluation after another is the slot of the first registered in an
empty one: an error in it ends the evaluation, and otherwise it goes on with the value
(`Eval.slot?_bind`). The slot is then as empty as before (`Slot.register_eq_empty_iff`), so that
one slot serves for all passes of a loop, and its error is that of the pass that failed
(`Eval.slot?_iterate`).
-/

set_option autoImplicit false

namespace Reckoner

namespace Slot

variable {ε α β : Type}

/-- A value or an error, and not both. -/
def IsSettled (r : Slot ε α) : Prop := r.error = none ↔ r.value.isSome

/-- Registers a slot in an empty one, which ends with the error, or goes on with the value. -/
def andThen? (inner : Slot ε β) (next : β → Option (Slot ε α)) : Option (Slot ε α) :=
  let r : Slot ε α := empty.register inner
  match r.error with
  | some _ => some r
  | none => inner.value.bind next

/-- A slot may be used again if what it registered has no error. -/
theorem register_eq_empty_iff {inner : Slot ε β} :
    (empty : Slot ε α).register inner = empty ↔ inner.error = none := by
  simp [register, empty]

theorem andThen?_eq_fail {inner : Slot ε β} {next : β → Option (Slot ε α)} {e : ε}
    (h : inner.andThen? next = some (.fail e)) :
    inner.error = some e ∨ ∃ b, inner.value = some b ∧ next b = some (.fail e) := by
  unfold andThen? at h
  dsimp only at h
  split at h
  · exact .inl (congrArg Slot.error (Option.some.inj h))
  · exact .inr (Option.bind_eq_some_iff.1 h)

end Slot

/-- What an evaluation leaves, unless it comes to a fault or is not followed to its end. -/
def Outcome.slot? {α : Type} : Outcome α → Option (Slot Diagnostic α)
  | .done a => some (.succeed a)
  | .diagnosed d => some (.fail d)
  | .faulted _ | .unfinished => none

theorem Outcome.slot?_settled {α : Type} {o : Outcome α} {r : Slot Diagnostic α}
    (h : o.slot? = some r) : r.IsSettled := by
  cases o <;> cases h <;> simp [Slot.IsSettled, Slot.succeed, Slot.fail]

namespace Eval

variable {α β : Type}

/-- An evaluation that goes on from another one registers what that one left. -/
theorem slot?_bind (m : Eval β) (f : β → Eval α) (s : State) :
    ((m >>= f) s).1.slot? =
      (m s).1.slot?.bind (·.andThen? fun b => (f b (m s).2).1.slot?) := by
  show (Eval.bind m f s).1.slot? = _
  unfold Eval.bind
  rcases m s with ⟨_ | _ | _ | _, s'⟩ <;> rfl

/-- The error of a loop is that of one of its passes. -/
theorem slot?_iterate {σ : Type} {pass : σ → Eval (Option σ)} {d : Diagnostic} : ∀ {n : Nat}
    {i : σ} {s : State}, (iterate n pass i s).1.slot? = some (.fail d) →
      ∃ j s', (pass j s').1.slot? = some (.fail d)
  | 0, _, _, h => by cases h
  | n + 1, i, s, h => by
    rw [iterate_succ, slot?_bind] at h
    obtain ⟨r, hr, h⟩ := Option.bind_eq_some_iff.1 h
    rcases Slot.andThen?_eq_fail h with herror | ⟨j, -, h⟩
    · refine ⟨i, s, ?_⟩
      have hsettled := Outcome.slot?_settled hr
      obtain ⟨value, error⟩ := r
      cases herror
      cases value with
      | none => exact hr
      | some v => simp [Slot.IsSettled] at hsettled
    · cases j with
      | some j => exact slot?_iterate h
      | none => cases h

end Eval

end Reckoner
