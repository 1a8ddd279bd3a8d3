import Reckoner.Evaluation.Program

/-!
# A logic of evaluation steps

`m.Ends E s Q` says how `m` ends when it is started in the state `s`: with a result and a state
of which `Q` holds, or in one of the other three ways if `E` allows it there. `m.Keeps I E A`
says that `m` keeps the invariant `I` of the state and that its results are in `A`. There is one
rule for each way in which steps are put together; a loop has an invariant that may depend on
the number of passes left. A whole evaluation ends as that of its tree, a note later. Where a
sequence has come to a result, so have its steps (`bind_eq_done`).
-/

set_option autoImplicit false

namespace Reckoner

/-- What is allowed where a step ends without a result. -/
structure Exits where
  diagnosed : Diagnostic → State → Prop
  faulted : Fault → State → Prop
  unfinished : State → Prop

namespace Eval

/-! ## Sequences -/

section

variable {α β γ : Type} {s s' : State}

theorem pure_bind (a : α) (f : α → Eval β) : (pure a >>= f) = f a := rfl

theorem bind_assoc (m : Eval α) (f : α → Eval β) (g : β → Eval γ) :
    (m >>= f >>= g) = m >>= fun a => f a >>= g := by
  funext s
  show Eval.bind (Eval.bind m f) g s = Eval.bind m (fun a => Eval.bind (f a) g) s
  unfold Eval.bind
  rcases m s with ⟨_ | _ | _ | _, s'⟩ <;> rfl

theorem bind_eq_done {m : Eval α} {f : α → Eval β} {b : β} : (m >>= f) s = (.done b, s') ↔
    ∃ a s₁, m s = (.done a, s₁) ∧ f a s₁ = (.done b, s') := by
  show Eval.bind m f s = _ ↔ _
  unfold Eval.bind
  rcases m s with ⟨a | _ | _ | _, s₁⟩
  · refine ⟨fun h => ⟨a, s₁, rfl, h⟩, ?_⟩
    rintro ⟨a', s', ha, h⟩
    cases ha
    exact h
  all_goals simp

theorem pure_eq_done {a b : α} : (pure a : Eval α) s = (.done b, s') ↔ a = b ∧ s = s' := by
  show (Outcome.done a, s) = _ ↔ _
  simp

theorem placed_eq_done {r : Except Unplaced α} {a : α} :
    placed r s = (.done a, s') ↔ r = .ok a ∧ s = s' := by
  cases r with
  | error why => simp [placed, faulted]
  | ok b => simp [placed, pure_eq_done]

end

/-! ## Ends -/

section

variable {α β σ : Type} {E : Exits} {s : State}

def Ends (m : Eval α) (E : Exits) (s : State) (Q : α → State → Prop) : Prop :=
  match m s with
  | (.done a, s) => Q a s
  | (.diagnosed d, s) => E.diagnosed d s
  | (.faulted f, s) => E.faulted f s
  | (.unfinished, s) => E.unfinished s

theorem Ends.mono {m : Eval α} {Q Q' : α → State → Prop} (h : m.Ends E s Q)
    (hQ : ∀ a s, Q a s → Q' a s) : m.Ends E s Q' := by
  unfold Ends at h ⊢
  generalize m s = x at h ⊢
  rcases x with ⟨_ | _ | _ | _, s'⟩
  · exact hQ _ _ h
  all_goals exact h

theorem Ends.bind {m : Eval α} {f : α → Eval β} {Q : β → State → Prop}
    (h : m.Ends E s fun a s => (f a).Ends E s Q) : (m >>= f).Ends E s Q := by
  show Ends (Eval.bind m f) E s Q
  unfold Ends at h ⊢
  unfold Eval.bind
  generalize m s = x at h ⊢
  rcases x with ⟨_ | _ | _ | _, s'⟩ <;> exact h

/-- A loop of at most `n` passes. `I` holds before each pass, given how many are left; `Q` holds
where the loop is over. -/
theorem Ends.iterate {pass : σ → Eval (Option σ)} {I : Nat → σ → State → Prop}
    {Q : Unit → State → Prop}
    (step : ∀ n i s, I (n + 1) i s → (pass i).Ends E s fun o s =>
      match o with
      | some i => I n i s
      | none => Q () s)
    (stuck : ∀ i s, I 0 i s → E.unfinished s) (n : Nat) :
    ∀ i s, I n i s → (iterate n pass i).Ends E s Q := by
  induction n with
  | zero => exact stuck
  | succ n ih =>
    intro i s hi
    have h := step n i s hi
    unfold Ends at h ⊢
    unfold Eval.iterate
    generalize pass i s = x at h ⊢
    rcases x with ⟨o | _ | _ | _, s'⟩
    · cases o with
      | none => exact h
      | some i => exact ih i s' h
    all_goals exact h

/-- Where the tree ends with a result or a diagnostic, a note is left to be written. -/
theorem Ends.execute {set : Settings} {t : Tree} {Q Q' : Value → State → Prop}
    (h : (t.evaluate set).Ends E { s with steps := 0 } Q)
    (done : ∀ text v s, Q v s → (note set 1 text).Ends E s fun _ s => Q' v s)
    (diagnosed : ∀ line d s, E.diagnosed d s →
      (note set 1 fun _ => some line).Ends E s fun _ s => E.diagnosed d s) :
    (Eval.execute set t).Ends E s Q' := by
  unfold Ends at h ⊢
  unfold Eval.execute
  generalize t.evaluate set { s with steps := 0 } = x at h ⊢
  rcases x with ⟨v | d | f | _, s₁⟩
  · exact (done _ v s₁ h).bind
  · exact (diagnosed _ d s₁ h).bind
  · exact h
  · exact h

/-! ## Invariants -/

def Keeps (m : Eval α) (I : State → Prop) (E : Exits) (A : α → Prop) : Prop :=
  ∀ s, I s → m.Ends E s fun a s => A a ∧ I s

variable {I : State → Prop} {A : α → Prop} {B : β → Prop}

theorem Keeps.pure {a : α} (h : A a) : (Pure.pure a : Eval α).Keeps I E A := fun _ hs => ⟨h, hs⟩

theorem Keeps.bind {m : Eval α} {f : α → Eval β} (hm : m.Keeps I E A)
    (hf : ∀ a, A a → (f a).Keeps I E B) : (m >>= f).Keeps I E B :=
  fun s hs => ((hm s hs).mono fun a s' h => hf a h.1 s' h.2).bind

theorem Keeps.diagnosed {d : Diagnostic} (h : ∀ s, I s → E.diagnosed d s) :
    (Eval.diagnosed d : Eval α).Keeps I E A := h

theorem Keeps.faulted {f : Fault} (h : ∀ s, I s → E.faulted f s) :
    (Eval.faulted f : Eval α).Keeps I E A := h

/-- Every pass but the last keeps the invariant, also where the loop is cut short. -/
theorem Keeps.iterate {C : σ → Prop} {pass : σ → Eval (Option σ)} {n : Nat} {i : σ} (hi : C i)
    (hpass : ∀ i, C i → (pass i).Keeps I E fun o => ∀ i, o = some i → C i)
    (stuck : ∀ s, I s → E.unfinished s) :
    (Eval.iterate n pass i).Keeps I E fun _ => True := by
  refine fun s hs => Ends.iterate (I := fun _ i s => C i ∧ I s) (fun _ i s h => ?_)
    (fun _ s h => stuck s h.2) n i s ⟨hi, hs⟩
  refine (hpass i h.1 s h.2).mono fun o s' h' => ?_
  cases o with
  | none => exact ⟨trivial, h'.2⟩
  | some i => exact ⟨h'.1 i rfl, h'.2⟩

end

end Eval

end Reckoner
