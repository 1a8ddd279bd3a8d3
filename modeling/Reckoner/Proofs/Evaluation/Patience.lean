import Reckoner.Proofs.Evaluation.Simulation

/-!
# Patience

Where there is no budget, patience says how many passes of one loop are followed. It decides
only whether an evaluation is given up: one that comes to an end comes to the same end whenever
there is more of it (`settles_run`).
-/

set_option autoImplicit false

namespace Reckoner

namespace Eval

/-- Where `m` comes to an end, `m'` comes to the same. -/
def Settles {α : Type} (m m' : Eval α) : Prop := ∀ s, (m s).1 = .unfinished ∨ m' s = m s

/-- Two runs are the same until the first is given up. -/
def patienceTie : Tie where
  states s s' := s = s'
  exits _ :=
    { diagnosed := fun _ _ => False
      faulted := fun _ _ => False
      unfinished := fun _ => True }

theorem settles_of_follows {α : Type} {m m' : Eval α} (h : patienceTie.Follows m m') :
    Settles m m' := by
  intro s
  have hagree := h.agrees s s rfl
  generalize m s = x at hagree ⊢
  rcases hagree with ⟨ho, hs⟩ | hstop
  · exact .inr (Prod.ext ho hs).symm
  · rcases x with ⟨a | d | f | _, s₁⟩
    · exact hstop.elim
    · exact hstop.elim
    · exact hstop.elim
    · exact .inl rfl

theorem patienceTie_same {α : Type} (m : Eval α) : patienceTie.Follows m m where
  agrees := by
    rintro s _ rfl
    exact .inl ⟨rfl, rfl⟩
  onward _ := .refl _

theorem patienceTie_restarts : patienceTie.Restarts where
  states := by
    rintro s _ rfl
    rfl
  exits _ _ := rfl
  diagnosed _ _ _ h := h

end Eval

open Eval

/-- The same settings with another patience. -/
def Settings.wait (set : Settings) (patience : Nat) : Settings := { set with patience := patience }

section

variable {set : Settings} {p : Nat}

theorem Settings.passes_le (h : set.patience ≤ p) : set.passes ≤ (set.wait p).passes := by
  unfold passes wait
  split <;> simp_all

theorem patienceTie_evaluates (h : set.patience ≤ p) (root : Tree) :
    patienceTie.Evaluates set (set.wait p) root where
  frames := rfl
  passes := set.passes_le h
  givenUp _ _ _ _ := trivial
  look t _ := by
    rintro s _ rfl
    rfl
  assign _ _ := patienceTie_same _
  note _ _ _ := patienceTie_same _
  tick _ _ _ := patienceTie_same _

theorem settles_execute (h : set.patience ≤ p) (t : Tree) :
    Settles (execute set t) (execute (set.wait p) t) :=
  settles_of_follows ((patienceTie_evaluates h t).execute patienceTie_restarts)

theorem settles_run (h : set.patience ≤ p) (file text : String) :
    Settles (Eval.run set file text) (Eval.run (set.wait p) file text) :=
  settles_of_follows (Tie.Evaluates.run (patienceTie_evaluates h) patienceTie_restarts file text)

end

end Reckoner
