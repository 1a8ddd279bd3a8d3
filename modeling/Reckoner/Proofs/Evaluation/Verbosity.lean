import Reckoner.Proofs.Evaluation.Simulation
import Reckoner.Proofs.Session

/-!
# Evaluation at two verbosities

Nothing that a run does depends on its trace. At a greater verbosity it comes to the same, with
the same bindings and passes, and its trace has only lines added; the one thing that can go wrong
is a line with an integer too long to be written (`Session.run_verbosity`). The two runs are kept
side by side by a tie in which the trace of the one is a part of that of the other.
-/

set_option autoImplicit false

namespace Reckoner

namespace Eval

/-- The run that may write more goes with the one at verbosity `d` up to the lines that only it
writes, and stops early only where one of these has no text. -/
def traceTie (d : Nat) : Tie where
  states s s' := s.environment = s'.environment ∧ s.steps = s'.steps ∧
    s'.trace.toList = s.trace.toList.filter (·.level ≤ d)
  exits _ :=
    { diagnosed := fun _ _ => False
      faulted := fun f _ => f = .oversizedInteger
      unfinished := fun _ => False }

variable {d : Nat} {set set' : Settings}

theorem traceTie_note (h : set'.verbosity = d) (hd : d ≤ set.verbosity) (level : Nat)
    (text : Unit → Option String) :
    (traceTie d).Follows (note set level text) (note set' level text) := by
  subst h
  refine ⟨?_, fun _ => .refl _⟩
  rintro s s' ⟨henv, hsteps, htrace⟩
  unfold note
  by_cases hl : level ≤ set.verbosity
  · rw [if_pos hl]
    cases htext : text () with
    | none => exact .inr rfl
    | some line =>
      -- the line is written by both runs or is not kept by the filter
      by_cases hl' : level ≤ set'.verbosity
      · rw [if_pos hl']
        refine .inl ⟨rfl, henv, hsteps, ?_⟩
        simp [htrace, hl']
      · rw [if_neg hl']
        refine .inl ⟨rfl, henv, hsteps, ?_⟩
        show s'.trace.toList = _
        simp [htrace, hl']
  · rw [if_neg hl, if_neg (by omega)]
    exact .inl ⟨rfl, henv, hsteps, htrace⟩

theorem traceTie_evaluates (hd : set'.verbosity = d) (hle : d ≤ set.verbosity)
    (hf : set.frames = set'.frames) (hb : set.budget = set'.budget)
    (hp : set.passes = set'.passes) (root : Tree) : (traceTie d).Evaluates set set' root where
  frames := hf
  passes := Nat.le_of_eq hp
  givenUp h := absurd hp (Nat.ne_of_lt h)
  look t _ := by
    rintro s s' ⟨henv, -⟩
    rw [henv]
  assign name v := by
    refine ⟨?_, fun _ => .refl _⟩
    rintro s s' ⟨henv, hrest⟩
    exact .inl ⟨rfl, congrArg (·.set name v) henv, hrest⟩
  note level text _ := traceTie_note hd hle level text
  tick t _ _ := by
    rw [tick_settings hf hb]
    refine .tick ?_ (fun _ => .refl _) _ _
    rintro s s' ⟨henv, hsteps, htrace⟩
    exact ⟨hsteps, henv, congrArg (· + 1) hsteps, htrace⟩

theorem traceTie_restarts : (traceTie d).Restarts where
  states := by
    rintro s s' ⟨henv, -, htrace⟩
    exact ⟨henv, rfl, htrace⟩
  exits _ _ := rfl
  diagnosed _ _ _ h := h

/-- A run that writes no trace goes with itself, and has none. -/
def quietTie : Tie where
  states s s' := s = s' ∧ s.trace = #[]
  exits _ :=
    { diagnosed := fun _ _ => False
      faulted := fun _ _ => False
      unfinished := fun _ => False }

theorem quietTie_evaluates (h : set.verbosity = 0) (root : Tree) :
    quietTie.Evaluates set set root where
  frames := rfl
  passes := Nat.le_refl _
  givenUp h := absurd h (Nat.lt_irrefl _)
  look t _ := by
    rintro s _ ⟨rfl, -⟩
    rfl
  assign name v := by
    refine ⟨?_, fun _ => .refl _⟩
    rintro s _ ⟨rfl, htrace⟩
    exact .inl ⟨rfl, rfl, htrace⟩
  note level text hl := by
    rw [note_quiet h hl]
    exact .pure ()
  tick t _ _ := by
    refine .tick ?_ (fun _ => .refl _) _ _
    rintro s _ ⟨rfl, htrace⟩
    exact ⟨rfl, rfl, htrace⟩

theorem quietTie_restarts : quietTie.Restarts where
  states := by
    rintro s _ ⟨rfl, htrace⟩
    exact ⟨rfl, htrace⟩
  exits _ _ := rfl
  diagnosed _ _ _ h := h

theorem trace_of_quietTie {α : Type} {m : Eval α} (h : quietTie.Follows m m) {s : State}
    (hs : s.trace = #[]) : (m s).2.trace = #[] := by
  have hagree := h.agrees s s ⟨rfl, hs⟩
  generalize m s = x at hagree ⊢
  rcases hagree with ⟨-, -, htrace⟩ | hstop
  · exact htrace
  · rcases x with ⟨a | d | f | _, s₁⟩ <;> exact hstop.elim

end Eval

/-! ## Sessions -/

namespace Session

/-- The session with another verbosity. -/
def withVerbosity (s : Session) (level : Nat) : Session := { s with verbosity := level }

variable {s : Session}

/-- At verbosity zero nothing is written. -/
theorem run_trace (hv : s.verbosity = 0) (p : Nat) (file text : String) :
    (s.run p file text).1.trace = #[] := by
  have hquiet : ∀ t, Eval.quietTie.Evaluates (s.settings p) (s.settings p) t :=
    Eval.quietTie_evaluates hv
  exact Eval.trace_of_quietTie (Eval.Tie.Evaluates.run hquiet Eval.quietTie_restarts file text) rfl

/-- In a numeric environment nothing goes wrong but that an integer is too long. -/
theorem run_fault (hv : s.verbosity = 0) (hb : s.budget.Writable) (he : s.environment.Numeric)
    {p : Nat} {file text : String} {f : Fault}
    (hf : (s.run p file text).1.outcome = .faulted f) : f = .oversizedInteger := by
  have hset : (s.settings p).Plain := ⟨hv, hb⟩
  rw [run, perform_eq] at hf
  rcases Eval.run_outcomes hset.quiet file text with ⟨-, ho⟩ | ⟨d, hd⟩ | ⟨t, hreg, htree⟩
  · rw [ho] at hf
    cases hf
    rfl
  · rw [hd] at hf
    cases hf
  · rw [htree] at hf
    rcases ((Eval.execute_safe hset hreg).outcome (s := s.start) he).2 with
      ⟨v, hv, -⟩ | ⟨d, hd⟩ | hu
    · cases hv.symm.trans hf
    · cases hd.symm.trans hf
    · cases hu.symm.trans hf

/-- The run at the greater verbosity meets a line that cannot be written, or it differs from the
other one in its trace alone. -/
theorem run_levels (s : Session) (p : Nat) (file text : String) {d e : Nat} (h : d ≤ e) :
    ((s.withVerbosity e).run p file text).1.outcome = .faulted .oversizedInteger ∨
      (Alike ((s.withVerbosity e).run p file text) ((s.withVerbosity d).run p file text) ∧
        ((s.withVerbosity d).run p file text).1.trace.toList =
          ((s.withVerbosity e).run p file text).1.trace.toList.filter (·.level ≤ d)) := by
  have hlevels : ∀ t, (Eval.traceTie d).Evaluates ((s.withVerbosity e).settings p)
      ((s.withVerbosity d).settings p) t :=
    Eval.traceTie_evaluates rfl h rfl rfl rfl
  have hfollows := Eval.Tie.Evaluates.run hlevels Eval.traceTie_restarts file text
  have hagree := hfollows.agrees s.start s.start ⟨rfl, rfl, rfl⟩
  rw [run, run, perform_eq, perform_eq]
  have hstart : ∀ v, (s.withVerbosity v).start = s.start := fun _ => rfl
  rw [hstart, hstart]
  generalize Eval.run ((s.withVerbosity e).settings p) file text s.start = x at hagree ⊢
  generalize Eval.run ((s.withVerbosity d).settings p) file text s.start = x' at hagree ⊢
  rcases hagree with ⟨ho, henv, hsteps, htrace⟩ | hstop
  · exact .inr ⟨⟨ho, henv, hsteps⟩, htrace⟩
  · left
    rcases x with ⟨v | d | f | _, s₁⟩
    · exact hstop.elim
    · exact hstop.elim
    · exact congrArg Outcome.faulted hstop
    · exact hstop.elim

/-- A run comes to the same at every verbosity, except that writing its trace can meet an integer
that is too long: it ends the same way, leaves the same bindings and counts as many passes. At
the lesser verbosity its trace has the lines of the greater one that are for this verbosity, in
the same order. In a numeric environment no other fault arises. -/
theorem run_verbosity (s : Session) (p : Nat) (file text : String) {d e : Nat} (h : d ≤ e) :
    let atLevel v := (s.withVerbosity v).run p file text
    ((atLevel e).1.outcome = .faulted .oversizedInteger ∨
      (Alike (atLevel e) (atLevel d) ∧
        (atLevel d).1.trace.toList = (atLevel e).1.trace.toList.filter (·.level ≤ d))) ∧
    (s.environment.Numeric → s.budget.Writable → ∀ f,
      (atLevel e).1.outcome = .faulted f → f = .oversizedInteger) := by
  intro atLevel
  refine ⟨run_levels s p file text h, fun he hb f hf => ?_⟩
  rcases run_levels s p file text (Nat.zero_le e) with ho | ⟨hsame, -⟩
  · cases ho.symm.trans hf
    rfl
  · exact run_fault (s := s.withVerbosity 0) rfl hb he (hsame.outcome.symm.trans hf)

/-- An assignment writes four lines at verbosity two, of which the one that tells the new binding
is missing at verbosity one. -/
theorem assignment_verbosity :
    let atLevel v := (Session.withVerbosity {} v).run 0 "<stdin>" "VAR a = 2"
    Alike (atLevel 2) (atLevel 1) ∧
      (atLevel 1).1.trace.toList = (atLevel 2).1.trace.toList.filter (·.level ≤ 1) ∧
      (atLevel 2).1.trace.toList.map (·.level) = [1, 1, 2, 1] ∧
      ∀ f, (atLevel 2).1.outcome = .faulted f → f = .oversizedInteger := by
  have hwritten : ((Session.withVerbosity {} 2).run 0 "<stdin>" "VAR a = 2").1.outcome ≠
      .faulted .oversizedInteger := by decide +kernel
  have hlines : ((Session.withVerbosity {} 2).run 0 "<stdin>" "VAR a = 2").1.trace.toList.map
      (·.level) = [1, 1, 2, 1] := by decide +kernel
  have h := run_verbosity {} 0 "<stdin>" "VAR a = 2" (d := 1) (e := 2) (by decide)
  dsimp only at h ⊢
  obtain ⟨hlevels, hfault⟩ := h
  obtain ⟨halike, htrace⟩ := hlevels.resolve_left hwritten
  exact ⟨halike, htrace, hlines, hfault Environment.numeric_empty trivial⟩

end Session

end Reckoner
