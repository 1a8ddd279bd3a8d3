import Reckoner.Proofs.Session

/-!
# Runs stage by stage

A run of a text that has a tree is an evaluation of that tree; any other run ends as its refusal
says and leaves the state as it was. Both hold at every verbosity, up to the lines that the
stages before have written (`run_of_tree`, `run_of_refused`).
-/

set_option autoImplicit false

namespace Reckoner

/-- How a run ends whose text is refused. -/
def Source.Refusal.outcome {α : Type} (e : Source.Refusal) : Outcome α :=
  match e.diagnostic? with
  | some d => .diagnosed d
  | none => .faulted e.fault

namespace Eval

variable {file text : String}

/-- A line with a text is written, or left out; nothing else happens. -/
theorem note_some {α : Type} (set : Settings) (level : Nat) (line : String) (m : Eval α)
    (s : State) : ∃ trace, (note set level (fun _ => some line) >>= fun _ => m) s =
      m { s with trace := trace } ∧ (set.verbosity < level → trace = s.trace) := by
  unfold note
  by_cases h : level ≤ set.verbosity
  · refine ⟨s.trace.push ⟨level, line⟩, ?_, fun hlt => absurd h (Nat.not_le.2 hlt)⟩
    rw [if_pos h]
    rfl
  · refine ⟨s.trace, ?_, fun _ => rfl⟩
    rw [if_neg h]
    rfl

theorem refuse_eq (set : Settings) (file stage : String) (e : Source.Refusal) (s : State) :
    ∃ trace, refuse set file stage e s = (e.outcome, { s with trace := trace }) ∧
      (set.verbosity = 0 → trace = s.trace) := by
  unfold refuse Source.Refusal.outcome
  cases e.diagnostic? with
  | none => exact ⟨s.trace, rfl, fun _ => rfl⟩
  | some d =>
    obtain ⟨trace, h, hquiet⟩ := note_some set 1
      (file ++ ": " ++ stage ++ " error: " ++ d.details) (diagnosed d) s
    exact ⟨trace, h, fun hv => hquiet (by omega)⟩

/-- The tree of a text decides its run. -/
theorem run_of_tree (set : Settings) {t : Tree} (h : Source.tree file text = .ok t) (s : State) :
    ∃ trace, run set file text s = execute set t { s with trace := trace } ∧
      (set.verbosity = 0 → trace = s.trace) := by
  unfold Source.tree at h
  unfold run
  cases htokens : Source.tokens file text with
  | error e => rw [htokens] at h; cases h
  | ok tokens =>
    rw [htokens] at h
    have htree : Source.treeOfTokens tokens = .ok t := h
    simp only [htree]
    obtain ⟨trace, hscan, hquiet⟩ := note_some set 1
      (file ++ ": " ++ toString tokens.length ++ " tokens")
      (note set 1 (fun _ => some (file ++ ": parsed " ++ t.form)) >>= fun _ => execute set t) s
    obtain ⟨trace', hparse, hquiet'⟩ := note_some set 1 (file ++ ": parsed " ++ t.form)
      (execute set t) { s with trace := trace }
    refine ⟨trace', hscan.trans hparse, fun hv => ?_⟩
    exact (hquiet' (by omega)).trans (hquiet (by omega))

/-- A text without a tree is not evaluated. -/
theorem run_of_refused (set : Settings) {e : Source.Refusal}
    (h : Source.tree file text = .error e) (s : State) :
    ∃ trace, run set file text s = (e.outcome, { s with trace := trace }) ∧
      (set.verbosity = 0 → trace = s.trace) := by
  unfold Source.tree at h
  unfold run
  cases htokens : Source.tokens file text with
  | error e' =>
    rw [htokens] at h
    cases h
    exact refuse_eq set file "lexer" e s
  | ok tokens =>
    rw [htokens] at h
    have htree : Source.treeOfTokens tokens = .error e := h
    simp only [htree]
    obtain ⟨trace, hscan, hquiet⟩ := note_some set 1
      (file ++ ": " ++ toString tokens.length ++ " tokens") (refuse set file "syntax" e) s
    obtain ⟨trace', hrefuse, hquiet'⟩ := refuse_eq set file "syntax" e { s with trace := trace }
    exact ⟨trace', hscan.trans hrefuse, fun hv => (hquiet' hv).trans (hquiet (by omega))⟩

end Eval

namespace Session

variable {file text : String}

theorem run_of_tree (s : Session) (patience : Nat) {t : Tree}
    (h : Source.tree file text = .ok t) :
    ∃ start : State, start.environment = s.environment ∧
      let x := Eval.execute (s.settings patience) t start
      s.run patience file text =
        (⟨x.1, x.2.trace⟩, { s with environment := x.2.environment, steps := x.2.steps }) := by
  obtain ⟨trace, hrun, -⟩ := Eval.run_of_tree (s.settings patience) h s.start
  refine ⟨{ s.start with trace := trace }, rfl, ?_⟩
  rw [run, perform_eq]
  dsimp only
  rw [hrun]

/-- Without a trace, a run of a text that has a tree is the evaluation of that. -/
theorem run_quiet {s : Session} (hv : s.verbosity = 0) {t : Tree}
    (h : Source.tree file text = .ok t) (patience : Nat) :
    s.run patience file text = s.execute patience t := by
  obtain ⟨trace, hrun, hquiet⟩ := Eval.run_of_tree (s.settings patience) h s.start
  rw [hquiet hv] at hrun
  rw [run, execute, perform_eq, perform_eq, hrun]

theorem run_of_refused (s : Session) (patience : Nat) {e : Source.Refusal}
    (h : Source.tree file text = .error e) :
    (s.run patience file text).1.outcome = e.outcome ∧ (s.run patience file text).2 = s := by
  obtain ⟨trace, hrun, -⟩ := Eval.run_of_refused (s.settings patience) h s.start
  rw [run, perform_eq]
  dsimp only
  rw [hrun]
  exact ⟨rfl, rfl⟩

end Session

end Reckoner
