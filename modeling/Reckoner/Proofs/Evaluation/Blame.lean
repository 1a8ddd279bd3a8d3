import Reckoner.Proofs.Evaluation.Invariant
import Reckoner.Proofs.Evaluation.Program
import Reckoner.Proofs.Source
import Reckoner.Proofs.Tree.Walk

/-!
# What diagnostics point at

Whatever the environment holds, and wherever its values came from, a diagnostic of a run is about
the text that is run (`Session.run_points_into`). One that arose while evaluating is about the part
of the tree that is responsible for it: its span is never that of a value.
-/

set_option autoImplicit false

namespace Reckoner

/-- What a diagnostic is about is a part of the tree, if it is there at all. -/
theorem Tree.Responsible.mem_nodes {root u : Tree} {kind : Diagnostic.Kind}
    (h : root.Responsible kind u) (hne : u ≠ .absent) : u ∈ root.nodes := by
  cases h with
  | unbound h | loop h => exact h
  | bound h hu =>
    refine Tree.child_mem_nodes h ?_ hne
    simp only [List.mem_cons, List.not_mem_nil, or_false] at hu
    rcases hu with rfl | rfl | rfl <;> simp [Tree.children]
  | divisor h | operand h | left h | right h =>
    exact Tree.child_mem_nodes h (by simp [Tree.children]) hne

theorem Tree.ne_absent_of_ends {u : Tree} {ends : Position × Position} (h : u.ends? = .ok ends) :
    u ≠ .absent := by
  rintro rfl
  cases h

namespace Eval

theorem invariant_true (root : Tree) : Invariant (fun _ => True) root :=
  ⟨fun _ _ _ _ _ => trivial, fun _ _ _ => trivial, fun _ _ => trivial⟩

end Eval

namespace Session

/-- A diagnostic of a run is about the text that is run. If it arose while evaluating, it did so in
the outermost frame and is about a part of the tree of this text. -/
theorem run_inside (s : Session) (patience : Nat) (file text : String) {d : Diagnostic}
    (h : (s.run patience file text).1.outcome = .diagnosed d) :
    d.PointsInto file text ∧ (d.kind.isRuntime = true → d.frames = (s.settings patience).frames ∧
      ∃ t u, Source.tree file text = .ok t ∧ u ∈ t.nodes ∧ t.Responsible d.kind u ∧
        u.ends? = .ok (d.start, d.stop)) := by
  cases htree : Source.tree file text with
  | error e =>
    rw [(run_of_refused s patience htree).1] at h
    have hd : e.diagnostic? = some d := by
      unfold Source.Refusal.outcome at h
      split at h
      · next d' hd' => rw [hd', Outcome.diagnosed.inj h]
      · cases h
    obtain ⟨hstatic, hpoints⟩ := Source.refusal_inside htree hd
    exact ⟨hpoints, fun hruntime => by rw [hstatic] at hruntime; cases hruntime⟩
  | ok t =>
    obtain ⟨start, -, hrun⟩ := run_of_tree s patience htree
    rw [hrun] at h
    obtain ⟨⟨u, hu, hends⟩, hframes⟩ :=
      ((Eval.invariant_true t).execute_ends (s.settings patience) trivial).2 d h
    have hmem := hu.mem_nodes (Tree.ne_absent_of_ends hends)
    obtain ⟨i, j, hplace, hinside⟩ := Source.ends_inside htree hmem
    obtain ⟨hstart, hstop⟩ := Prod.mk.inj (Except.ok.inj (hplace.symm.trans hends))
    refine ⟨.of_place hstart.symm ?_ ?_ (.inl hinside),
      fun _ => ⟨hframes, t, u, rfl, hmem, hu, hends⟩⟩
    · exact (congrArg Position.file hstop).symm
    · exact (congrArg Position.index hstop).symm

/-- Every diagnostic of a run names the file of the run, starts on line one and is about some
characters of the text, unless it is the one that the text ends too early. If it arose while
evaluating, it reaches over the part of the tree of this text that is responsible for it: the
right operand of a quotient or a power, an identifier, an operand or a bound, or a loop. -/
theorem run_points_into (s : Session) (patience : Nat) (file text : String) {d : Diagnostic}
    (h : (s.run patience file text).1.outcome = .diagnosed d) :
    d.PointsInto file text ∧ Diagnostic.lineNumber d.start = "1" ∧
      (d.kind.isRuntime = true → ∃ t u, Source.tree file text = .ok t ∧ u ∈ t.nodes ∧
        t.Responsible d.kind u ∧ u.ends? = .ok (d.start, d.stop)) := by
  obtain ⟨hpoints, hruntime⟩ := run_inside s patience file text h
  refine ⟨hpoints, ?_, fun hr => (hruntime hr).2⟩
  rw [Diagnostic.lineNumber, hpoints.line]
  rfl

/-- A zero that was bound by another file is divided by: the diagnostic is about the name here. -/
theorem stale_points_into :
    let zero := Value.datum (.number (.int 0)) ⟨some (.first "other"), some (.first "other")⟩
    let s : Session := { environment := ({} : Environment).set "b" zero }
    let d : Diagnostic :=
      { kind := .divisionByZero, start := ⟨4, 0, 4, "<stdin>"⟩, stop := ⟨5, 0, 5, "<stdin>"⟩
        frames := [{ name := "<program>" }] }
    (s.run 0 "<stdin>" "1 / b").1.outcome = .diagnosed d ∧ d.PointsInto "<stdin>" "1 / b" ∧
      ∃ t u, Source.tree "<stdin>" "1 / b" = .ok t ∧ u ∈ t.nodes ∧
        t.Responsible .divisionByZero u ∧ u.ends? = .ok (d.start, d.stop) := by
  intro zero s d
  have h : (s.run 0 "<stdin>" "1 / b").1.outcome = .diagnosed d := by decide +kernel
  obtain ⟨hpoints, -, hresponsible⟩ := run_points_into s 0 "<stdin>" "1 / b" h
  exact ⟨h, hpoints, hresponsible rfl⟩

end Session

end Reckoner
