import Reckoner.Proofs.Evaluation.Invariant
import Reckoner.Proofs.Evaluation.Program
import Reckoner.Proofs.Source

/-!
# What a run may change

However a run ends, it leaves the enclosing scopes alone, unbinds no name, and binds in the
current scope only names that its tree assigns or counts with; a run that is refused leaves the
session as it was (`Session.run_footprint`).
-/

set_option autoImplicit false

namespace Reckoner

/-! ## Footprints -/

/-- From `e` to `e'` nothing was changed but bindings of the names in the current scope. -/
structure Environment.Footprint (names : List Name) (e e' : Environment) : Prop where
  enclosing : e'.enclosing = e.enclosing
  bound : ∀ name, (e.current.get? name).isSome = true → (e'.current.get? name).isSome = true
  changed : ∀ name, e'.current.get? name ≠ e.current.get? name → ∃ n ∈ names, (name == n) = true

namespace Environment.Footprint

variable {names : List Name} {e e' : Environment}

theorem refl (names : List Name) (e : Environment) : Footprint names e e :=
  ⟨rfl, fun _ h => h, fun _ h => absurd rfl h⟩

theorem set (h : Footprint names e e') {name : Name} (hn : name ∈ names) (v : Value) :
    Footprint names e (e'.set name v) where
  enclosing := h.enclosing
  bound other ho := by
    simp only [Environment.set, Bindings.get?_set]
    split
    · rfl
    · exact h.bound other ho
  changed other ho := by
    simp only [Environment.set, Bindings.get?_set] at ho
    by_cases hsame : other == name
    · exact ⟨name, hn, hsame⟩
    · rw [if_neg hsame] at ho
      exact h.changed other ho

end Environment.Footprint

namespace Eval

/-- Evaluating a tree changes only bindings of the names that the tree binds. -/
theorem invariant_footprint (e : Environment) (root : Tree) :
    Invariant (fun s => e.Footprint root.targets s.environment) root where
  binds _ hn v _ hs := hs.set hn v
  notes _ _ hs := hs
  counts _ hs := hs

end Eval

/-! ## Names of programs -/

/-- Only the text itself is the same name as a text. -/
theorem Name.eq_of_beq_text {name : Name} {s : String} (h : (name == (s : Name)) = true) :
    name = (s : Name) := by
  have hd := ((beq_iff _ _).1 h).1
  obtain ⟨d⟩ := name
  cases d with
  | number n => cases hd
  | text t => exact congrArg Name.mk hd
  | bool b => cases hd
  | blank => cases hd

/-- The names that a program binds are texts. -/
theorem Tree.Regular.targets_text {t : Tree} (h : t.Regular Token.Sound) :
    ∀ name ∈ t.targets, ∃ s : String, name = (s : Name) := by
  intro name hname
  obtain ⟨u, hu, hname⟩ := List.mem_filterMap.1 hname
  have hreg := Tree.Regular.nodes h u hu
  cases u with
  | assign target value | forLoop target first last stride body =>
    cases hname
    obtain ⟨s, hs⟩ := hreg.1.2.name hreg.1.1
    exact ⟨s, congrArg Name.mk hs⟩
  | _ => cases hname

/-! ## Runs -/

namespace Session

/-- However a run ends, the enclosing scopes are as before, every name bound in the current scope
is still bound there, and a binding there has changed only if the text has a tree in which that
name is assigned or counted with. Where the text is refused, the whole session is as before. -/
theorem run_footprint (s : Session) (patience : Nat) (file text : String) :
    let r := s.run patience file text
    r.2.environment.enclosing = s.environment.enclosing ∧
      (∀ name, (s.environment.current.get? name).isSome = true →
        (r.2.environment.current.get? name).isSome = true) ∧
      (∀ name, r.2.environment.current.get? name ≠ s.environment.current.get? name →
        ∃ t, Source.tree file text = .ok t ∧ name ∈ t.targets) ∧
      ∀ d, r.1.outcome = .diagnosed d → d.kind.isRuntime = false → r.2 = s := by
  intro r
  cases htree : Source.tree file text with
  | error e =>
    have hr : r.2 = s := (run_of_refused s patience htree).2
    rw [hr]
    exact ⟨rfl, fun _ h => h, fun _ h => absurd rfl h, fun _ _ _ => rfl⟩
  | ok t =>
    obtain ⟨start, hstart, hrun⟩ := run_of_tree s patience htree
    have hr : r = _ := hrun
    have hrefl : s.environment.Footprint t.targets start.environment := hstart ▸ .refl _ _
    obtain ⟨hfoot, hblames⟩ := (Eval.invariant_footprint s.environment t).execute
      (s.settings patience) (s := start) hrefl
    rw [hr]
    refine ⟨hfoot.enclosing, hfoot.bound, fun name hname => ⟨t, rfl, ?_⟩, fun d hd hkind => ?_⟩
    · obtain ⟨target, htarget, hsame⟩ := hfoot.changed name hname
      obtain ⟨x, rfl⟩ := (Source.regular htree).targets_text target htarget
      rwa [Name.eq_of_beq_text hsame]
    · obtain ⟨u, hu, -⟩ := hblames d hd
      rw [hu.isRuntime] at hkind
      cases hkind

/-- A scope that binds `a`, inside one that binds `b`. -/
def nested : Session :=
  let number n := Value.datum (.number (.int n)) .unknown
  let outer : Bindings := ({} : Bindings).set "b" (number 2)
  { environment := (Environment.mk {} [outer]).set "a" (number 1), steps := 7 }

/-- The assignment to `b` comes before the division by zero and stays in the inner scope; a text
without an operand changes nothing. -/
theorem nested_footprint :
    let r := nested.run 0 "<stdin>" "VAR a = (VAR b = 3) / 0"
    r.2.environment.enclosing = nested.environment.enclosing ∧
      (r.2.environment.current.get? "a").isSome = true ∧
      (∃ t, Source.tree "<stdin>" "VAR a = (VAR b = 3) / 0" = .ok t ∧ ("b" : Name) ∈ t.targets) ∧
      (nested.run 0 "<stdin>" "VAR a = 3 +").2 = nested := by
  have ha : (nested.environment.current.get? "a").isSome = true := by decide +kernel
  have hb : (nested.run 0 "<stdin>" "VAR a = (VAR b = 3) / 0").2.environment.current.get? "b" ≠
      nested.environment.current.get? "b" := by decide +kernel
  have hsyntax : (nested.run 0 "<stdin>" "VAR a = 3 +").1.outcome = .diagnosed
      { kind := .invalidSyntax, start := ⟨11, 0, 11, "<stdin>"⟩, stop := ⟨12, 0, 12, "<stdin>"⟩
        details := Grammar.Expectation.atom.details } := by decide +kernel
  obtain ⟨henclosing, hbound, hchanged, -⟩ :=
    run_footprint nested 0 "<stdin>" "VAR a = (VAR b = 3) / 0"
  obtain ⟨-, -, -, hrefused⟩ := run_footprint nested 0 "<stdin>" "VAR a = 3 +"
  exact ⟨henclosing, hbound "a" ha, hchanged "b" hb, hrefused _ hsyntax rfl⟩

end Session

end Reckoner
