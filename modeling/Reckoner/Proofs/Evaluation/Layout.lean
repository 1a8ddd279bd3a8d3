import Reckoner.Proofs.Evaluation.Move
import Reckoner.Proofs.Evaluation.Program
import Reckoner.Proofs.Grammar.Move
import Reckoner.Proofs.Source

/-!
# Runs and layout

What a run comes to, positions aside, is decided by the kinds and data of the tokens that the
text is scanned to (`Session.run_layout`). Two texts that differ in spacing, or in how they spell
equal literals, are parsed to trees equal up to positions, or refused with the same details after
as many tokens. Each of the two runs is carried to the run of the tree without positions, so they
need not be compared with one another.
-/

set_option autoImplicit false

namespace Reckoner

/-! ## Tokens without places -/

/-- What a token says, wherever it stands. -/
def Token.content (t : Token) : Kind × Datum := (t.kind, t.value)

theorem Token.Located.span_move {t : Token} (h : t.Located) (p : Position) :
    t.span.move (fun _ => p) = ⟨some p, some p⟩ := by
  obtain ⟨start, stop, hstart, hstop⟩ := h.ends
  rw [Span.move, hstart, hstop]
  rfl

theorem Token.Located.bare_eq {t t' : Token} (h : t.Located) (h' : t'.Located)
    (hcontent : t.content = t'.content) : t.bare = t'.bare := by
  obtain ⟨hkind, hvalue⟩ := Prod.mk.inj hcontent
  have hspan := (h.span_move (.first "")).trans (h'.span_move (.first "")).symm
  unfold Token.bare Token.move
  congr

namespace Grammar

theorem map_bare_eq {ts ts' : List Token} (h : ∀ t ∈ ts, t.Located) (h' : ∀ t ∈ ts', t.Located)
    (hcontents : ts.map Token.content = ts'.map Token.content) :
    ts.map Token.bare = ts'.map Token.bare := by
  induction ts generalizing ts' with
  | nil =>
    obtain rfl := List.map_eq_nil_iff.1 hcontents.symm
    rfl
  | cons t ts ih =>
    obtain ⟨t', ts', rfl, ht, hts⟩ := List.map_eq_cons_iff.1 hcontents.symm
    rw [List.forall_mem_cons] at h h'
    rw [List.map_cons, List.map_cons, h.1.bare_eq h'.1 ht.symm, ih h.2 h'.2 hts.symm]

/-! ## Parsing without places -/

/-- Tokens that say the same are parsed to trees equal up to positions, or they are refused with
the same expectation after as many tokens. -/
theorem Closed.parsed_alike {ts ts' : List Token} (h : Closed ts) (h' : Closed ts')
    (hcontents : ts.map Token.content = ts'.map Token.content) :
    (∃ t t', Accepts ts t ∧ Accepts ts' t' ∧ t.bare = t'.bare) ∨
      ∃ e e' k, Rejects ts e k ∧ Rejects ts' e' k ∧ e.expected = e'.expected := by
  have hbare := map_bare_eq h.located h'.located hcontents
  rcases h.accepts_or_rejects with ⟨t, ht⟩ | ⟨e, k, he⟩ <;>
    rcases h'.accepts_or_rejects with ⟨t', ht'⟩ | ⟨e', k', he'⟩
  · have hmoved : Accepts (ts'.map Token.bare) t.bare := hbare ▸ ht.move _
    exact .inl ⟨t, t', ht, ht', hmoved.unique (ht'.move _)⟩
  · have hmoved : Accepts (ts'.map Token.bare) t.bare := hbare ▸ ht.move _
    exact absurd (he'.move _) hmoved.not_rejects
  · have hmoved : Rejects (ts'.map Token.bare) (e.move _) k := hbare ▸ he.move _
    exact absurd hmoved (ht'.move _).not_rejects
  · have hmoved : Rejects (ts'.map Token.bare) (e.move _) k := hbare ▸ he.move _
    obtain ⟨hfailure, rfl⟩ := hmoved.unique (he'.move _)
    exact .inr ⟨e, e', k, he, he', (Failure.mk.inj hfailure).1⟩

end Grammar

/-! ## Results without places -/

/-- The diagnostic with its positions replaced by one that says nothing. -/
def Diagnostic.bare (d : Diagnostic) : Diagnostic := d.move fun _ => .first ""

/-- What a run came to, positions aside. -/
def Outcome.bare : Outcome Value → Outcome Value
  | .done v => .done v.bare
  | .diagnosed d => .diagnosed d.bare
  | .faulted e => .faulted e
  | .unfinished => .unfinished

theorem Outcome.Moved.bare_eq {f : Position → Position} {o o' : Outcome Value}
    (h : o.Moved f (fun v v' => v' = v.move f) o') : o.bare = o'.bare := by
  cases h with
  | done h => rw [h, Outcome.bare, Outcome.bare, Value.bare_move]
  | diagnosed d => rfl
  | faulted e => rfl
  | unfinished => rfl

theorem Grammar.Failure.diagnostic_bare {e e' : Failure} (h : e.expected = e'.expected) :
    e.diagnostic.bare = e'.diagnostic.bare := by
  unfold Failure.diagnostic Diagnostic.bare Diagnostic.move
  rw [h]

/-! ## Evaluating without places -/

namespace Eval

variable (set : Settings) {s s' : State}

/-- From the same bindings, a moved tree comes to what the tree comes to, moved along, with the
same bindings and passes. -/
theorem execute_move (f : Position → Position) (t : Tree)
    (h : s.environment.views = s'.environment.views) :
    (execute set t s).1.Moved f (fun v v' => v' = v.move f) (execute set (t.move f) s').1 ∧
      (execute set t s).2.Same (execute set (t.move f) s').2 := by
  have hcarries : Carries f (fun v v' => v' = v.move f) (t.evaluate set)
      ((t.move f).evaluate set) := t.carries_move
  have htree := hcarries { s with steps := 0 } { s' with steps := 0 } ⟨h, rfl⟩
  unfold execute
  generalize t.evaluate set { s with steps := 0 } = x at htree ⊢
  generalize (t.move f).evaluate set { s' with steps := 0 } = x' at htree ⊢
  obtain ⟨o, s₁⟩ := x
  obtain ⟨o', s₁'⟩ := x'
  obtain ⟨ho, hs⟩ := htree
  cases ho with
  | done h =>
    subst h
    refine Carries.bind (S := fun v v' => v' = Value.move f v) (.note 1 ?_)
      (fun _ _ _ => .pure rfl) s₁ s₁' hs
    rw [Value.text?_move]
  | diagnosed d =>
    exact Carries.bind (.note 1 rfl) (fun _ _ _ s s' hs => ⟨.diagnosed d, hs⟩) s₁ s₁' hs
  | faulted e => exact ⟨.faulted e, hs⟩
  | unfinished => exact ⟨.unfinished, hs⟩

/-- From the same bindings, trees equal up to positions come to the same, positions aside. -/
theorem execute_bare {t t' : Tree} (htree : t.bare = t'.bare)
    (h : s.environment.views = s'.environment.views) :
    (execute set t s).1.bare = (execute set t' s').1.bare ∧
      (execute set t s).2.Same (execute set t' s').2 := by
  -- both are carried to the tree without positions, in the second state
  obtain ⟨houtcome, hsame⟩ := execute_move set (fun _ => .first "") t h
  obtain ⟨houtcome', hsame'⟩ := execute_move set (s := s') (fun _ => .first "") t' rfl
  rw [← Tree.bare, htree] at houtcome hsame
  exact ⟨houtcome.bare_eq.trans houtcome'.bare_eq.symm, hsame.views.trans hsame'.views.symm,
    hsame.steps.trans hsame'.steps.symm⟩

end Eval

/-! ## Sessions -/

namespace Session

open Grammar Scan

/-- Two runs come to the same, positions aside, and leave the same bindings and passes. -/
structure SameResult (r r' : Answer × Session) : Prop where
  outcome : r.1.outcome.bare = r'.1.outcome.bare
  bindings : r.2.environment.views = r'.2.environment.views
  steps : r.2.steps = r'.2.steps

/-- Let two texts be scanned to tokens of the same kinds and data. Run with the same bindings,
wherever these came from, they are both refused with the same details after as many tokens, or
both parsed, to trees equal up to positions; and the runs come to the same value, or the same
kind and details of diagnostic, with the same bindings and passes, or both are given up. -/
theorem run_layout (s : Session) (patience : Nat) {file file' text text' : String}
    {ts ts' : List Token} (hscan : scan file text = .ok ts) (hscan' : scan file' text' = .ok ts')
    (hcontents : ts.map Token.content = ts'.map Token.content) {e e' : Environment}
    (h : e.views = e'.views) :
    let r := (s.withEnvironment e).run patience file text
    let r' := (s.withEnvironment e').run patience file' text'
    SameResult r r' ∧
      ((∃ t t', Accepts ts t ∧ Accepts ts' t' ∧ t.bare = t'.bare) ∨
        ∃ f f' k, Rejects ts f k ∧ Rejects ts' f' k ∧ f.expected = f'.expected ∧
          r.1.outcome = .diagnosed f.diagnostic ∧ r'.1.outcome = .diagnosed f'.diagnostic) := by
  have htree := Source.tree_of_scan hscan
  have htree' := Source.tree_of_scan hscan'
  rcases (scan_closed hscan).parsed_alike (scan_closed hscan') hcontents with
    ⟨t, t', ht, ht', hbare⟩ | ⟨f, f', k, hf, hf', hexpected⟩
  · refine ⟨?_, .inl ⟨t, t', ht, ht', hbare⟩⟩
    obtain ⟨start, hstart, hrun⟩ := run_of_tree (s.withEnvironment e) patience
      (htree.trans (treeOfTokens_of_accepts ht))
    obtain ⟨start', hstart', hrun'⟩ := run_of_tree (s.withEnvironment e') patience
      (htree'.trans (treeOfTokens_of_accepts ht'))
    have hviews : start.environment.views = start'.environment.views := by
      rw [hstart, hstart']
      exact h
    obtain ⟨houtcome, hsame⟩ := Eval.execute_bare (s.settings patience) hbare hviews
    rw [hrun, hrun']
    exact ⟨houtcome, hsame.views, hsame.steps⟩
  · obtain ⟨houtcome, hstate⟩ := run_of_refused (s.withEnvironment e) patience
      (htree.trans (treeOfTokens_of_rejects hf))
    obtain ⟨houtcome', hstate'⟩ := run_of_refused (s.withEnvironment e') patience
      (htree'.trans (treeOfTokens_of_rejects hf'))
    refine ⟨⟨?_, ?_, ?_⟩, .inr ⟨f, f', k, hf, hf', hexpected, houtcome, houtcome'⟩⟩
    · rw [houtcome, houtcome']
      exact congrArg Outcome.diagnosed (Failure.diagnostic_bare hexpected)
    · rw [hstate, hstate']
      exact h
    · rw [hstate, hstate']
      rfl

/-- `a` is bound by another file in the second run, and `2` is spelled otherwise. -/
theorem sum_layout :
    let within file := Session.withEnvironment {} (({} : Environment).set "a"
      (.datum (.number (.int 3)) ⟨some (.first file), some (.first file)⟩))
    let r := (within "first").run 0 "<stdin>" "VAR b=a+2"
    let r' := (within "second").run 0 "script" "VAR  b = a + 02"
    SameResult r r' ∧ r.1.outcome.bare = .done (.datum (.number (.int 5)) .unknown) := by
  intro within r r'
  have hscan : scan "<stdin>" "VAR b=a+2" = .ok [tokenAt "<stdin>" .keyword (.text "VAR") 0 3,
      tokenAt "<stdin>" .identifier (.text "b") 4 5, tokenAt "<stdin>" .assign .blank 5 6,
      tokenAt "<stdin>" .identifier (.text "a") 6 7, tokenAt "<stdin>" .plus .blank 7 8,
      tokenAt "<stdin>" .int (.number (.int 2)) 8 9,
      tokenAt "<stdin>" .endOfText .blank 9 10] := by decide +kernel
  have hscan' : scan "script" "VAR  b = a + 02" = .ok [tokenAt "script" .keyword (.text "VAR") 0 3,
      tokenAt "script" .identifier (.text "b") 5 6, tokenAt "script" .assign .blank 7 8,
      tokenAt "script" .identifier (.text "a") 9 10, tokenAt "script" .plus .blank 11 12,
      tokenAt "script" .int (.number (.int 2)) 13 15,
      tokenAt "script" .endOfText .blank 15 16] := by decide +kernel
  have hviews : (within "first").environment.views = (within "second").environment.views :=
    Environment.views_set rfl "a" rfl
  exact ⟨(run_layout {} 0 hscan hscan' rfl hviews).1, by decide +kernel⟩

end Session

end Reckoner
