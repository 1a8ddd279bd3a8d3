import Reckoner.Proofs.Evaluation.Layout
import Reckoner.Proofs.Evaluation.Verbosity
import Reckoner.Proofs.Token.Move
import Reckoner.Proofs.Tree.Codec

/-!
# The same text in another file

A text does not know what file it is in. Under another file name it has the same tree, or is
refused for the same reason, with the name changed in each position (`Source.tree_inFile`). Run
with the same bindings it comes to the same, the name aside, and writes a trace if it did before
(`Session.run_inFile`).
-/

set_option autoImplicit false

namespace Reckoner

/-! ## Trees -/

theorem Scan.follows_inFile (file : String) :
    Scan.Follows (Position.inFile file) (Position.inFile file) where
  advance _ _ := rfl
  shift _ _ _ := rfl
  failure _ _ := rfl
  past p passed _ := by
    unfold Position.advance
    split <;> rfl

theorem scan_inFile (file' file text : String) :
    scan file' text = ((scan file text).map (·.map (Token.move (.inFile file')))).mapError
      (Scan.Failure.move (.inFile file')) :=
  Scan.scanFrom_move (Scan.follows_inFile file') text.toList (.first file) 0 rfl

/-- An integer that cannot be read cannot be read in any file. -/
theorem scan_oversized_iff (file' file text : String) :
    scan file' text = .error .oversizedInteger ↔ scan file text = .error .oversizedInteger := by
  rw [scan_inFile file' file]
  cases scan file text with
  | ok ts => exact ⟨nofun, nofun⟩
  | error e => cases e <;> simp [Except.map, Except.mapError, Scan.Failure.move]

namespace Source

/-- The refusal, at other places. -/
def Refusal.move (f : Position → Position) : Refusal → Refusal
  | .scan e => .scan (e.move f)
  | .parse e => .parse (e.move f)
  | .halt h => .halt h

theorem treeOfTokens_move (f : Position → Position) (ts : List Token) :
    treeOfTokens (ts.map (Token.move f)) =
      ((treeOfTokens ts).map (Tree.move f)).mapError (Refusal.move f) := by
  unfold treeOfTokens
  rw [Grammar.parse_move]
  rcases Grammar.parse ts with halt | ⟨⟨_ | e, _ | t, last, consumed⟩, c⟩ <;> rfl

theorem tree_inFile (file' file text : String) :
    tree file' text = ((tree file text).map (Tree.move (.inFile file'))).mapError
      (Refusal.move (.inFile file')) := by
  unfold tree tokens
  rw [scan_inFile file' file]
  cases scan file text with
  | error e => rfl
  | ok ts => exact treeOfTokens_move _ ts

theorem Refusal.outcome_move (f : Position → Position) (e : Refusal) {α β : Type}
    (R : α → β → Prop) : Outcome.Moved f R e.outcome (e.move f).outcome := by
  cases e with
  | scan e =>
    cases e with
    | oversizedInteger => exact .faulted _
    | _ => exact .diagnosed _
  | parse e => exact .diagnosed _
  | halt h => cases h <;> exact .faulted _

end Source

/-! ## Traces -/

namespace Eval

variable {set : Settings} {file text : String}

/-- The trace is not empty. -/
def Traced (s : State) : Prop := s.trace.isEmpty = false

theorem traced_push (s : State) (trace : Array Note) (n : Note) :
    Traced { s with trace := trace.push n } := by
  simp [Traced]

theorem invariant_traced (t : Tree) : Invariant Traced t where
  binds _ _ _ _ hs := hs
  notes n s _ := traced_push s s.trace n
  counts _ hs := hs

theorem traced_note {α : Type} (hv : 1 ≤ set.verbosity) (line : String) {m : Eval α}
    (hm : ∀ s, Traced s → Traced (m s).2) (s : State) :
    Traced ((note set 1 (fun _ => some line) >>= fun _ => m) s).2 := by
  have hnote : note set 1 (fun _ => some line) =
      fun s => (.done (), { s with trace := s.trace.push ⟨1, line⟩ }) := if_pos hv
  rw [hnote]
  exact hm _ (traced_push s s.trace _)

theorem traced_diagnosed {α : Type} (d : Diagnostic) (s : State) (hs : Traced s) :
    Traced ((diagnosed d : Eval α) s).2 := hs

theorem traced_refuse (hv : 1 ≤ set.verbosity) (stage : String) (e : Source.Refusal) (s : State)
    (hs : Traced s) : Traced (refuse set file stage e s).2 := by
  unfold refuse
  cases e.diagnostic? with
  | some d => exact traced_note hv _ (traced_diagnosed d) s
  | none => exact hs

/-- Every run is traced, unless an integer cannot be read. -/
theorem run_traced (hv : 1 ≤ set.verbosity) (h : scan file text ≠ .error .oversizedInteger)
    (s : State) : Traced (run set file text s).2 := by
  unfold run Source.tokens
  cases hscan : scan file text with
  | error e =>
    have hd : ∃ d, (Source.Refusal.scan e).diagnostic? = some d := by
      cases e with
      | oversizedInteger => exact absurd hscan h
      | _ => exact ⟨_, rfl⟩
    obtain ⟨d, hd⟩ := hd
    simp only [Except.mapError, refuse, hd]
    exact traced_note hv _ (traced_diagnosed d) s
  | ok ts =>
    refine traced_note hv _ (fun s hs => ?_) s
    cases Source.treeOfTokens ts with
    | error e => exact traced_refuse hv "syntax" e s hs
    | ok t => exact traced_note hv _ (fun s hs => ((invariant_traced t).execute set hs).1) s

theorem run_oversized (h : scan file text = .error .oversizedInteger) :
    run set file text = faulted .oversizedInteger := by
  unfold run Source.tokens
  rw [h]
  rfl

end Eval

namespace Session

/-- A run has no trace without verbosity, or if an integer cannot be read. -/
theorem run_trace_isEmpty (s : Session) (patience : Nat) (file text : String) :
    (s.run patience file text).1.trace.isEmpty = true ↔
      s.verbosity = 0 ∨ scan file text = .error .oversizedInteger := by
  by_cases hv : s.verbosity = 0
  · simp [hv, run_trace hv]
  by_cases h : scan file text = .error .oversizedInteger
  · rw [run, perform_eq, Eval.run_oversized h]
    simp only [h, or_true, iff_true]
    rfl
  · have htraced : Eval.Traced (Eval.run (s.settings patience) file text s.start).2 :=
      Eval.run_traced (Nat.pos_of_ne_zero hv) h s.start
    rw [Eval.Traced] at htraced
    simp [hv, h, run, perform_eq, htraced]

/-! ## Runs -/

/-- The second run comes to what the first one came to, in this file: to the same bindings too,
and to a trace if the first one did. -/
structure InFile (file : String) (r r' : Answer × Session) : Prop where
  outcome : r.1.outcome.Moved (.inFile file) (fun v v' => v' = v.move (.inFile file)) r'.1.outcome
  bindings : r.2.environment.views = r'.2.environment.views
  trace : r.1.trace.isEmpty = r'.1.trace.isEmpty

/-- With the same bindings, budget and verbosity a text comes to the same in every file. -/
theorem run_inFile {s s' : Session} (hviews : s.environment.views = s'.environment.views)
    (hbudget : s.budget = s'.budget) (hverbosity : s.verbosity = s'.verbosity) (patience : Nat)
    (file' file text : String) :
    InFile file' (s.run patience file text) (s'.run patience file' text) := by
  have hset : s'.settings patience = s.settings patience := by
    rw [settings, settings, hbudget, hverbosity]
  have htrace : (s.run patience file text).1.trace.isEmpty =
      (s'.run patience file' text).1.trace.isEmpty := by
    rw [Bool.eq_iff_iff, run_trace_isEmpty, run_trace_isEmpty, hverbosity,
      scan_oversized_iff file' file]
  have htree' := Source.tree_inFile file' file text
  cases htree : Source.tree file text with
  | error e =>
    rw [htree] at htree'
    obtain ⟨houtcome, hstate⟩ := s.run_of_refused patience htree
    obtain ⟨houtcome', hstate'⟩ := s'.run_of_refused patience htree'
    refine ⟨?_, ?_, htrace⟩
    · rw [houtcome, houtcome']
      exact e.outcome_move _ _
    · rw [hstate, hstate', hviews]
  | ok t =>
    rw [htree] at htree'
    obtain ⟨start, hstart, hrun⟩ := s.run_of_tree patience htree
    obtain ⟨start', hstart', hrun'⟩ := s'.run_of_tree patience htree'
    have hstarts : start.environment.views = start'.environment.views := by
      rw [hstart, hstart', hviews]
    obtain ⟨houtcome, hsame⟩ :=
      Eval.execute_move (s.settings patience) (.inFile file') t hstarts
    refine ⟨?_, ?_, htrace⟩
    · rw [hrun, hrun', hset]
      exact houtcome
    · rw [hrun, hrun', hset]
      exact hsame.views

end Session

end Reckoner
