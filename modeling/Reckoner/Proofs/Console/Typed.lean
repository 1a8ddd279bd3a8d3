import Reckoner.Proofs.Console.Answer
import Reckoner.Proofs.Evaluation.InFile
import Reckoner.Proofs.Text.Lines

/-!
# Programs typed into the shell

The lines of a program come to the same when they are typed. One line, run by two consoles with
the same bindings, gets the same verdict, prints the same and leaves the same bindings, and only
the file that its diagnostic names is another one (`Console.exists_lineAlike`). So the two go on
together line by line, the shell past blank lines that the program does not have, up to the first
line that is not shown; there the program ends, and the shell ends only if it crashes
(`Console.perform_typed`).
-/

set_option autoImplicit false

namespace Reckoner

namespace Console

open Text

/-- What a text comes to in the file of the shell, if it comes to the first outcome in another
one: to the same value, or to the same diagnostic but for the name of the file, or to the same
fault. -/
abbrev AsTyped (o o' : Outcome Value) : Prop :=
  o.Moved (.inFile "<stdin>") (fun v v' => v' = v.move (.inFile "<stdin>")) o'

theorem AsTyped.verdict {o o' : Outcome Value} (h : AsTyped o o') : o'.verdict = o.verdict := by
  cases h with
  | @done v _ h =>
    subst h
    cases v <;> rfl
  | _ => rfl

theorem AsTyped.printed {o o' : Outcome Value} (h : AsTyped o o') : o'.printed = o.printed := by
  cases h with
  | @done v _ h =>
    subst h
    cases v <;> rfl
  | _ => rfl

theorem AsTyped.diagnosed {d : Diagnostic} {o' : Outcome Value} (h : AsTyped (.diagnosed d) o') :
    o' = .diagnosed (d.move (.inFile "<stdin>")) := by
  cases h
  rfl

/-! ## One line -/

/-- Two consoles with the same bindings and limits, whose traces go the same way. -/
structure Level (c c' : Console) : Prop where
  bindings : c.session.environment.views = c'.session.environment.views
  budget : c.session.budget = c'.session.budget
  verbosity : c.session.verbosity = c'.session.verbosity
  patience : c.patience = c'.patience
  traceless : c.traceless = c'.traceless

theorem Level.refl (c : Console) : Level c c := ⟨rfl, rfl, rfl, rfl, rfl⟩

/-- A prompt changes nothing for the lines after it. -/
theorem Level.prompted {c c' : Console} (h : Level c c') (s : String) : Level c (c'.print s) :=
  ⟨h.bindings, h.budget, h.verbosity, h.patience, h.traceless⟩

/-- The line comes to the same in the program at `path`, run by `c`, and typed at `c'`. It gets
the verdict `v` and what is printed is the same; a diagnostic is written of the file of each; and
the consoles are level after it. -/
structure LineAlike (path line : String) (v : Verdict) (c c' c₁ c₁' : Console) : Prop where
  program : c.runLine path line = (v, c₁)
  shell : c'.runLine "<stdin>" line = (v, c₁')
  outcome : AsTyped (c.answerTo path line).1.outcome (c'.answerTo "<stdin>" line).1.outcome
  level : Level c₁ c₁'
  printed : ∃ text, c₁.out = c.out ++ text ∧ c₁'.out = c'.out ++ text
  refused : v = .refused → ∃ d, (c.answerTo path line).1.outcome = .diagnosed d ∧
    c₁.err = c.err ++ d.text ++ "\n" ∧
    c₁'.err = c'.err ++ (d.move (.inFile "<stdin>")).text ++ "\n"
  silent : v ≠ .refused → c₁.err = c.err ∧ c₁'.err = c'.err

variable {c c' c₁ c₁' : Console} {path : String}

/-- Level consoles get a line alike. -/
theorem exists_lineAlike (h : Level c c') (path line : String) :
    ∃ v c₁ c₁', LineAlike path line v c c' c₁ c₁' := by
  have hanswer : Session.InFile "<stdin>" (c.answerTo path line) (c'.answerTo "<stdin>" line) := by
    rw [answerTo, answerTo, ← h.patience]
    exact Session.run_inFile h.bindings h.budget h.verbosity c.patience "<stdin>" path line
  have hblocked : c'.isBlocked (c'.answerTo "<stdin>" line).1 =
      c.isBlocked (c.answerTo path line).1 := by
    rw [isBlocked, isBlocked, h.traceless, hanswer.trace]
  have htyped : AsTyped (c.answerTo path line).1.outcome (c'.answerTo "<stdin>" line).1.outcome :=
    hanswer.outcome
  cases hb : c.isBlocked (c.answerTo path line).1 with
  | true =>
    exact ⟨.crashed .folder, c, c',
      { program := runLine_of_blocked hb
        shell := runLine_of_blocked (hblocked.trans hb)
        outcome := htyped
        level := h
        printed := ⟨"", String.append_empty.symm, String.append_empty.symm⟩
        refused := fun hv => Verdict.noConfusion hv
        silent := fun _ => ⟨rfl, rfl⟩ }⟩
  | false =>
    have hverdict := htyped.verdict
    refine ⟨(c.answerTo path line).1.outcome.verdict, c.told (c.answerTo path line),
      c'.told (c'.answerTo "<stdin>" line),
      { program := runLine_of_unblocked hb
        shell := ?_
        outcome := htyped
        level := ⟨hanswer.bindings, h.budget, h.verbosity, h.patience, h.traceless⟩
        printed := ⟨(c.answerTo path line).1.outcome.printed, rfl, ?_⟩
        refused := fun hv => ?_
        silent := fun hv => ⟨err_told hv, err_told (by rwa [hverdict])⟩ }⟩
    · rw [runLine_of_unblocked (hblocked.trans hb), hverdict]
    · rw [← htyped.printed]
      rfl
    · obtain ⟨d, hd⟩ := Outcome.diagnosed_of_verdict hv
      rw [hd] at htyped
      exact ⟨d, hd, err_told_of_diagnosed hd, err_told_of_diagnosed htyped.diagnosed⟩

/-! ## Several lines -/

/-- The lines come to the same in the program and typed after prompts, one after the other, and
all are shown. Those that are blank are prompted for and no more. -/
inductive LinesAlike (path : String) :
    List String → Console → Console → Console → Console → Prop where
  | nil (c c' : Console) : LinesAlike path [] c c' c c'
  | blank {line : String} {lines : List String} {c c' c₁ c₁' : Console}
      (hline : isBlank line = true) (rest : LinesAlike path lines c (c'.print prompt) c₁ c₁') :
      LinesAlike path (line :: lines) c c' c₁ c₁'
  | shown {line : String} {lines : List String} {c c' c₁ c₁' c₂ c₂' : Console}
      (hline : isBlank line = false)
      (first : LineAlike path line .shown c (c'.print prompt) c₁ c₁')
      (rest : LinesAlike path lines c₁ c₁' c₂ c₂') :
      LinesAlike path (line :: lines) c c' c₂ c₂'

namespace LinesAlike

variable {lines : List String}

theorem level (hl : LinesAlike path lines c c' c₁ c₁') (h : Level c c') : Level c₁ c₁' := by
  induction hl with
  | nil c c' => exact h
  | blank hline rest ih => exact ih (h.prompted prompt)
  | shown hline first rest ih => exact ih first.level

/-- The program goes on after the lines. -/
theorem program (hl : LinesAlike path lines c c' c₁ c₁') (after : List String) :
    runLines path (nonblank (lines ++ after)) c = runLines path (nonblank after) c₁ := by
  induction hl with
  | nil c c' => rfl
  | blank hline rest ih =>
    rw [List.cons_append, nonblank, List.filter_cons_of_neg (by simp [hline])]
    exact ih
  | shown hline first rest ih =>
    rw [List.cons_append, nonblank, List.filter_cons_of_pos (by simp [hline]), runLines,
      first.program]
    exact ih

/-- The shell goes on after the lines. -/
theorem shell (hl : LinesAlike path lines c c' c₁ c₁') (after : List String) :
    shellLines (lines ++ after) c' = shellLines after c₁' := by
  induction hl with
  | nil c c' => rfl
  | blank hline rest ih =>
    rw [List.cons_append, shellLines, typed, if_pos hline]
    exact ih
  | shown hline first rest ih =>
    rw [List.cons_append, shellLines, typed, if_neg (ne_true_of_eq_false hline), first.shell]
    exact ih

/-- What is printed for the lines is the same but for the prompts, and there are no messages. -/
theorem written (hl : LinesAlike path lines c c' c₁ c₁') :
    (∃ texts : List String, texts.length = lines.length ∧
      c₁.out = c.out ++ String.join texts ∧
      c₁'.out = c'.out ++ String.join (texts.map (prompt ++ ·))) ∧
    c₁.err = c.err ∧ c₁'.err = c'.err := by
  induction hl with
  | nil c c' => exact ⟨⟨[], rfl, String.append_empty.symm, String.append_empty.symm⟩, rfl, rfl⟩
  | blank hline rest ih =>
    obtain ⟨⟨texts, hlength, hout, hout'⟩, herr⟩ := ih
    refine ⟨⟨"" :: texts, congrArg Nat.succ hlength, ?_, ?_⟩, herr⟩
    · rw [hout]
      simp
    · rw [hout']
      simp [print, String.append_assoc]
  | shown hline first rest ih =>
    obtain ⟨⟨texts, hlength, hout, hout'⟩, herr, herr'⟩ := ih
    obtain ⟨text, htext, htext'⟩ := first.printed
    obtain ⟨hfirst, hfirst'⟩ := first.silent Verdict.noConfusion
    refine ⟨⟨text :: texts, congrArg Nat.succ hlength, ?_, ?_⟩, herr.trans hfirst,
      herr'.trans hfirst'⟩
    · rw [hout, htext]
      simp [String.append_assoc]
    · rw [hout', htext']
      simp [print, String.append_assoc]

end LinesAlike

/-- Lines are shown alike up to the first one that is not shown, and that one is not shown alike. -/
theorem exists_linesAlike (path : String) : ∀ (lines : List String) {c c' : Console}, Level c c' →
    ∃ before after c₁ c₁', lines = before ++ after ∧ LinesAlike path before c c' c₁ c₁' ∧
      (after = [] ∨ ∃ line rest v c₂ c₂', after = line :: rest ∧ isBlank line = false ∧
        v ≠ .shown ∧ LineAlike path line v c₁ (c₁'.print prompt) c₂ c₂')
  | [], c, c', _ => ⟨[], [], c, c', rfl, .nil c c', .inl rfl⟩
  | line :: lines, c, c', h => by
    cases hline : isBlank line with
    | true =>
      obtain ⟨before, after, c₁, c₁', rfl, hbefore, hafter⟩ :=
        exists_linesAlike path lines (h.prompted prompt)
      exact ⟨line :: before, after, c₁, c₁', rfl, .blank hline hbefore, hafter⟩
    | false =>
      obtain ⟨v, c₁, c₁', hfirst⟩ := exists_lineAlike (h.prompted prompt) path line
      by_cases hv : v = .shown
      · subst hv
        obtain ⟨before, after, c₂, c₂', rfl, hbefore, hafter⟩ :=
          exists_linesAlike path lines hfirst.level
        exact ⟨line :: before, after, c₂, c₂', rfl, .shown hline hfirst hbefore, hafter⟩
      · exact ⟨[], line :: lines, c, c', rfl, .nil c c',
          .inr ⟨line, lines, v, c₁, c₁', rfl, hline, hv, hfirst⟩⟩

/-! ## Whole programs -/

/-- Let a file hold lines, the last of which need not be ended, and let them be typed as well.
Program and shell get the lines alike as long as they are shown: the same text is printed for each,
and the same bindings are left after each. If all are shown both end well, the shell after another
prompt. Otherwise they get the next line alike too. If it is refused, the program fails with its
diagnostic and the shell, with the same one, goes on with the lines after it; if it crashes, both
do, for the same reason. -/
theorem perform_typed (c : Console) {find : String → Entry} {path text : String}
    {lines : List String} (hfile : find path = .file text) (hlines : ∀ line ∈ lines, IsLine line)
    (htext : text = unlines lines ∨ text ++ "\n" = unlines lines) (input : String) :
    let start := { c with traceless := (find Path.ofTrace).isFolder }
    let program := c.perform find input (.program path)
    let shell := c.perform find (unlines lines) .shell
    ∃ before after c₁ c₁', lines = before ++ after ∧
      LinesAlike path before start start c₁ c₁' ∧ Level c₁ c₁' ∧
      ((∃ texts : List String, texts.length = before.length ∧
        c₁.out = c.out ++ String.join texts ∧
        c₁'.out = c.out ++ String.join (texts.map (prompt ++ ·))) ∧
        c₁.err = c.err ∧ c₁'.err = c.err) ∧
      ((after = [] ∧ program = (.exit 0, c₁) ∧ shell = (.exit 0, c₁'.print (prompt ++ "\n"))) ∨
        ∃ line rest v c₂ c₂', after = line :: rest ∧ isBlank line = false ∧
          LineAlike path line v c₁ (c₁'.print prompt) c₂ c₂' ∧
          ((v = .refused ∧ program = (.exit 1, c₂) ∧ shell = shellLines rest c₂') ∨
            ∃ e, v = .crashed e ∧ program = (.crash e, c₂) ∧ shell = (.crash e, c₂'))) := by
  intro start program shell
  have hprogram : program = runLines path (nonblank lines) start := by
    simp only [program, perform, hfile, withFile, runProgram, programLines_unlines hlines htext]
    rfl
  have hshell : shell = shellLines lines start := by
    simp only [shell, perform, Console.shell, lines_unlines hlines]
    rfl
  obtain ⟨before, after, c₁, c₁', rfl, hbefore, hafter⟩ :=
    exists_linesAlike path lines (Level.refl start)
  rw [hbefore.program] at hprogram
  rw [hbefore.shell] at hshell
  refine ⟨before, after, c₁, c₁', rfl, hbefore, hbefore.level (.refl start), hbefore.written, ?_⟩
  rcases hafter with rfl | ⟨line, rest, v, c₂, c₂', rfl, hline, hv, hlast⟩
  · exact .inl ⟨rfl, hprogram, hshell⟩
  · rw [nonblank, List.filter_cons_of_pos (by simp [hline]), runLines, hlast.program] at hprogram
    rw [shellLines, typed, if_neg (ne_true_of_eq_false hline), hlast.shell] at hshell
    refine .inr ⟨line, rest, v, c₂, c₂', rfl, hline, hlast, ?_⟩
    cases v with
    | shown => exact absurd rfl hv
    | refused => exact .inl ⟨rfl, hprogram, hshell⟩
    | crashed e => exact .inr ⟨e, rfl, hprogram, hshell⟩

/-- Lines of which one is blank and the last but one names no variable. -/
def slip : List String := ["VAR a = 3", "", "a + 1", "b", "a"]

/-- A file of them is the only one; its last line is not ended. -/
def slipOnly (path : String) : Entry :=
  if path = "slip" then .file "VAR a = 3\n\na + 1\nb\na" else .missing

/-- The program fails at `b`, and the shell goes on to print `a`. -/
theorem slip_typed :
    let start : Console := { traceless := (slipOnly Path.ofTrace).isFolder }
    let program := perform {} slipOnly "" (.program "slip")
    let shell := perform {} slipOnly (unlines slip) .shell
    (∀ line ∈ slip, IsLine line) ∧ "VAR a = 3\n\na + 1\nb\na" ++ "\n" = unlines slip ∧
      (∃ before line rest c₁ c₁' c₂ c₂', slip = before ++ line :: rest ∧
        LinesAlike "slip" before start start c₁ c₁' ∧
        LineAlike "slip" line .refused c₁ (c₁'.print prompt) c₂ c₂' ∧
        program = (.exit 1, c₂) ∧ shell = shellLines rest c₂') ∧
      program.2.out = "3\n4\n" ∧
      shell.2.out = "pop > 3\npop > pop > 4\npop > pop > 3\npop > \n" := by
  intro start program shell
  have hfile : slipOnly "slip" = .file "VAR a = 3\n\na + 1\nb\na" := rfl
  have hlines : ∀ line ∈ slip, IsLine line := by decide +kernel
  have htext : "VAR a = 3\n\na + 1\nb\na" ++ "\n" = unlines slip := by decide +kernel
  have hexit : program.1 = .exit 1 := by decide +kernel
  refine ⟨hlines, htext, ?_, by decide +kernel, by decide +kernel⟩
  obtain ⟨before, after, c₁, c₁', hsplit, hbefore, -, -, hend⟩ :=
    perform_typed {} hfile hlines (.inr htext) ""
  rcases hend with ⟨-, hdone, -⟩ | ⟨line, rest, v, c₂, c₂', rfl, -, hlast, hstop⟩
  · cases (congrArg Prod.fst hdone).symm.trans hexit
  · rcases hstop with ⟨rfl, hprogram, hshell⟩ | ⟨e, -, hcrash, -⟩
    · exact ⟨before, line, rest, c₁, c₁', c₂, c₂', hsplit, hbefore, hlast, hprogram, hshell⟩
    · cases (congrArg Prod.fst hcrash).symm.trans hexit

end Console

end Reckoner
