import Reckoner.Proofs.Console.Stored
import Reckoner.Proofs.Evaluation.Blame

/-!
# The lines that diagnostics name

A program stops at the first line that is refused, and what it writes then is the diagnostic of
that line. Since every line is a text of its own, whose positions start anew, the diagnostic names
line one (`Diagnostic.NamesLine`), wherever the line stands in the file
(`Console.perform_names_first_line`).
-/

set_option autoImplicit false

namespace Reckoner

open Scan

/-! ## The line in the text of a diagnostic -/

namespace Diagnostic

variable {d : Diagnostic} {m n : Nat}

/-- The diagnostic with its start on this line, counted from one. -/
def onLine (d : Diagnostic) (n : Nat) : Diagnostic :=
  { d with start := { d.start with line := n - 1 } }

/-- The text is what is shown for this line. -/
def NamesLine (d : Diagnostic) (n : Nat) : Prop := d.text = (d.onLine n).text

instance (d : Diagnostic) (n : Nat) : Decidable (d.NamesLine n) :=
  inferInstanceAs (Decidable (d.text = (d.onLine n).text))

theorem onLine_one (h : d.start.line = 0) : d.onLine 1 = d := by
  obtain ⟨kind, ⟨index, line, column, file⟩, stop, details, frames⟩ := d
  cases h
  rfl

theorem lineNumber_onLine (d : Diagnostic) (n : Nat) :
    lineNumber (d.onLine n).start = toString n := by
  simp only [lineNumber, onLine, Int.sub_add_cancel]
  rfl

theorem lineNumber_onLine_inj (d : Diagnostic)
    (h : lineNumber (d.onLine m).start = lineNumber (d.onLine n).start) : m = n := by
  rw [lineNumber_onLine, lineNumber_onLine] at h
  simpa using congrArg (fun s : String => Nat.ofDigitChars 10 s.toList 0) h

/-- Different lines are shown by different texts, if a runtime error is shown with one frame. -/
theorem text_onLine_inj {f : Frame} (hframes : d.kind.isRuntime = true → d.frames = [f])
    (h : (d.onLine m).text = (d.onLine n).text) : m = n := by
  refine lineNumber_onLine_inj d ?_
  unfold text at h
  by_cases hruntime : d.kind.isRuntime = true
  · have hkind : ∀ k, (d.onLine k).kind.isRuntime = true := fun _ => hruntime
    have hone : ∀ k, (d.onLine k).frames = [f] := fun _ => hframes hruntime
    rw [if_pos (hkind m), if_pos (hkind n)] at h
    have htraceback : (d.onLine m).traceback = (d.onLine n).traceback := by
      simpa only [onLine, String.append_left_inj] using h
    have hline : frameLine (d.onLine m).start f = frameLine (d.onLine n).start f := by
      unfold traceback at htraceback
      rw [hone, hone] at htraceback
      simpa [frameLines, String.append_right_inj] using htraceback
    unfold frameLine at hline
    simpa only [onLine, String.append_left_inj, String.append_right_inj] using hline
  · have hkind : ∀ k, ¬ (d.onLine k).kind.isRuntime = true := fun _ => hruntime
    rw [if_neg (hkind m), if_neg (hkind n)] at h
    exact (String.append_right_inj _).1 h

/-- A diagnostic that starts on line one names line one only. -/
theorem namesLine_iff {f : Frame} (hframes : d.kind.isRuntime = true → d.frames = [f])
    (h : d.start.line = 0) : d.NamesLine n ↔ n = 1 := by
  unfold NamesLine
  constructor
  · intro htext
    rw [← onLine_one h] at htext
    exact (text_onLine_inj hframes htext).symm
  · rintro rfl
    rw [onLine_one h]

end Diagnostic

/-- Every diagnostic of a run names line one only. -/
theorem Session.names_first_line {s : Session} {patience : Nat} {file text : String}
    {d : Diagnostic} (h : (s.run patience file text).1.outcome = .diagnosed d) (n : Nat) :
    d.NamesLine n ↔ n = 1 := by
  obtain ⟨hpoints, hruntime⟩ := run_inside s patience file text h
  exact Diagnostic.namesLine_iff (fun hr => (hruntime hr).1) hpoints.line

theorem Source.names_first_line {file text : String} {e : Refusal} {d : Diagnostic}
    (h : tree file text = .error e) (hd : e.diagnostic? = some d) (n : Nat) :
    d.NamesLine n ↔ n = 1 := by
  obtain ⟨hstatic, hpoints⟩ := refusal_inside h hd
  -- no runtime error, so any frame does
  refine Diagnostic.namesLine_iff (f := { name := "" }) (fun hruntime => ?_) hpoints.line
  rw [hstatic] at hruntime
  cases hruntime

namespace Console

variable {c c₁ c₂ : Console} {path text line : String}

/-! ## The messages of a run -/

/-- What a line comes to is told, unless it crashes. -/
theorem tell_of_runLine {v : Verdict} (h : c.runLine path line = (v, c₁))
    (hv : ∀ e, v ≠ .crashed e) : c.tell (c.session.run c.patience path line) = (v, c₁) := by
  unfold runLine at h
  dsimp only at h
  split at h
  · cases h
    exact absurd rfl (hv _)
  · exact h

/-- Lines that are all shown leave no message, and are followed by the lines after them. -/
theorem runLines_shown : ∀ {lines : List String} {c : Console},
    runLines path lines c = (.exit 0, c₁) → c₁.err = c.err ∧
      ∀ rest, runLines path (lines ++ rest) c = runLines path rest c₁
  | [], _, h => by
    cases h
    exact ⟨rfl, fun _ => rfl⟩
  | line :: lines, c, h => by
    rw [runLines] at h
    cases hline : c.runLine path line with | mk v c' => ?_
    rw [hline] at h
    cases v with
    | shown =>
      obtain ⟨herr, hrest⟩ := runLines_shown h
      refine ⟨?_, fun rest => ?_⟩
      · rw [herr, err_of_tell_shown (tell_of_runLine hline fun _ => Verdict.noConfusion)]
      · rw [List.cons_append, runLines, hline]
        exact hrest rest
    | _ => cases h

/-- The entries of lines with trees before one that is refused are refused as that one is. -/
theorem entries_of_refused {number : Nat} {e : Source.Refusal}
    (he : Source.tree path line = .error e) (after : List (Nat × String)) :
    ∀ {before : List (Nat × String)}, (∀ l ∈ before, ∃ t, Source.tree path l.2 = .ok t) →
      entries path (before ++ (number, line) :: after) = .error e
  | [], _ => by
    rw [List.nil_append, entries, he]
    rfl
  | (_, _) :: before, h => by
    obtain ⟨⟨t, ht⟩, hbefore⟩ := List.forall_mem_cons.1 h
    rw [List.cons_append, entries, ht, entries_of_refused he after hbefore]
    rfl

/-! ## Programs -/

/-- Let the first line that is refused be line `n` of a program's file. Running the program then
writes the diagnostic of that line and fails, and so does writing its trees; but either text names
line one, which is line `n` only if `n` is one. -/
theorem perform_names_first_line {find : String → Entry} (hfile : find path = .file text)
    (input : String) {before after : List (Nat × String)} {n : Nat}
    (hlines : programLines text = before ++ (n, line) :: after) :
    (∀ c₁ c₂, runLines path (before.map Prod.snd)
          { c with traceless := (find Path.ofTrace).isFolder } = (.exit 0, c₁) →
        c₁.runLine path line = (.refused, c₂) →
      c.perform find input (.program path) = (.exit 1, c₂) ∧
      ∃ d, (c₁.session.run c₁.patience path line).1.outcome = .diagnosed d ∧
        c₂.err = c.err ++ d.text ++ "\n" ∧ d.NamesLine 1 ∧ (d.NamesLine n ↔ n = 1)) ∧
    (∀ e d, (∀ l ∈ before, ∃ t, Source.tree path l.2 = .ok t) →
      Source.tree path line = .error e → e.diagnostic? = some d →
        (c.perform find input (.emit path)).1 = .exit 1 ∧
        (c.perform find input (.emit path)).2.err = c.err ++ d.text ++ "\n" ∧
        d.NamesLine 1 ∧ (d.NamesLine n ↔ n = 1)) := by
  constructor
  · intro c₁ c₂ hbefore hrefused
    obtain ⟨herr, hrest⟩ := runLines_shown hbefore
    obtain ⟨d, hd, hmessage⟩ := diagnosed_of_tell_refused
      (tell_of_runLine hrefused fun _ => Verdict.noConfusion)
    have hnames := Session.names_first_line hd
    refine ⟨?_, d, hd, by rw [hmessage, herr], (hnames 1).2 rfl, hnames n⟩
    simp only [perform, hfile, withFile, runProgram, hlines, List.map_append, List.map_cons, hrest,
      runLines, hrefused]
  · intro e d hbefore he hd
    have hentries : entries path (programLines text) = .error e := by
      rw [hlines]
      exact entries_of_refused he after hbefore
    have hnames := Source.names_first_line he hd
    simp only [perform, hfile, withFile, emit_refused hentries hd]
    exact ⟨trivial, rfl, (hnames 1).2 rfl, hnames n⟩

/-- A program with a blank line, whose third line cannot be scanned. -/
def late : String := "1\n\n$\n"

/-- The only file. -/
def lateOnly (path : String) : Entry := if path = "late" then .file late else .missing

/-- The diagnostic of its third line. -/
def lateDiagnostic : Diagnostic :=
  { kind := .illegalCharacter, start := place "late" 0, stop := place "late" 1, details := "'$'" }

/-- Run or stored, the third line of `late` is refused with a diagnostic that names line one. -/
theorem late_names_first_line :
    (perform {} lateOnly "" (.program "late")).1 = .exit 1 ∧
      (perform {} lateOnly "" (.program "late")).2.err = lateDiagnostic.text ++ "\n" ∧
      (perform {} lateOnly "" (.emit "late")).1 = .exit 1 ∧
      (perform {} lateOnly "" (.emit "late")).2.err = lateDiagnostic.text ++ "\n" ∧
      lateDiagnostic.NamesLine 1 ∧ (lateDiagnostic.NamesLine 3 ↔ 3 = 1) := by
  have hlines : programLines late = [(1, "1")] ++ (3, "$") :: [] := by decide +kernel
  have hshown : (runLines "late" ["1"] {}).1 = .exit 0 := by decide +kernel
  have hrefused : ((runLines "late" ["1"] {}).2.runLine "late" "$").1 = .refused := by
    decide +kernel
  have hdiagnosed : ((runLines "late" ["1"] {}).2.session.run (runLines "late" ["1"] {}).2.patience
      "late" "$").1.outcome = .diagnosed lateDiagnostic := by decide +kernel
  have htrees : ∀ l ∈ [(1, "1")], ∃ t, Source.tree "late" l.2 = .ok t := by
    rw [List.forall_mem_singleton]
    exact ⟨.literal (tokenAt "late" .int (.number (.int 1)) 0 1), by decide +kernel⟩
  have htree : Source.tree "late" "$" =
      .error (.scan (.illegalCharacter '$' (place "late" 0) (place "late" 1))) := by decide +kernel
  have hfile : lateOnly "late" = .file late := rfl
  obtain ⟨hrun, hemit⟩ := perform_names_first_line (c := {}) hfile "" hlines
  generalize hbefore : runLines "late" ["1"] {} = r at hshown hrefused hdiagnosed
  obtain ⟨_, c₁⟩ := r
  cases hshown
  generalize hline : c₁.runLine "late" "$" = r at hrefused
  obtain ⟨_, c₂⟩ := r
  cases hrefused
  obtain ⟨hprogram, d, hd, herr, -⟩ := hrun c₁ c₂ hbefore hline
  cases hdiagnosed.symm.trans hd
  rw [hprogram]
  exact ⟨rfl, herr, hemit _ lateDiagnostic htrees htree rfl⟩

/-- The message for the third line of `late` does not name line three. -/
theorem late_line_three_not_named :
    programLines late = [(1, "1"), (3, "$")] ∧
      (perform {} lateOnly "" (.program "late")).2.err = lateDiagnostic.text ++ "\n" ∧
      (perform {} lateOnly "" (.emit "late")).2.err = lateDiagnostic.text ++ "\n" ∧
      lateDiagnostic.text = "Illegal Character: '$'\nFile late, line 1" ∧
      ¬ lateDiagnostic.NamesLine 3 := by
  decide +kernel

end Console

end Reckoner
