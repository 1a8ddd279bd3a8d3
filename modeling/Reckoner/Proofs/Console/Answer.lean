import Reckoner.Console.Run

/-!
# What is told of an answer

The verdict on an answer, the text that is printed and the message are decided by the outcome alone
(`Console.tell_eq`).
-/

set_option autoImplicit false

namespace Reckoner

namespace Outcome

def verdict : Outcome Value → Console.Verdict
  | .done .nothing => .shown
  | .done (.datum d _) =>
    match d.display? with
    | some _ => .shown
    | none => .crashed (.fault .oversizedInteger)
  | .diagnosed _ => .refused
  | .faulted f => .crashed (.fault f)
  | .unfinished => .crashed .unfinished

/-- The text and its line end, if there is one. -/
def printed : Outcome Value → String
  | .done (.datum d _) => (d.display?.map (· ++ "\n")).getD ""
  | _ => ""

def message : Outcome Value → String
  | .diagnosed d => d.text ++ "\n"
  | _ => ""

theorem message_of_verdict {o : Outcome Value} (h : o.verdict ≠ .refused) : o.message = "" := by
  cases o with
  | diagnosed d => exact absurd rfl h
  | _ => rfl

theorem diagnosed_of_verdict {o : Outcome Value} (h : o.verdict = .refused) :
    ∃ d, o = .diagnosed d := by
  rcases o with (⟨d, span⟩ | _) | d | f | _
  · dsimp only [verdict] at h
    split at h <;> cases h
  · cases h
  · exact ⟨d, rfl⟩
  · cases h
  · cases h

end Outcome

namespace Console

variable {c c₁ : Console} {a : Answer × Session}

/-- The console once the answer is told. -/
def told (c : Console) (a : Answer × Session) : Console :=
  { c with
    session := a.2
    trace := c.trace ++ a.1.traceText
    out := c.out ++ a.1.outcome.printed
    err := c.err ++ a.1.outcome.message }

theorem tell_eq (c : Console) (a : Answer × Session) :
    c.tell a = (a.1.outcome.verdict, c.told a) := by
  obtain ⟨⟨o, trace⟩, s⟩ := a
  unfold told
  rcases o with (⟨d, span⟩ | _) | d | f | _
  · unfold tell Outcome.verdict Outcome.printed Outcome.message
    dsimp only
    cases d.display? with
    | some text => simp [print]
    | none => simp
  · simp [tell, Outcome.verdict, Outcome.printed, Outcome.message]
  · simp [tell, complain, Outcome.verdict, Outcome.printed, Outcome.message, String.append_assoc]
  · simp [tell, Outcome.verdict, Outcome.printed, Outcome.message]
  · simp [tell, Outcome.verdict, Outcome.printed, Outcome.message]

theorem tell_session (c : Console) (a : Answer × Session) : (c.tell a).2.session = a.2 := by
  rw [tell_eq]
  rfl

/-- What is told is the same wherever the trace goes. -/
theorem tell_traceless (c : Console) (b : Bool) (a : Answer × Session) :
    { c with traceless := b }.tell a = ((c.tell a).1, { (c.tell a).2 with traceless := b }) := by
  rw [tell_eq, tell_eq]
  rfl

theorem err_told (h : a.1.outcome.verdict ≠ .refused) : (c.told a).err = c.err := by
  show c.err ++ a.1.outcome.message = c.err
  rw [Outcome.message_of_verdict h, String.append_empty]

theorem err_told_of_diagnosed {d : Diagnostic} (h : a.1.outcome = .diagnosed d) :
    (c.told a).err = c.err ++ d.text ++ "\n" := by
  show c.err ++ a.1.outcome.message = c.err ++ d.text ++ "\n"
  rw [h, Outcome.message, String.append_assoc]

theorem err_of_tell_shown (h : c.tell a = (.shown, c₁)) : c₁.err = c.err := by
  rw [tell_eq] at h
  obtain ⟨hverdict, rfl⟩ := Prod.mk.inj h
  exact err_told (by rw [hverdict]; exact Verdict.noConfusion)

theorem diagnosed_of_tell_refused (h : c.tell a = (.refused, c₁)) :
    ∃ d, a.1.outcome = .diagnosed d ∧ c₁.err = c.err ++ d.text ++ "\n" := by
  rw [tell_eq] at h
  obtain ⟨hverdict, rfl⟩ := Prod.mk.inj h
  obtain ⟨d, hd⟩ := Outcome.diagnosed_of_verdict hverdict
  exact ⟨d, hd, err_told_of_diagnosed hd⟩

/-! ## Lines -/

/-- What a line comes to. -/
def answerTo (c : Console) (file line : String) : Answer × Session :=
  c.session.run c.patience file line

theorem runLine_of_blocked {file line : String}
    (h : c.isBlocked (c.answerTo file line).1 = true) :
    c.runLine file line = (.crashed .folder, c) :=
  if_pos h

theorem runLine_of_unblocked {file line : String}
    (h : c.isBlocked (c.answerTo file line).1 = false) :
    c.runLine file line =
      ((c.answerTo file line).1.outcome.verdict, c.told (c.answerTo file line)) :=
  (if_neg (ne_true_of_eq_false h)).trans (tell_eq c _)

end Console

end Reckoner
