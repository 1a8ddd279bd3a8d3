import Reckoner.Proofs.Token.Move

/-!
# Texts after one another

A blank ends whatever lexeme stands before it. So a text, a blank and another text are scanned as
the two texts are: to the tokens of the one without its end and those of the other, which stand as
many characters further on, or to the first failure of the two (`scan_spaced`).
-/

set_option autoImplicit false

namespace Reckoner

namespace Position

/-- Where a character stands if `n` others come before its text on the first line. From the second
line on the columns stay what they are. -/
def later (n : Nat) (p : Position) : Position :=
  if p.line = 0 then p.shift n else { p with index := p.index + n }

variable {p : Position}

theorem later_of_first_line (h : p.line = 0) (n : Nat) : p.later n = p.shift n := if_pos h

theorem shift_shift (p : Position) (m n : Nat) : (p.shift m).shift n = p.shift (m + n) := by
  simp only [shift, Int.natCast_add, Int.add_assoc]

theorem shift_shift_comm (p : Position) (m n : Nat) :
    (p.shift m).shift n = (p.shift n).shift m := by
  rw [shift_shift, shift_shift, Nat.add_comm]

/-- Along a line, a step is a shift. -/
theorem advance_of_ne {passed : String} (h : passed ≠ "\n") (p : Position) :
    p.advance passed = p.shift 1 := if_neg h

theorem advance_eq_shift (p : Position) : p.advance = p.shift 1 := advance_of_ne (by decide) p

theorem advance_shift (p : Position) (n : Nat) : (p.shift n).advance = p.advance.shift n := by
  rw [advance_eq_shift, advance_eq_shift, shift_shift_comm]

/-- Whatever is passed, what comes after it is later with it. -/
theorem advance_later (h : p.line = 0) (n : Nat) (passed : String) :
    (p.shift n).advance passed = (p.advance passed).later n := by
  by_cases hp : passed = "\n"
  · have hline : p.line + 1 ≠ 0 := by omega
    subst hp
    simp [advance, later, shift, hline, Int.add_right_comm]
  · rw [advance_of_ne hp, advance_of_ne hp, shift_shift_comm]
    exact (later_of_first_line (p := p.shift 1) h n).symm

end Position

namespace Scan

variable {d : Char} {p : Position} {c : Char} {cs rest : List Char}

/-! ## A blank after a text -/

section

variable {f : Char → Bool}

theorem takeWhile_append_stop (hd : f d = false) :
    (cs ++ d :: rest).takeWhile f = cs.takeWhile f := by
  induction cs with
  | nil => simp [hd]
  | cons e cs ih => simp only [List.cons_append, List.takeWhile_cons, ih]

theorem dropWhile_append_stop (hd : f d = false) :
    (cs ++ d :: rest).dropWhile f = cs.dropWhile f ++ d :: rest := by
  induction cs with
  | nil => simp [hd]
  | cons e cs ih =>
    simp only [List.cons_append, List.dropWhile_cons, ih]
    split <;> rfl

end

theorem not_wordChar_of_blank (hd : isBlank d = true) : isWordChar d = false := by
  rw [Bool.eq_false_iff]
  intro h
  rw [not_blank_of_wordChar h] at hd
  cases hd

theorem not_digit_of_blank (hd : isBlank d = true) : d.isDigit = false := by
  rw [Bool.eq_false_iff]
  intro h
  rw [not_blank_of_wordChar (wordChar_of_digit h)] at hd
  cases hd

theorem ne_of_blank (hd : isBlank d = true) {e : Char} (he : isBlank e = false) : d ≠ e := by
  rintro rfl
  rw [hd] at he
  cases he

theorem numeral_append_blank (hd : isBlank d = true) :
    numeral c (cs ++ d :: rest) = numeral c cs := by
  have hdigit := not_digit_of_blank hd
  simp only [numeral, takeWhile_append_stop hdigit, dropWhile_append_stop hdigit]
  cases cs.dropWhile Char.isDigit with
  | nil => simp [ne_of_blank hd (e := '.') rfl]
  | cons e fraction =>
    by_cases he : e = '.'
    · subst he
      simp only [List.cons_append, takeWhile_append_stop hdigit]
    · simp [he]

theorem word_append_blank (hd : isBlank d = true) : word c (cs ++ d :: rest) = word c cs := by
  simp only [word, takeWhile_append_stop (not_wordChar_of_blank hd)]

theorem signOrEquals_append_blank (hd : isBlank d = true) (single double : Symbol) :
    signOrEquals single double (cs ++ d :: rest) = signOrEquals single double cs := by
  cases cs with
  | nil => simp [signOrEquals, ne_of_blank hd (e := '=') rfl]
  | cons e cs =>
    by_cases he : e = '='
    · subst he
      rfl
    · simp [signOrEquals, he]

theorem lexeme_bang_append_blank (hd : isBlank d = true) :
    lexeme p '!' (cs ++ d :: rest) = lexeme p '!' cs := by
  cases cs with
  | nil =>
    have hne : (d :: rest).head? ≠ some '=' := by simpa using ne_of_blank hd rfl
    exact (lexeme_bang hne).trans (lexeme_bang (by simp)).symm
  | cons e cs =>
    by_cases he : e = '='
    · subst he
      rfl
    · rw [List.cons_append, lexeme_bang (by simpa using he), lexeme_bang (by simpa using he)]

/-- A text whose end a blank follows starts with the lexeme with which it starts alone, or with
none for the same reason. -/
theorem lexeme_append_blank (hd : isBlank d = true) :
    lexeme p c (cs ++ d :: rest) = lexeme p c cs := by
  by_cases hc : c = '!'
  · subst hc
    exact lexeme_bang_append_blank hd
  · simp only [lexeme, numeral_append_blank hd, word_append_blank hd, signOrEquals_append_blank hd]
    split
    · rfl
    split
    · rfl
    split
    case h_11 => exact absurd rfl hc
    all_goals rfl

theorem scanFrom_cons_blank (hc : isBlank c = true) :
    scanFrom p 0 (c :: cs) = scanFrom p.advance 0 cs := by
  rw [scanFrom, if_pos hc]

theorem scanFrom_ne_nil {n : Nat} {ts : List Token} (h : scanFrom p n cs = .ok ts) : ts ≠ [] := by
  obtain ⟨body, eof, rfl, -⟩ := (scanFrom_spec cs p n ts h).1.ended
  simp

/-- After a text and a blank the scan goes on as one that starts there. -/
theorem scanFrom_append_blank (hd : isBlank d = true) (bs : List Char) :
    ∀ (as : List Char) (p : Position) (n : Nat), n ≤ as.length →
      scanFrom p n (as ++ d :: bs) = do
        let ts ← scanFrom p n as
        let us ← scanFrom (p.shift (as.length + 1)) 0 bs
        return ts.dropLast ++ us
  | [], p, 0, _ => by
    rw [List.nil_append, scanFrom_cons_blank hd, Position.advance_eq_shift]
    exact (bind_pure _).symm
  | c :: as, p, n + 1, h => by
    have ih := scanFrom_append_blank hd bs as p.advance n (Nat.le_of_succ_le_succ h)
    rw [Position.advance_eq_shift, Position.shift_shift, Nat.add_comm 1] at ih
    exact ih
  | c :: as, p, 0, _ => by
    have hplace : p.advance.shift (as.length + 1) = p.shift ((c :: as).length + 1) := by
      rw [Position.advance_eq_shift, Position.shift_shift, Nat.add_comm 1]
      rfl
    cases hc : isBlank c with
    | true =>
      rw [List.cons_append, scanFrom_cons_blank hc, scanFrom_cons_blank hc, ← hplace]
      exact scanFrom_append_blank hd bs as p.advance 0 (Nat.zero_le _)
    | false =>
      rw [List.cons_append]
      cases hx : lexeme p c as with
      | error e =>
        rw [scanFrom_cons_error hc hx, scanFrom_cons_error hc (lexeme_append_blank hd ▸ hx)]
        rfl
      | ok x =>
        rw [scanFrom_cons_lexeme hc hx,
          scanFrom_cons_lexeme hc (x := x) (by rw [lexeme_append_blank hd, hx]),
          scanFrom_append_blank hd bs as p.advance x.more (spells_of_lexeme hx).1, hplace]
        cases hts : scanFrom p.advance x.more as with
        | error e => rfl
        | ok ts =>
          obtain ⟨t, ts, rfl⟩ := List.exists_cons_of_ne_nil (scanFrom_ne_nil hts)
          cases scanFrom (p.shift ((c :: as).length + 1)) 0 bs <;> rfl

/-! ## A text after others -/

theorem follows_shift (n : Nat) : Follows (.shift · n) (.later n) where
  advance p _ := p.advance_shift n
  shift p m _ := p.shift_shift_comm n m
  failure _ hp := (Position.later_of_first_line hp n).symm
  past _ passed hp := Position.advance_later hp n passed

/-- A text on the first line is scanned as it is further on in that line. -/
theorem scanFrom_shift (n : Nat) (cs : List Char) (p : Position) (m : Nat) (h : p.line = 0) :
    scanFrom (p.shift n) m cs =
      ((scanFrom p m cs).map (·.map (Token.move (.shift · n)))).mapError
        (Failure.move (.later n)) :=
  scanFrom_move (follows_shift n) cs p m h

end Scan

/-- A text, a blank and another text are scanned as the two texts are: the tokens of the one
without its end come first, then those of the other, as many characters further on. The first
failure of the two ends the scan. -/
theorem scan_spaced (file a b : String) :
    scan file (a ++ " " ++ b) = (do
      let ts ← scan file a
      let us ← (scan file b).mapError (Scan.Failure.move (.later (a.length + 1)))
      return ts.dropLast ++ us.map (Token.move (.shift · (a.length + 1)))) := by
  have htext : (a ++ " " ++ b).toList = a.toList ++ ' ' :: b.toList := by
    rw [String.toList_append, String.toList_append, List.append_assoc]
    rfl
  have hseam := Scan.scanFrom_append_blank (d := ' ') rfl b.toList a.toList (.first file) 0
    (Nat.zero_le _)
  rw [Scan.scanFrom_shift _ b.toList (.first file) 0 rfl, String.length_toList] at hseam
  rw [scan, htext, hseam, scan, scan]
  cases Scan.scanFrom (.first file) 0 a.toList with
  | error e => rfl
  | ok ts => cases Scan.scanFrom (.first file) 0 b.toList <;> rfl

end Reckoner
