import Reckoner.Proofs.Token.Refused
import Reckoner.Proofs.Tree.Move

/-!
# Scanning elsewhere

A scan looks at the characters and never at the place where it is. So a text that starts at
another place on the first line is scanned as it was, to tokens and failures that are moved along
(`Scan.scanFrom_move`).
-/

set_option autoImplicit false

namespace Reckoner

namespace Scan

/-- The failure, at other places. -/
def Failure.move (f : Position → Position) : Failure → Failure
  | .illegalCharacter c start stop => .illegalCharacter c (f start) (f stop)
  | .expectedEquals start stop => .expectedEquals (f start) (f stop)
  | .oversizedInteger => .oversizedInteger

/-- On the first line `f` goes along with every step of a scan, and `g` takes the places of
failures, past whatever character, to where they are then. -/
structure Follows (f g : Position → Position) : Prop where
  advance : ∀ p, p.line = 0 → (f p).advance = f p.advance
  shift : ∀ p n, p.line = 0 → (f p).shift n = f (p.shift n)
  failure : ∀ p, p.line = 0 → f p = g p
  past : ∀ p passed, p.line = 0 → (f p).advance passed = g (p.advance passed)

variable {f g : Position → Position} {p : Position} {c : Char} {cs : List Char}

theorem numeral_mapError (f : Position → Position) :
    (numeral c cs).mapError (Failure.move f) = numeral c cs := by
  unfold numeral
  dsimp only
  split
  · rfl
  · split <;> rfl

namespace Follows

theorem lexeme (h : Follows f g) (hp : p.line = 0) :
    Scan.lexeme (f p) c cs = (Scan.lexeme p c cs).mapError (Failure.move g) := by
  unfold Scan.lexeme
  split
  · exact (numeral_mapError _).symm
  split
  · rfl
  split
  case h_11 =>
    split
    · rfl
    · simp only [Except.mapError, Failure.move, h.failure p hp, ← h.past p _ hp]
  case h_12 => simp only [Except.mapError, Failure.move, h.failure p hp, ← h.past p _ hp]
  all_goals rfl

theorem token (h : Follows f g) (hp : p.line = 0) (x : Lexeme) :
    x.token (f p) = (x.token p).move f := by
  simp only [Lexeme.token, h.shift p _ hp]
  rfl

theorem endToken (h : Follows f g) (hp : p.line = 0) :
    Scan.endToken (f p) = (Scan.endToken p).move f := by
  simp only [Scan.endToken, Token.make, Span.completed, Token.move, Span.move, h.advance p hp,
    Option.map_some]

end Follows

/-- A text that starts at another place on the first line is scanned as it was, elsewhere. -/
theorem scanFrom_move (h : Follows f g) : ∀ (cs : List Char) (p : Position) (m : Nat),
    p.line = 0 → scanFrom (f p) m cs =
      ((scanFrom p m cs).map (·.map (Token.move f))).mapError (Failure.move g)
  | [], p, m, hp => by
    rw [scanFrom, scanFrom, h.endToken hp]
    rfl
  | c :: cs, p, m + 1, hp => by
    have ih := scanFrom_move h cs p.advance m hp
    rw [← h.advance p hp] at ih
    exact ih
  | c :: cs, p, 0, hp => by
    have ih := fun m => scanFrom_move h cs p.advance m hp
    simp only [← h.advance p hp] at ih
    cases hc : isBlank c with
    | true =>
      rw [scanFrom, scanFrom, if_pos hc, if_pos hc]
      exact ih 0
    | false =>
      have hmoved : Scan.lexeme (f p) c cs = _ := h.lexeme hp
      cases hx : Scan.lexeme p c cs with
      | error e =>
        rw [hx] at hmoved
        rw [scanFrom_cons_error hc hx, scanFrom_cons_error hc hmoved]
        rfl
      | ok x =>
        rw [hx] at hmoved
        rw [scanFrom_cons_lexeme hc hx, scanFrom_cons_lexeme hc hmoved, ih x.more, h.token hp]
        cases scanFrom p.advance x.more cs <;> rfl

end Scan

end Reckoner
