import Reckoner.Diagnostic
import Reckoner.Token.Basic

/-!
# Scanning

`scan` cuts a text into tokens, each the longest lexeme at its place, and ends them with an end
token. Only spaces and tabs stand between lexemes. The first character that starts no lexeme
ends the scan with a failure alone.
-/

set_option autoImplicit false

namespace Reckoner

namespace Scan

/-! ## Character classes -/

def isBlank (c : Char) : Bool := c == ' ' || c == '\t'

/-- The characters of a word after its first, which is a letter. -/
def isWordChar (c : Char) : Bool := c.isAlphanum || c == '_'

/-! ## Failures -/

inductive Failure where
  | illegalCharacter (c : Char) (start stop : Position)
  /-- an exclamation mark that no equals sign follows -/
  | expectedEquals (start stop : Position)
  /-- an integer literal of more digits than can be read -/
  | oversizedInteger
  deriving DecidableEq

/-- What the user is told; nothing for an integer that cannot be read. -/
def Failure.diagnostic? : Failure → Option Diagnostic
  | .illegalCharacter c start stop =>
    some
      { kind := .illegalCharacter, start := start, stop := stop
        details := "'" ++ String.singleton c ++ "'" }
  | .expectedEquals start stop =>
    some
      { kind := .expectedCharacter, start := start, stop := stop
        details := "'=' (after '!')" }
  | .oversizedInteger => none

/-! ## Lexemes -/

/-- A lexeme without its place: the first character of it and `more` further ones. -/
structure Lexeme where
  symbol : Symbol
  value : Datum
  more : Nat
  deriving DecidableEq

/-- The digits, one dot and digits at the head of a text that starts with a digit. -/
def numeral (c : Char) (cs : List Char) : Except Failure Lexeme :=
  let whole := c :: cs.takeWhile Char.isDigit
  match cs.dropWhile Char.isDigit with
  | '.' :: rest =>
    let fraction := rest.takeWhile Char.isDigit
    .ok
      { symbol := .float
        value := .number (.float
          (.ofDecimal false (Binary64.ofDigits (whole ++ fraction)) (-(fraction.length : Int))))
        more := whole.length + fraction.length }
  | _ =>
    if Number.digitLimit < whole.length then .error .oversizedInteger
    else
      .ok
        { symbol := .int
          value := .number (.int (Binary64.ofDigits whole))
          more := whole.length - 1 }

/-- The keyword or identifier at the head of a text that starts with a letter. -/
def word (c : Char) (cs : List Char) : Lexeme :=
  let letters := c :: cs.takeWhile isWordChar
  let s := String.ofList letters
  { symbol := if (Keyword.ofText? s).isSome then .keyword else .identifier
    value := .text s
    more := letters.length - 1 }

def sign (symbol : Symbol) : Lexeme := ⟨symbol, .blank, 0⟩

/-- A sign that an equals sign turns into another one. -/
def signOrEquals (single double : Symbol) (cs : List Char) : Lexeme :=
  match cs with
  | '=' :: _ => ⟨double, .blank, 1⟩
  | _ => ⟨single, .blank, 0⟩

/-- The longest lexeme at the head of the text `c :: cs`, which starts at `p`. -/
def lexeme (p : Position) (c : Char) (cs : List Char) : Except Failure Lexeme :=
  if c.isDigit then numeral c cs
  else if c.isAlpha then .ok (word c cs)
  else match c with
    | '+' => .ok (sign .plus)
    | '-' => .ok (sign .minus)
    | '*' => .ok (sign .times)
    | '/' => .ok (sign .divide)
    | '^' => .ok (sign .power)
    | '(' => .ok (sign .openParen)
    | ')' => .ok (sign .closeParen)
    | '=' => .ok (signOrEquals .assign .equal cs)
    | '<' => .ok (signOrEquals .less .atMost cs)
    | '>' => .ok (signOrEquals .greater .atLeast cs)
    | '!' => match cs with
      | '=' :: _ => .ok ⟨.unequal, .blank, 1⟩
      | _ => .error (.expectedEquals p p.advance)
    | _ => .error (.illegalCharacter c p (p.advance (String.singleton c)))

/-- The token that a lexeme makes at `p`. -/
def Lexeme.token (x : Lexeme) (p : Position) : Token :=
  .make x.symbol x.value ⟨some p, some (p.shift (x.more + 1))⟩

def endToken (p : Position) : Token := .make Symbol.endOfText .blank ⟨some p, none⟩

/-- The tokens of a text at `p`, whose first `inside` characters belong to the lexeme before. -/
def scanFrom (p : Position) (inside : Nat) : List Char → Except Failure (List Token)
  | [] => .ok [endToken p]
  | c :: cs =>
    match inside with
    | more + 1 => scanFrom p.advance more cs
    | 0 =>
      if isBlank c then scanFrom p.advance 0 cs
      else match lexeme p c cs with
        | .error e => .error e
        | .ok x => (scanFrom p.advance x.more cs).map (x.token p :: ·)

end Scan

/-- The tokens of a text, ended by an end token. -/
def scan (file text : String) : Except Scan.Failure (List Token) :=
  Scan.scanFrom (.first file) 0 text.toList

end Reckoner
