import Reckoner.Assoc
import Reckoner.Json.Basic

/-!
# Reading JSON

`read` takes one value with blanks around it. Besides the standard forms the names `NaN`,
`Infinity` and `-Infinity` are numbers. A number with a fraction or an exponent is a binary64
number, any other an integer, which may not be longer than integers with a text are. A name that
comes again in an object replaces its earlier value.
-/

set_option autoImplicit false

namespace Reckoner

namespace Json

inductive ReadFailure where
  | malformed
  | oversizedInteger
  deriving DecidableEq

/-- What was read and what comes after it. -/
abbrev Reading (α : Type) := Except ReadFailure (α × List Char)

def isSpace (c : Char) : Bool := c == ' ' || c == '\t' || c == '\n' || c == '\r'

def skipSpaces (cs : List Char) : List Char := cs.dropWhile isSpace

/-- The text after `expected`, if it starts so. -/
def after? : List Char → List Char → Option (List Char)
  | [], cs => some cs
  | e :: es, c :: cs => if e = c then after? es cs else none
  | _ :: _, [] => none

/-! ## Numbers -/

/-- The digits at the head of a text; one zero stands alone. -/
def wholePart (cs : List Char) : List Char :=
  match cs with
  | '0' :: _ => ['0']
  | _ => cs.takeWhile Char.isDigit

/-- The digits after a point, if there are any. -/
def fractionPart (cs : List Char) : List Char :=
  match cs with
  | '.' :: rest => rest.takeWhile Char.isDigit
  | _ => []

/-- The sign and digits after an `e`, if there are any digits. -/
def exponentPart (cs : List Char) : Option (Bool × List Char × List Char) :=
  match cs with
  | c :: rest =>
    if c = 'e' ∨ c = 'E' then
      let (negative, rest) := Binary64.splitSign rest
      let digits := rest.takeWhile Char.isDigit
      if digits.isEmpty then none else some (negative, digits, rest.drop digits.length)
    else none
  | [] => none

def readNumber (cs : List Char) : Reading Json :=
  let (negative, body) : Bool × List Char := match cs with
    | '-' :: rest => (true, rest)
    | _ => (false, cs)
  let whole := wholePart body
  if whole.isEmpty then .error .malformed
  else
    let rest := body.drop whole.length
    let fraction := fractionPart rest
    let rest := if fraction.isEmpty then rest else rest.drop (fraction.length + 1)
    match exponentPart rest with
    | some (down, digits, rest) =>
      let k := Binary64.signed down (Binary64.ofDigits digits)
      .ok (.number (.float (.ofDecimal negative (Binary64.ofDigits (whole ++ fraction))
        (k - (fraction.length : Int)))), rest)
    | none =>
      if !fraction.isEmpty then
        .ok (.number (.float (.ofDecimal negative (Binary64.ofDigits (whole ++ fraction))
          (-(fraction.length : Int)))), rest)
      else if Number.digitLimit < whole.length then .error .oversizedInteger
      else .ok (.number (.int (Binary64.signed negative (Binary64.ofDigits whole))), rest)

/-! ## Texts -/

def hexValue? (c : Char) : Option Nat :=
  if c.isDigit then some (c.toNat - 48)
  else if 'a' ≤ c ∧ c ≤ 'f' then some (c.toNat - 87)
  else if 'A' ≤ c ∧ c ≤ 'F' then some (c.toNat - 55)
  else none

/-- Four hexadecimal digits. -/
def readUnit? : List Char → Option (Nat × List Char)
  | a :: b :: c :: d :: rest => do
    let a ← hexValue? a
    let b ← hexValue? b
    let c ← hexValue? c
    let d ← hexValue? d
    return (4096 * a + 256 * b + 16 * c + d, rest)
  | _ => none

/-- The second half of a pair of units, if it comes next. -/
def readLowUnit? : List Char → Option (Nat × List Char)
  | '\\' :: 'u' :: rest =>
    (readUnit? rest).filter fun (u, _) => 0xDC00 ≤ u && u < 0xE000
  | _ => none

/-- The character that one or two units stand for; half a pair stands for the replacement
character. -/
def unitChar (u : Nat) (rest : List Char) : Char × List Char :=
  if 0xD800 ≤ u ∧ u < 0xDC00 then
    match readLowUnit? rest with
    | some (l, rest) => (Char.ofNat (0x10000 + (u - 0xD800) * 0x400 + (l - 0xDC00)), rest)
    | none => ('\uFFFD', rest)
  else if 0xDC00 ≤ u ∧ u < 0xE000 then ('\uFFFD', rest)
  else (Char.ofNat u, rest)

def plainEscape? (c : Char) : Option Char :=
  match c with
  | '"' => some '"'
  | '\\' => some '\\'
  | '/' => some '/'
  | 'b' => some '\x08'
  | 'f' => some '\x0c'
  | 'n' => some '\n'
  | 'r' => some '\r'
  | 't' => some '\t'
  | _ => none

/-- The characters up to the closing quote, of which `done` are read, last first. Each takes at
least one character of the text, so `depth` characters suffice. -/
def readText : Nat → List Char → List Char → Reading String
  | 0, _, _ => .error .malformed
  | depth + 1, done, cs =>
    match cs with
    | [] => .error .malformed
    | '"' :: rest => .ok (String.ofList done.reverse, rest)
    | '\\' :: 'u' :: rest =>
      match readUnit? rest with
      | none => .error .malformed
      | some (u, rest) =>
        let (c, rest) := unitChar u rest
        readText depth (c :: done) rest
    | '\\' :: e :: rest =>
      match plainEscape? e with
      | none => .error .malformed
      | some c => readText depth (c :: done) rest
    | c :: rest =>
      if c.toNat < 32 ∨ c = '\\' then .error .malformed else readText depth (c :: done) rest

/-! ## Values -/

/-- The values that are written by a name. -/
def names : List (List Char × Json) :=
  [("null".toList, .null), ("true".toList, .bool true), ("false".toList, .bool false),
   ("NaN".toList, .number (.float .nan)),
   ("Infinity".toList, .number (.float (.infinite false))),
   ("-Infinity".toList, .number (.float (.infinite true)))]

def readName? (cs : List Char) : Option (Json × List Char) :=
  names.findSome? fun (name, v) => (after? name cs).map fun rest => (v, rest)

mutual

/-- One value at the head of a text. -/
def readValue : Nat → List Char → Except ReadFailure (Json × List Char)
  | 0, _ => .error .malformed
  | depth + 1, cs =>
    match readName? cs with
    | some r => .ok r
    | none =>
      match cs with
      | [] => .error .malformed
      | c :: rest =>
        if c = '"' then do
          let (s, rest) ← readText depth [] rest
          return (.text s, rest)
        else if c = '[' then
          match skipSpaces rest with
          | ']' :: rest => .ok (.list [], rest)
          | rest => readItems depth [] rest
        else if c = '\x7b' then
          match skipSpaces rest with
          | '\x7d' :: rest => .ok (.object [], rest)
          | rest => readFields depth [] rest
        else readNumber cs

/-- The items of a list after `done`, which are given last first. -/
def readItems : Nat → List Json → List Char → Except ReadFailure (Json × List Char)
  | 0, _, _ => .error .malformed
  | depth + 1, done, cs => do
    let (v, rest) ← readValue depth cs
    match skipSpaces rest with
    | ']' :: rest => return (.list (v :: done).reverse, rest)
    | ',' :: rest => readItems depth (v :: done) (skipSpaces rest)
    | _ => .error .malformed

/-- The fields of an object after `done`. -/
def readFields : Nat → List (String × Json) → List Char → Except ReadFailure (Json × List Char)
  | 0, _, _ => .error .malformed
  | depth + 1, done, cs => do
    match cs with
    | '"' :: rest =>
      let (name, rest) ← readText depth [] rest
      match skipSpaces rest with
      | ':' :: rest =>
        let (v, rest) ← readValue depth (skipSpaces rest)
        let fields := Assoc.put name v done
        match skipSpaces rest with
        | '\x7d' :: rest => return (.object fields, rest)
        | ',' :: rest => readFields depth fields (skipSpaces rest)
        | _ => .error .malformed
      | _ => .error .malformed
    | _ => .error .malformed

end

/-- The value that a text stands for. Each level of nesting takes a character of the text, and
so does each item, so that the depth stays above twice what is left of the text. -/
def read (s : String) : Except ReadFailure Json := do
  let cs := s.toList
  let (v, rest) ← readValue (2 * cs.length + 2) (skipSpaces cs)
  if (skipSpaces rest).isEmpty then return v else .error .malformed

end Json

end Reckoner
