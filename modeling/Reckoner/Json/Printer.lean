import Reckoner.Json.Basic

/-!
# Writing JSON

Every item of a list and every field of an object has a line of its own, two spaces further in
than what holds it. Characters beyond ASCII are written as they are; only quotes, backslashes
and control characters are escaped. Infinite numbers are written by name.
-/

set_option autoImplicit false

namespace Reckoner

namespace Json

/-! ## Texts -/

def hexDigit (n : Nat) : Char := Nat.digitChar (n % 16)

/-- A character inside quotes. -/
def escape (c : Char) : List Char :=
  if c = '"' then ['\\', '"']
  else if c = '\\' then ['\\', '\\']
  else if c = '\n' then ['\\', 'n']
  else if c = '\r' then ['\\', 'r']
  else if c = '\t' then ['\\', 't']
  else if c = '\x08' then ['\\', 'b']
  else if c = '\x0c' then ['\\', 'f']
  else if c.toNat < 32 then ['\\', 'u', '0', '0', hexDigit (c.toNat / 16), hexDigit c.toNat]
  else [c]

def quoted (s : String) : String :=
  "\"" ++ String.ofList (s.toList.flatMap escape) ++ "\""

/-! ## Numbers -/

def floatText : Binary64 → String
  | .infinite s => if s then "-Infinity" else "Infinity"
  | .nan => "NaN"
  | x => x.text

def numberText : Number → String
  | .int n => toString n
  | .float x => floatText x

/-! ## Values -/

/-- A line break and the indentation of a line at a depth. -/
def newline (depth : Nat) : String := String.ofList ('\n' :: List.replicate (2 * depth) ' ')

/-- The items between brackets, one on each line. -/
def enclose (opening closing : String) (depth : Nat) (items : List String) : String :=
  if items.isEmpty then opening ++ closing
  else
    opening ++ newline (depth + 1) ++ String.intercalate ("," ++ newline (depth + 1)) items ++
      newline depth ++ closing

mutual

/-- The text of a value that stands at a depth. -/
def print (depth : Nat) : Json → String
  | .null => "null"
  | .bool b => if b then "true" else "false"
  | .number n => numberText n
  | .text s => quoted s
  | .list items => enclose "[" "]" depth (printItems (depth + 1) items)
  | .object fields => enclose "\x7b" "\x7d" depth (printFields (depth + 1) fields)

def printItems (depth : Nat) : List Json → List String
  | [] => []
  | v :: rest => print depth v :: printItems depth rest

def printFields (depth : Nat) : List (String × Json) → List String
  | [] => []
  | (name, v) :: rest => (quoted name ++ ": " ++ print depth v) :: printFields depth rest

end

end Json

end Reckoner
