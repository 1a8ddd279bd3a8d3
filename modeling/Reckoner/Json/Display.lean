import Reckoner.Json.Printer

/-!
# Showing JSON values in messages

A message shows a text as it is and any other value by the words of the language: `None`, `True`,
`False`, brackets and commas. Texts inside a list or an object are quoted.
-/

set_option autoImplicit false

namespace Reckoner

namespace Json

/-- The control characters, the space that joins words and the hyphen that is not shown. -/
def isHidden (c : Char) : Bool :=
  c.toNat < 32 || (127 ≤ c.toNat && c.toNat ≤ 160) || c.toNat == 173

/-- A text in single quotes, or in double quotes if only single ones occur in it. -/
def quoteShown (s : String) : String :=
  let quote := if s.contains '\'' && !s.contains '"' then '"' else '\''
  let show1 (c : Char) : List Char :=
    if c = '\\' ∨ c = quote then ['\\', c]
    else if c = '\n' then ['\\', 'n']
    else if c = '\r' then ['\\', 'r']
    else if c = '\t' then ['\\', 't']
    else if isHidden c then ['\\', 'x', hexDigit (c.toNat / 16), hexDigit c.toNat]
    else [c]
  String.ofList (quote :: s.toList.flatMap show1 ++ [quote])

mutual

/-- A value as it is shown inside another one. -/
def shown : Json → String
  | .null => "None"
  | .bool b => if b then "True" else "False"
  | .number n => n.text
  | .text s => quoteShown s
  | .list items => "[" ++ String.intercalate ", " (showItems items) ++ "]"
  | .object fields => "\x7b" ++ String.intercalate ", " (showFields fields) ++ "\x7d"

def showItems : List Json → List String
  | [] => []
  | v :: rest => shown v :: showItems rest

def showFields : List (String × Json) → List String
  | [] => []
  | (name, v) :: rest => (quoteShown name ++ ": " ++ shown v) :: showFields rest

end

/-- A value as it is shown in a message. -/
def display : Json → String
  | .text s => s
  | v => shown v

end Json

end Reckoner
