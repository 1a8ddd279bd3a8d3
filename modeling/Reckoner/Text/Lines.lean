/-!
# Lines

A line feed ends a line; the last line may lack it. In a file a carriage return, alone or before
a line feed, counts as a line feed.
-/

set_option autoImplicit false

namespace Reckoner

namespace Text

/-- The text with every kind of line end written as a line feed. -/
def unifyLineEnds : List Char → List Char
  | [] => []
  | '\r' :: '\n' :: rest => '\n' :: unifyLineEnds rest
  | '\r' :: rest => '\n' :: unifyLineEnds rest
  | c :: rest => c :: unifyLineEnds rest

/-- The lines of a text without their ends. `line` holds what is read of the current one, last
character first. -/
def splitLines (line : List Char) : List Char → List (List Char)
  | [] => if line.isEmpty then [] else [line.reverse]
  | c :: rest => if c = '\n' then line.reverse :: splitLines [] rest else splitLines (c :: line) rest

/-- The lines that end at line feeds only. -/
def lines (s : String) : List String := (splitLines [] s.toList).map String.ofList

/-- The lines of a file. -/
def fileLines (s : String) : List String :=
  (splitLines [] (unifyLineEnds s.toList)).map String.ofList

/-- A list of lines with their numbers, counted from one. -/
def numbered (ls : List String) : List (Nat × String) :=
  (List.range' 1 ls.length).zip ls

end Text

end Reckoner
