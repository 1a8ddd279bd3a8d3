/-!
# Positions and spans

A position counts characters from the start of a text and carries the name of the file. A span
has two positions, either of which may be unknown.
-/

set_option autoImplicit false

namespace Reckoner

structure Position where
  index : Int
  line : Int
  column : Int
  file : String
  deriving DecidableEq, Inhabited

namespace Position

/-- The first position of a file. -/
def first (file : String) : Position := ⟨0, 0, 0, file⟩

/-- One step past `passed`. Only the exact text of a line feed starts a new line. -/
def advance (p : Position) (passed : String := "") : Position :=
  if passed = "\n" then { p with index := p.index + 1, line := p.line + 1, column := 0 }
  else { p with index := p.index + 1, column := p.column + 1 }

/-- `n` steps along one line. -/
def shift (p : Position) (n : Nat) : Position :=
  { p with index := p.index + n, column := p.column + n }

end Position

/-- Where something stands, as far as that is known. -/
structure Span where
  start : Option Position
  stop : Option Position
  deriving DecidableEq, Inhabited

namespace Span

def unknown : Span := ⟨none, none⟩

/-- Both ends, if both are known. -/
def ends? (s : Span) : Option (Position × Position) :=
  match s.start, s.stop with
  | some p, some q => some (p, q)
  | _, _ => none

/-- A span with a start and no end covers one character. -/
def completed (s : Span) : Span :=
  match s.start, s.stop with
  | some p, none => ⟨some p, some p.advance⟩
  | _, _ => s

end Span

end Reckoner
