import Reckoner.Position

/-!
# Diagnostics

A diagnostic is what the user is told: a kind, the span it is about, the details, and for one
that arose while evaluating the frames it arose in, innermost first. `text` writes it out; the
frames are listed oldest first, and each shows where the next inner one was entered.
-/

set_option autoImplicit false

namespace Reckoner

/-- One frame of evaluation and the place in the enclosing frame from which it was entered. -/
structure Frame where
  name : String
  entry : Option Position := none
  deriving DecidableEq

namespace Diagnostic

inductive Kind where
  | general
  | illegalCharacter
  | expectedCharacter
  | invalidSyntax
  | runtime
  | divisionByZero
  | undefinedVariable
  | illegalOperation
  | stepLimit
  deriving DecidableEq

namespace Kind

/-- Whether diagnostics of this kind arise while evaluating. -/
def isRuntime : Kind → Bool
  | .runtime | .divisionByZero | .undefinedVariable | .illegalOperation | .stepLimit => true
  | _ => false

def title : Kind → String
  | .general => "Error"
  | .illegalCharacter => "Illegal Character"
  | .expectedCharacter => "Expected Character"
  | .invalidSyntax => "Invalid Syntax"
  | .runtime | .divisionByZero | .undefinedVariable | .illegalOperation | .stepLimit =>
    "Runtime Error"

/-- The details of a diagnostic that gives none of its own. -/
def defaultDetails : Kind → String
  | .divisionByZero => "Division by zero"
  | .illegalOperation => "Illegal operation"
  | _ => ""

end Kind

end Diagnostic

structure Diagnostic where
  kind : Diagnostic.Kind
  start : Position
  stop : Position
  details : String := kind.defaultDetails
  frames : List Frame := []
  deriving DecidableEq

namespace Diagnostic

/-- The line shown for a position, counted from one. -/
def lineNumber (p : Position) : String := toString (p.line + 1)

def frameLine (p : Position) (f : Frame) : String :=
  "  File " ++ p.file ++ ", line " ++ lineNumber p ++ ", in " ++ f.name ++ "\n"

/-- The lines of the frames, innermost first. A frame without an entry passes its own position
on to the frame around it. -/
def frameLines (p : Position) : List Frame → List String
  | [] => []
  | f :: rest => frameLine p f :: frameLines (f.entry.getD p) rest

def traceback (d : Diagnostic) : String :=
  "Traceback (most recent call last):\n" ++ String.join (frameLines d.start d.frames).reverse

def text (d : Diagnostic) : String :=
  if d.kind.isRuntime then d.traceback ++ d.kind.title ++ ": " ++ d.details
  else
    d.kind.title ++ ": " ++ d.details ++ "\nFile " ++ d.start.file ++ ", line " ++
      lineNumber d.start

end Diagnostic

end Reckoner
