import Reckoner.Console.Arguments
import Reckoner.Console.Path
import Reckoner.Json.Display
import Reckoner.Json.Printer
import Reckoner.Json.Reader
import Reckoner.Session
import Reckoner.Text.Lines
import Reckoner.Tree.Json

/-!
# Console runs

A console keeps a session and what was written so far: output, messages, trace and files. The
lines of a program are separate programs in one session, and so are the lines typed into the
shell; a program stops at the first diagnostic and the shell goes on. The trees of a program can
be written to a file and evaluated from there.
-/

set_option autoImplicit false

namespace Reckoner

structure Console where
  session : Session := {}
  /-- how many passes of a loop are followed without a budget -/
  patience : Nat := 0
  out : String := ""
  err : String := ""
  trace : String := ""
  /-- whether there is no place for the trace -/
  traceless : Bool := false
  written : List (String × String) := []

namespace Console

/-- What a run cannot go on from. -/
inductive Crash where
  | fault (f : Fault)
  | unfinished
  | unreadable (f : Json.ReadFailure)
  | undecoded (e : Tree.Undecoded)
  | missingField (name : String)
  /-- a value without fields or items where some are needed -/
  | shapeless
  | folder

inductive Ending where
  | exit (code : Nat)
  | crash (c : Crash)

instance (e : Ending) (code : Nat) : Decidable (e = .exit code) :=
  match e with
  | .exit n => decidable_of_iff (n = code) (by simp)
  | .crash _ => .isFalse (by simp)

/-- What one answer means for the run. -/
inductive Verdict where
  | shown
  | refused
  | crashed (c : Crash)

instance (v : Verdict) : Decidable (v = .refused) :=
  match v with
  | .refused => .isTrue rfl
  | .shown | .crashed _ => .isFalse (by simp)

def print (c : Console) (s : String) : Console := { c with out := c.out ++ s }

def complain (c : Console) (s : String) : Console := { c with err := c.err ++ s ++ "\n" }

/-! ## Answers -/

/-- Whether an answer has a trace and the trace no place. -/
def isBlocked (c : Console) (a : Answer) : Bool := c.traceless && !a.trace.isEmpty

/-- Writes an answer down: a datum to the output, a diagnostic to the messages. -/
def tell (c : Console) (answer : Answer × Session) : Verdict × Console :=
  let c := { c with session := answer.2, trace := c.trace ++ answer.1.traceText }
  match answer.1.outcome with
  | .done .nothing => (.shown, c)
  | .done (.datum d _) =>
    match d.display? with
    | some s => (.shown, c.print (s ++ "\n"))
    | none => (.crashed (.fault .oversizedInteger), c)
  | .diagnosed d => (.refused, c.complain d.text)
  | .faulted f => (.crashed (.fault f), c)
  | .unfinished => (.crashed .unfinished, c)

/-- Runs a line. Its trace begins before it is evaluated. -/
def runLine (c : Console) (file line : String) : Verdict × Console :=
  let answer := c.session.run c.patience file line
  if c.isBlocked answer.1 then (.crashed .folder, c) else c.tell answer

/-- Evaluates a stored tree. Its trace ends with its value. -/
def runTree (c : Console) (t : Tree) : Verdict × Console :=
  let answer := c.session.execute c.patience t
  if c.isBlocked answer.1 then (.crashed .folder, { c with session := answer.2 })
  else c.tell answer

/-! ## Programs -/

/-- Runs lines up to the first one that is refused. -/
def runLines (file : String) : List String → Console → Ending × Console
  | [], c => (.exit 0, c)
  | line :: rest, c =>
    match c.runLine file line with
    | (.shown, c) => runLines file rest c
    | (.refused, c) => (.exit 1, c)
    | (.crashed e, c) => (.crash e, c)

/-- The lines of a file that are not blank, with their numbers. -/
def programLines (text : String) : List (Nat × String) :=
  (Text.numbered (Text.fileLines text)).filter fun (_, line) => !Text.isBlank line

def runProgram (c : Console) (file text : String) : Ending × Console :=
  runLines file ((programLines text).map Prod.snd) c

/-! ## The shell -/

def prompt : String := "pop > "

/-- Answers one line typed after a prompt; only a crash ends the shell. -/
def typed (c : Console) (line : String) : Except Crash Unit × Console :=
  if Text.isBlank line then (.ok (), c)
  else match c.runLine "<stdin>" line with
    | (.crashed e, c) => (.error e, c)
    | (_, c) => (.ok (), c)

/-- Prompts for each line and once more for the end of the input. -/
def shellLines : List String → Console → Ending × Console
  | [], c => (.exit 0, c.print (prompt ++ "\n"))
  | line :: rest, c =>
    match (c.print prompt).typed line with
    | (.ok (), c) => shellLines rest c
    | (.error e, c) => (.crash e, c)

def shell (c : Console) (input : String) : Ending × Console := shellLines (Text.lines input) c

/-! ## Stored trees -/

def entryJson (number : Nat) (line : String) (t : Tree) : Json :=
  .object [("line", .ofInt number), ("text", .text line), ("ast", t.toJson)]

/-- The entries of all lines, or the first refusal. -/
def entries (file : String) : List (Nat × String) → Except Source.Refusal (List Json)
  | [] => .ok []
  | (number, line) :: rest => do
    let t ← Source.tree file line
    return entryJson number line t :: (← entries file rest)

/-- The stored form of a program. -/
def storedJson (file : String) (entries : List Json) : Json :=
  .object [("fn", .text file), ("lines", .list entries)]

/-- Writes the trees of a program to a file beside it, unless one of its lines has none; `place`
is what is found there. -/
def emit (c : Console) (file text : String) (place : Entry) : Ending × Console :=
  match entries file (programLines text) with
  | .error e =>
    match e.diagnostic? with
    | some d => (.exit 1, c.complain d.text)
    | none => (.crash (.fault e.fault), c)
  | .ok entries =>
    let target := Path.ofTrees file
    match place with
    | .folder => (.crash .folder, c)
    | _ =>
      let c := { c with written := c.written ++ [(target, (storedJson file entries).print 0)] }
      (.exit 0, c.print (target ++ "\n"))

/-- A field that must be there, of a value that must have fields. -/
def field (name : String) : Json → Except Crash Json
  | .object fields =>
    match Json.field? name fields with
    | some v => .ok v.1
    | none => .error (.missingField name)
  | _ => .error .shapeless

/-- The tree of a stored entry. The text of its line must be there too. -/
def storedTree (data entry : Json) : Except Crash Tree := do
  let ast ← field "ast" entry
  let file ← field "fn" data
  let _ ← field "text" entry
  match Tree.decode file.display ast with
  | .ok t => .ok t
  | .error e => .error (.undecoded e)

/-- Evaluates stored entries up to the first one that is refused. -/
def evaluateEntries (data : Json) : List Json → Console → Ending × Console
  | [], c => (.exit 0, c)
  | entry :: rest, c =>
    match storedTree data entry with
    | .error e => (.crash e, c)
    | .ok t =>
      match c.runTree t with
      | (.shown, c) => evaluateEntries data rest c
      | (.refused, c) => (.exit 1, c)
      | (.crashed e, c) => (.crash e, c)

/-- Evaluates the trees that `emit` wrote. -/
def evaluateStored (c : Console) (text : String) : Ending × Console :=
  match Json.read text with
  | .error e => (.crash (.unreadable e), c)
  | .ok data =>
    match field "lines" data with
    | .error e => (.crash e, c)
    | .ok lines =>
      match lines.items? with
      | none => (.crash .shapeless, c)
      | some entries => evaluateEntries data entries c

/-! ## Commands -/

/-- Goes on with the text of a file, if it is one. -/
def withFile (c : Console) (path : String) (entry : Entry)
    (next : Console → String → Ending × Console) : Ending × Console :=
  match entry with
  | .missing => (.exit 1, c.complain ("Error: file " ++ path ++ " not found"))
  | .folder => (.crash .folder, c)
  | .file text => next c text

/-- The activities of the command line. -/
inductive Command where
  | emit (path : String)
  | stored (path : String)
  | program (path : String)
  | shell

/-- The first activity that is asked for by a name that is not empty; else the shell. -/
def Command.ofOptions (o : Options) : Command :=
  let named (s : Option String) : Option String := s.filter (· != "")
  match named o.emit, named o.stored, named o.program with
  | some path, _, _ => .emit (Path.normal path)
  | none, some path, _ => .stored (Path.normal path)
  | none, none, some path => .program (Path.normal path)
  | none, none, none => .shell

/-- Carries out a command, with `find` to look paths up and `input` to be typed. -/
def perform (c : Console) (find : String → Entry) (input : String) (command : Command) :
    Ending × Console :=
  let c := { c with traceless := (find Path.ofTrace).isFolder }
  match command with
  | .emit path =>
    c.withFile path (find path) fun c text => c.emit path text (find (Path.ofTrees path))
  | .stored path => c.withFile path (find path) fun c text => c.evaluateStored text
  | .program path => c.withFile path (find path) fun c text => c.runProgram path text
  | .shell => c.shell input

/-- The console that options ask for. -/
def ofOptions (o : Options) (patience : Nat) (environment : Environment := {}) : Console :=
  { session := { environment := environment, budget := o.budget, verbosity := o.verbosity }
    patience := patience }

end Console

end Reckoner
