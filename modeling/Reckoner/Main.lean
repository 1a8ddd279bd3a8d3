import Reckoner.Console.Run

/-!
# The command line

Carries out what the arguments ask for on the files and the terminal at hand. The trace is added
to its file in the current folder.
-/

set_option autoImplicit false

namespace Reckoner

namespace Console

/-- Passes of a loop that are followed without a budget, more than can be waited for. -/
def longPatience : Nat := 1000000000000000000

def usage : String :=
  "usage: [-h] [-v] [--max-steps N] [--emit-ast FILE | --ast FILE] [FILE]\n"

/-- What is found at a path on the disk at hand. -/
def findOnDisk (path : String) : IO Entry := do
  try
    return .file (← IO.FS.readFile path)
  catch
    | .noFileOrDirectory .. => return .missing
    | _ => return .folder

/-- Writes down what a console holds beyond what was written before, and empties it. -/
def flush (c : Console) : IO Console := do
  IO.print c.out
  (← IO.getStdout).flush
  IO.eprint c.err
  unless c.trace.isEmpty do
    IO.FS.withFile Path.ofTrace .append fun h => h.putStr c.trace
  for (name, text) in c.written do
    IO.FS.writeFile name text
  return { c with out := "", err := "", trace := "", written := [] }

def report : Ending → IO UInt32
  | .exit code => return code.toUInt32
  | .crash (.fault .oversizedInteger) => do
    IO.eprintln "Error: an integer is too long to be written"
    return 1
  | .crash (.missingField name) => do
    IO.eprintln ("Error: the field " ++ name ++ " is missing")
    return 1
  | .crash _ => do
    IO.eprintln "Error: the input cannot be used"
    return 1

/-- Answers lines as they are typed. -/
partial def converse (c : Console) : IO UInt32 := do
  let c ← (c.print prompt).flush
  let line ← (← IO.getStdin).getLine
  if line.isEmpty then
    let _ ← (c.print "\n").flush
    report (.exit 0)
  else
    match c.typed (String.ofList (line.toList.filter (· ≠ '\n'))) with
    | (.ok (), c) => converse c
    | (.error e, c) =>
      let _ ← c.flush
      report (.crash e)

def start (o : Options) : IO UInt32 := do
  let c := Console.ofOptions o longPatience
  let once (path : String) (command : Command) : IO UInt32 := do
    let places ← [path, Path.ofTrees path, Path.ofTrace].mapM fun p => do
      return (p, ← findOnDisk p)
    let (ending, c) := c.perform (fun p => (places.lookup p).getD .missing) "" command
    let _ ← c.flush
    report ending
  match Command.ofOptions o with
  | .shell => converse c
  | .emit path => once path (.emit path)
  | .stored path => once path (.stored path)
  | .program path => once path (.program path)

end Console

end Reckoner

def main (args : List String) : IO UInt32 := do
  match Reckoner.Arguments.read args with
  | .error _ => do
    IO.eprint Reckoner.Console.usage
    return 2
  | .ok .help => do
    IO.print Reckoner.Console.usage
    return 0
  | .ok (.run o) => Reckoner.Console.start o
