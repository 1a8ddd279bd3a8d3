import Reckoner.Evaluation.Basic
import Reckoner.Text.Numeral

/-!
# Command line arguments

Options may stand before or after the program. A long option may be shortened as long as it stays
clear, and takes its value from the next argument or after an equals sign; short options may be
joined. After `--` every argument is a plain one, and so is one that looks like a negative
number. There is at most one plain argument.
-/

set_option autoImplicit false

namespace Reckoner

/-- What the command line asks for. -/
structure Options where
  verbosity : Nat := 0
  budget : Budget := .unlimited
  /-- a program whose trees are to be written -/
  emit : Option String := none
  /-- a file of trees to be evaluated -/
  stored : Option String := none
  /-- a program to be run -/
  program : Option String := none
  deriving DecidableEq

namespace Arguments

/-! ## Options and their spellings -/

inductive Flag where
  | help
  | verbose
  | maxSteps
  | emit
  | stored
  deriving DecidableEq

def Flag.takesValue : Flag → Bool
  | .help | .verbose => false
  | .maxSteps | .emit | .stored => true

def spellings : List (String × Flag) :=
  [("-h", .help), ("--help", .help), ("-v", .verbose), ("--max-steps", .maxSteps),
   ("--emit-ast", .emit), ("--ast", .stored)]

inductive Failure where
  | usage
  deriving DecidableEq

/-- An argument as it is understood before options take their values. -/
inductive Item where
  | plain (s : String)
  | option (flag : Flag) (value : Option String)
  /-- an option that does not exist -/
  | stray
  /-- an option with a value that it cannot have, or joined to one that does not exist -/
  | bad
  /-- the arguments after `--` -/
  | rest (after : List String)
  deriving DecidableEq

/-- The texts before and after the first equals sign. -/
def splitEquals? (cs : List Char) : Option (String × String) :=
  match cs.dropWhile (· != '=') with
  | _ :: after => some (String.ofList (cs.takeWhile (· != '=')), String.ofList after)
  | [] => none

/-- The text without a line feed at its end. -/
def withoutLineEnd (cs : List Char) : List Char :=
  if cs.getLast? = some '\n' then cs.dropLast else cs

/-- Whether a text is a minus sign and digits, with or without a point before the last of them.
A line feed may follow. -/
def isNegativeNumber (cs : List Char) : Bool :=
  match withoutLineEnd cs with
  | '-' :: rest =>
    match rest.dropWhile Text.isDigit with
    | [] => !rest.isEmpty
    | '.' :: fraction => !fraction.isEmpty && fraction.all Text.isDigit
    | _ => false
  | _ => false

/-- The flags among whose long spellings `start` begins one. -/
def longFlags (start : String) : List Flag :=
  (spellings.filter fun (s, _) => s.startsWith "--" && s.startsWith start).map Prod.snd

/-- The items of joined short options, each given by its letter. -/
def shortItems? : List Char → Option (List Item)
  | [] => some []
  | c :: rest => do
    let flag ← spellings.lookup (String.ofList ['-', c])
    return .option flag none :: (← shortItems? rest)

/-- The items of an option with a text after an equals sign. For a short option the text holds
the letters of further ones. -/
def assigned (name : String) (flag : Flag) (value : String) : List Item :=
  if flag.takesValue then [.option flag (some value)]
  else if name.startsWith "--" || value = "" then [.bad]
  else ((shortItems? value.toList).map (.option flag none :: ·)).getD [.bad]

/-- The items of an argument that is no spelling of an option by itself. -/
def shortened (s : String) : Except Failure (List Item) :=
  match s.toList with
  | '-' :: '-' :: _ =>
    let (start, value) : String × Option String := match splitEquals? s.toList with
      | some (start, value) => (start, some value)
      | none => (s, none)
    match longFlags start with
    | [flag] => .ok [if flag.takesValue || value.isNone then .option flag value else .bad]
    | [] => .ok [if s.contains ' ' then .plain s else .stray]
    | _ => .error .usage
  | '-' :: c :: rest =>
    if (spellings.lookup (String.ofList ['-', c])).isSome then
      .ok ((shortItems? (c :: rest)).getD [.bad])
    else if isNegativeNumber s.toList || s.contains ' ' then .ok [.plain s]
    else .ok [.stray]
  | _ => .ok [.plain s]

/-- The items of one argument. -/
def itemsOf (s : String) : Except Failure (List Item) :=
  match spellings.lookup s with
  | some flag => .ok [.option flag none]
  | none =>
    match splitEquals? s.toList with
    | some (name, value) =>
      match spellings.lookup name with
      | some flag => .ok (assigned name flag value)
      | none => shortened s
    | none => shortened s

/-- The items of all arguments. -/
def items : List String → Except Failure (List Item)
  | [] => .ok []
  | s :: rest =>
    if s = "--" then .ok [.rest rest]
    else do
      let first ← itemsOf s
      return first ++ (← items rest)

/-! ## Reading -/

inductive Request where
  | help
  | run (o : Options)
  deriving DecidableEq

/-- A budget as it is given. -/
def budget? (value : String) : Option Budget :=
  if value = "--" then some .void else (Text.int? value).map .passes

/-- A file as it is given. -/
def fileName (value : String) : String := if value = "--" then "" else value

/-- The options with the value of one that takes a value. Two minus signs, which can only stand
after an equals sign, are a value without content. -/
def withValue (o : Options) (flag : Flag) (value : String) : Except Failure Options :=
  match flag with
  | .maxSteps =>
    match budget? value with
    | some b => .ok { o with budget := b }
    | none => .error .usage
  | .emit => if o.stored.isSome then .error .usage else .ok { o with emit := some (fileName value) }
  | .stored =>
    if o.emit.isSome then .error .usage else .ok { o with stored := some (fileName value) }
  | _ => .ok o

/-- What is taken so far, and whether an argument was left over. -/
structure Taken where
  options : Options := {}
  leftOver : Bool := false

/-- Takes a plain argument; a second one is left over. -/
def Taken.plain (t : Taken) (s : String) : Taken :=
  if t.options.program.isNone then { t with options := { t.options with program := some s } }
  else { t with leftOver := true }

/-- Arguments that are left over fail only when all are taken. -/
def Taken.finish (t : Taken) : Except Failure Request :=
  if t.leftOver then .error .usage else .ok (.run t.options)

/-- Takes the items in order. The `--` itself is left over unless it comes with the program or
before it. -/
def take (t : Taken) : List Item → Except Failure Request
  | [] => t.finish
  | [.plain s, .rest after] => (after.foldl Taken.plain (t.plain s)).finish
  | .plain s :: rest => take (t.plain s) rest
  | .rest after :: _ =>
    (after.foldl Taken.plain
      { t with leftOver := t.leftOver || t.options.program.isSome }).finish
  | .stray :: rest => take { t with leftOver := true } rest
  | .bad :: _ => .error .usage
  | .option .help _ :: _ => .ok .help
  | .option .verbose _ :: rest =>
    take { t with options := { t.options with verbosity := t.options.verbosity + 1 } } rest
  | .option flag (some value) :: rest => do
    take { t with options := ← withValue t.options flag value } rest
  | .option flag none :: .plain value :: rest => do
    take { t with options := ← withValue t.options flag value } rest
  | .option _ none :: _ => .error .usage

def read (args : List String) : Except Failure Request := do
  take {} (← items args)

end Arguments

end Reckoner
