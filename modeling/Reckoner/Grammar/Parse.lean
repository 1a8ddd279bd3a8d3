import Reckoner.Diagnostic
import Reckoner.Grammar.Report
import Reckoner.Tree.Basic

/-!
# Parsing

The grammar, loosest binding first:

    expression  := VAR name = expression | condition ((AND | OR) condition)*
    condition   := NOT condition | sum ((== | != | < | > | <= | >=) sum)*
    sum         := product ((+ | -) product)*
    product     := factor ((* | /) factor)*
    factor      := (+ | -) factor | power
    power       := atom (^ factor)?
    atom        := number | name | ( expression ) | conditional | forLoop | whileLoop
    conditional := IF expression DO expression (ELIF expression DO expression)* (ELSE expression)?
    forLoop     := FOR name = expression UPTO expression (STEP expression)? DO expression
    whileLoop   := WHILE expression DO expression

Each rule looks at the current token only and takes every optional part that it can. Rules are
written over `recur`, the parser one level deeper; `derive` ties the knot down to a given depth,
and `parse` gives it the depth that the tokens can need.
-/

set_option autoImplicit false

namespace Reckoner

namespace Grammar

/-! ## What is expected -/

/-- What a rule needed in the place of the token at which it failed. -/
inductive Expectation where
  | expression
  | condition
  | atom
  | operator
  | identifier
  | equals
  | closeParen
  | keyword (w : Keyword)
  deriving DecidableEq

def Expectation.details : Expectation → String
  | .expression =>
    "Expected 'VAR', 'IF', 'FOR', 'WHILE', int, float, identifier, '+', '-', '(' or 'NOT'"
  | .condition => "Expected int, float, identifier, '+', '-', '(' or 'NOT'"
  | .atom => "Expected int, float, identifier, '+', '-', '(', 'IF', 'FOR' or 'WHILE'"
  | .operator =>
    "Expected '+', '-', '*', '/', '^', '==', '!=', '<', '>', '<=', '>=', 'AND' or 'OR'"
  | .identifier => "Expected identifier"
  | .equals => "Expected '='"
  | .closeParen => "Expected ')'"
  | .keyword w => "Expected '" ++ w.text ++ "'"

/-- An unmet expectation and the ends of the token that did not meet it. -/
structure Failure where
  expected : Expectation
  start : Position
  stop : Position
  deriving DecidableEq

def Failure.diagnostic (e : Failure) : Diagnostic :=
  { kind := .invalidSyntax, start := e.start, stop := e.stop, details := e.expected.details }

/-! ## Reading tokens -/

/-- The tokens still to be read. The last one is never passed, however often it is consumed. -/
structure Cursor where
  current : Token
  rest : List Token

namespace Cursor

def ofTokens? : List Token → Option Cursor
  | [] => none
  | t :: rest => some ⟨t, rest⟩

def advance (c : Cursor) : Cursor :=
  match c.rest with
  | [] => c
  | t :: rest => ⟨t, rest⟩

end Cursor

/-- Why parsing stops without an answer. -/
inductive Halt where
  /-- a failing token has no place to report, or there is no token at all -/
  | unlocated
  /-- the last token can be consumed for ever -/
  | endless
  deriving DecidableEq

abbrev Step := Except Halt (Report Failure Tree × Cursor)

inductive Rule where
  | expression
  | condition
  | sum
  | product
  | factor
  | power
  | atom
  | conditional
  | forLoop
  | whileLoop
  deriving DecidableEq

/-! ## Parts of rules -/

/-- The rule fails at the current token. -/
def fail (r : Report Failure Tree) (c : Cursor) (expected : Expectation) : Step :=
  match c.current.span.ends? with
  | some (start, stop) => .ok (r.fail ⟨expected, start, stop⟩, c)
  | none => .error .unlocated

def succeed (r : Report Failure Tree) (c : Cursor) (t : Tree) : Step := .ok (r.succeed t, c)

/-- Registers the answer of an inner rule and goes on with its tree, unless it failed. -/
def andThen (r : Report Failure Tree) (inner : Step)
    (next : Report Failure Tree → Cursor → Tree → Step) : Step :=
  match inner with
  | .error h => .error h
  | .ok (sub, c) =>
    let r := r.register sub
    if r.error.isSome then .ok (r, c) else next r c (sub.node.getD .absent)

/-- Registers the answer of an inner rule; if it failed, this rule expects something itself. -/
def orExpect (r : Report Failure Tree) (inner : Step) (expected : Expectation) : Step :=
  match inner with
  | .error h => .error h
  | .ok (sub, c) =>
    let r := r.register sub
    if r.error.isSome then fail r c expected else succeed r c (sub.node.getD .absent)

/-- Consumes a token that satisfies `ok`, or fails. -/
def expect (r : Report Failure Tree) (c : Cursor) (ok : Token → Bool) (expected : Expectation)
    (next : Report Failure Tree → Cursor → Step) : Step :=
  if ok c.current then next r.advance c.advance else fail r c expected

def expectKeyword (r : Report Failure Tree) (c : Cursor) (w : Keyword)
    (next : Report Failure Tree → Cursor → Step) : Step :=
  expect r c (·.isKeyword w) (.keyword w) next

/-! ## Operator levels -/

def isLogical (t : Token) : Bool := t.isKeyword .and || t.isKeyword .or

def isComparison (t : Token) : Bool :=
  t.is .equal || t.is .unequal || t.is .less || t.is .greater || t.is .atMost || t.is .atLeast

def isAdditive (t : Token) : Bool := t.is .plus || t.is .minus

def isMultiplicative (t : Token) : Bool := t.is .times || t.is .divide

/-- The operators and operands that follow `left`, folded to the left. -/
def chainRest (operand : Cursor → Step) (isOp : Token → Bool) :
    Nat → Report Failure Tree → Cursor → Tree → Step
  | 0, _, _, _ => .error .endless
  | depth + 1, r, c, left =>
    if isOp c.current then
      andThen r.advance (operand c.advance) fun r c' right =>
        chainRest operand isOp depth r c' (.binary c.current left right)
    else succeed r c left

/-- Operands separated by operators. -/
def chain (operand : Cursor → Step) (isOp : Token → Bool) (depth : Nat) (c : Cursor) : Step :=
  andThen .empty (operand c) fun r c left => chainRest operand isOp depth r c left

/-! ## The rules -/

section Rules

variable (recur : Rule → Cursor → Step) (depth : Nat)

def expression (c : Cursor) : Step :=
  if c.current.isKeyword .var then
    let r := Report.empty.advance
    let c := c.advance
    expect r c (·.is .identifier) .identifier fun r c' =>
      expect r c' (·.is .assign) .equals fun r c'' =>
        andThen r (recur .expression c'') fun r c''' value =>
          succeed r c''' (.assign c.current value)
  else
    orExpect .empty (chain (recur .condition) isLogical depth c) .expression

def condition (c : Cursor) : Step :=
  if c.current.isKeyword .not then
    andThen Report.empty.advance (recur .condition c.advance) fun r c' operand =>
      succeed r c' (.unary c.current operand)
  else
    orExpect .empty (chain (recur .sum) isComparison depth c) .condition

def factor (c : Cursor) : Step :=
  if isAdditive c.current then
    andThen Report.empty.advance (recur .factor c.advance) fun r c' operand =>
      succeed r c' (.unary c.current operand)
  else recur .power c

def power (c : Cursor) : Step :=
  andThen .empty (recur .atom c) fun r c base =>
    if c.current.is .power then
      andThen r.advance (recur .factor c.advance) fun r c' exponent =>
        succeed r c' (.binary c.current base exponent)
    else succeed r c base

/-- A form that starts with a keyword is a rule of its own. -/
def form (rule : Rule) (c : Cursor) : Step :=
  andThen .empty (recur rule c) succeed

def atom (c : Cursor) : Step :=
  let t := c.current
  if t.is .int || t.is .float then succeed Report.empty.advance c.advance (.literal t)
  else if t.is .identifier then succeed Report.empty.advance c.advance (.ident t)
  else if t.is .openParen then
    andThen Report.empty.advance (recur .expression c.advance) fun r c inner =>
      expect r c (·.is .closeParen) .closeParen fun r c => succeed r c inner
  else if t.isKeyword .ifWord then form recur .conditional c
  else if t.isKeyword .forWord then form recur .forLoop c
  else if t.isKeyword .whileWord then form recur .whileLoop c
  else fail .empty c .atom

/-- A condition, `DO` and a body. -/
def branch (r : Report Failure Tree) (c : Cursor)
    (next : Report Failure Tree → Cursor → Tree → Tree → Step) : Step :=
  andThen r (recur .expression c) fun r c condition =>
    expectKeyword r c .doWord fun r c =>
      andThen r (recur .expression c) fun r c body => next r c condition body

/-- The `ELIF` parts and the `ELSE` part that follow the branches read so far, which are given
last first. -/
def moreBranches : Nat → Report Failure Tree → Cursor → List (Tree × Tree) → Step
  | 0, _, _, _ => .error .endless
  | depth + 1, r, c, done =>
    if c.current.isKeyword .elifWord then
      branch recur r.advance c.advance fun r c condition body =>
        moreBranches depth r c ((condition, body) :: done)
    else
      let branches := Branches.ofList done.reverse
      if c.current.isKeyword .elseWord then
        andThen r.advance (recur .expression c.advance) fun r c otherwise =>
          succeed r c (.conditional branches otherwise)
      else succeed r c (.conditional branches .absent)

def conditional (c : Cursor) : Step :=
  expectKeyword .empty c .ifWord fun r c =>
    branch recur r c fun r c condition body =>
      moreBranches recur depth r c [(condition, body)]

/-- The optional step of a counted loop. -/
def stride (r : Report Failure Tree) (c : Cursor)
    (next : Report Failure Tree → Cursor → Tree → Step) : Step :=
  if c.current.isKeyword .step then andThen r.advance (recur .expression c.advance) next
  else next r c .absent

def forLoop (c : Cursor) : Step :=
  expectKeyword .empty c .forWord fun r c =>
    expect r c (·.is .identifier) .identifier fun r c' =>
      expect r c' (·.is .assign) .equals fun r c' =>
        andThen r (recur .expression c') fun r c' first =>
          expectKeyword r c' .upto fun r c' =>
            andThen r (recur .expression c') fun r c' last =>
              stride recur r c' fun r c' step =>
                expectKeyword r c' .doWord fun r c' =>
                  andThen r (recur .expression c') fun r c' body =>
                    succeed r c' (.forLoop c.current first last step body)

def whileLoop (c : Cursor) : Step :=
  expectKeyword .empty c .whileWord fun r c =>
    branch recur r c fun r c condition body => succeed r c (.whileLoop condition body)

/-- The body of a rule. -/
def body : Rule → Cursor → Step
  | .expression => expression recur depth
  | .condition => condition recur depth
  | .sum => chain (recur .product) isAdditive depth
  | .product => chain (recur .factor) isMultiplicative depth
  | .factor => factor recur
  | .power => power recur
  | .atom => atom recur
  | .conditional => conditional recur depth
  | .forLoop => forLoop recur
  | .whileLoop => whileLoop recur

end Rules

/-- The rules down to a given depth. -/
def derive : Nat → Rule → Cursor → Step
  | 0, _, _ => .error .endless
  | depth + 1, rule, c => body (derive depth) (depth + 1) rule c

/-- A depth that no tokens exceed: between two tokens consumed there are fewer than ten rules,
and the last token is consumed at most once for each open parenthesis. -/
def depthFor (tokens : List Token) : Nat := 20 * (tokens.length + 1)

/-- The report of the whole list of tokens, and where reading stopped. An expression must be
followed by the end token. -/
def parse (tokens : List Token) : Step :=
  match Cursor.ofTokens? tokens with
  | none => .error .unlocated
  | some c =>
    match derive (depthFor tokens) .expression c with
    | .error h => .error h
    | .ok (r, c) =>
      if r.error.isNone && !c.current.is .endOfText then fail r c .operator else .ok (r, c)

end Grammar

end Reckoner
