import Reckoner.Token.Basic

/-!
# Trees

Every construct is an expression, and a tree is one of them. Trees that were read from elsewhere
may lack children, for which `absent` stands; the same stands for a missing `ELSE` and `STEP`.
A tree reaches from its first child's start to its last child's stop.
-/

set_option autoImplicit false

namespace Reckoner

mutual

inductive Tree (τ : Type := Token) where
  | absent
  | literal (token : τ)
  | ident (token : τ)
  | assign (name : τ) (value : Tree τ)
  | unary (op : τ) (operand : Tree τ)
  | binary (op : τ) (left right : Tree τ)
  | conditional (branches : Branches τ) (otherwise : Tree τ)
  | forLoop (name : τ) (first last stride body : Tree τ)
  | whileLoop (condition body : Tree τ)

/-- The conditions of a conditional with their bodies, in order. -/
inductive Branches (τ : Type := Token) where
  | nil
  | cons (condition body : Tree τ) (rest : Branches τ)

end

deriving instance DecidableEq for Tree, Branches

instance : Inhabited Tree := ⟨.absent⟩

namespace Branches

def append : Branches → Branches → Branches
  | .nil, other => other
  | .cons c b rest, other => .cons c b (rest.append other)

def toList : Branches → List (Tree × Tree)
  | .nil => []
  | .cons c b rest => (c, b) :: rest.toList

def ofList : List (Tree × Tree) → Branches
  | [] => .nil
  | (c, b) :: rest => .cons c b (ofList rest)

end Branches

/-! ## Spans -/

/-- Why a tree has no place. -/
inductive Unplaced where
  /-- a child or a position that would be needed is missing -/
  | missing
  /-- a conditional has no branches -/
  | noBranch
  deriving DecidableEq

/-- The start of a tree; none if the token there has no position. -/
def Tree.start? : Tree → Except Unplaced (Option Position)
  | .absent => .error .missing
  | .literal t => .ok t.span.start
  | .ident t => .ok t.span.start
  | .assign name _ => .ok name.span.start
  | .unary op _ => .ok op.span.start
  | .binary _ left _ => left.start?
  | .conditional .nil _ => .error .noBranch
  | .conditional (.cons condition _ _) _ => condition.start?
  | .forLoop name _ _ _ _ => .ok name.span.start
  | .whileLoop condition _ => condition.start?

mutual

/-- The stop of a tree; none if the token there has no position. -/
def Tree.stop? : Tree → Except Unplaced (Option Position)
  | .absent => .error .missing
  | .literal t => .ok t.span.stop
  | .ident t => .ok t.span.stop
  | .assign _ value => value.stop?
  | .unary _ operand => operand.stop?
  | .binary _ _ right => right.stop?
  | .conditional branches .absent => branches.stop?
  | .conditional _ otherwise => otherwise.stop?
  | .forLoop _ _ _ _ body => body.stop?
  | .whileLoop _ body => body.stop?

/-- The stop of the last body. -/
def Branches.stop? : Branches → Except Unplaced (Option Position)
  | .nil => .error .noBranch
  | .cons _ body .nil => body.stop?
  | .cons _ _ rest => rest.stop?

end

namespace Tree

/-- Both ends of a tree, as far as they are known. -/
def span? (t : Tree) : Except Unplaced Span := do
  let start ← t.start?
  let stop ← t.stop?
  return ⟨start, stop⟩

/-- Both ends of a tree, where both are needed. -/
def ends? (t : Tree) : Except Unplaced (Position × Position) := do
  let span ← t.span?
  match span.ends? with
  | some ends => return ends
  | none => .error .missing

/-! ## Names of the forms -/

/-- The name of a tree's form; none for a missing tree. -/
def form : Tree → String
  | .absent => ""
  | .literal _ => "Literal"
  | .ident _ => "Ident"
  | .assign .. => "Assign"
  | .unary .. => "UnaryOp"
  | .binary .. => "BinaryOp"
  | .conditional .. => "IfExpr"
  | .forLoop .. => "ForExpr"
  | .whileLoop .. => "WhileExpr"

end Tree

end Reckoner
