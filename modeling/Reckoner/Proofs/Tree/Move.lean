import Reckoner.Tree.Walk
import Reckoner.Value

/-!
# Moving trees

A map of positions moves tokens and trees to other places and changes nothing else. What a tree
says of its place moves along (`Tree.ends?_move`). Moved to one and the same place, tokens and
trees are what they are but for their places (`Tree.bare`).
-/

set_option autoImplicit false

namespace Reckoner

/-! ## Tokens and trees -/

def Span.move (f : Position → Position) (s : Span) : Span := ⟨s.start.map f, s.stop.map f⟩

def Token.move (f : Position → Position) (t : Token) : Token where
  kind := t.kind
  value := t.value
  span := t.span.move f
  complete := by
    have h := t.complete
    rcases hs : t.span with ⟨_ | p, _ | q⟩ <;> rw [hs] at h <;> first | rfl | cases h

mutual

def Tree.move (f : Position → Position) : Tree → Tree
  | .absent => .absent
  | .literal t => .literal (t.move f)
  | .ident t => .ident (t.move f)
  | .assign name value => .assign (name.move f) (value.move f)
  | .unary op operand => .unary (op.move f) (operand.move f)
  | .binary op left right => .binary (op.move f) (left.move f) (right.move f)
  | .conditional branches otherwise => .conditional (branches.move f) (otherwise.move f)
  | .forLoop name first last stride body =>
    .forLoop (name.move f) (first.move f) (last.move f) (stride.move f) (body.move f)
  | .whileLoop condition body => .whileLoop (condition.move f) (body.move f)

def Branches.move (f : Position → Position) : Branches → Branches
  | .nil => .nil
  | .cons condition body rest => .cons (condition.move f) (body.move f) (rest.move f)

end

theorem Branches.move_ofList (f : Position → Position) (l : List (Tree × Tree)) :
    (Branches.ofList l).move f = .ofList (l.map fun x => (x.1.move f, x.2.move f)) := by
  induction l with
  | nil => rfl
  | cons x rest ih => rw [Branches.ofList, Branches.move, ih]; rfl

/-! ## Places -/

variable (f : Position → Position)

theorem Span.ends?_move (s : Span) : (s.move f).ends? = s.ends?.map (Prod.map f f) := by
  rcases s with ⟨_ | p, _ | q⟩ <;> rfl

theorem Tree.start?_move : ∀ t : Tree, (t.move f).start? = t.start?.map (Option.map f)
  | .absent => rfl
  | .literal _ | .ident _ | .assign _ _ | .unary _ _ | .forLoop _ _ _ _ _ => rfl
  | .binary _ left _ => left.start?_move
  | .conditional .nil _ => rfl
  | .conditional (.cons condition _ _) _ => condition.start?_move
  | .whileLoop condition _ => condition.start?_move

mutual

theorem Tree.stop?_move : ∀ t : Tree, (t.move f).stop? = t.stop?.map (Option.map f)
  | .absent => rfl
  | .literal _ | .ident _ => rfl
  | .assign _ t | .unary _ t | .binary _ _ t | .forLoop _ _ _ _ t | .whileLoop _ t =>
    t.stop?_move
  | .conditional branches otherwise => by
    have hotherwise := otherwise.stop?_move
    cases otherwise with
    | absent => exact branches.stop?_move
    | _ => exact hotherwise

theorem Branches.stop?_move : ∀ b : Branches, (b.move f).stop? = b.stop?.map (Option.map f)
  | .nil => rfl
  | .cons _ body .nil => body.stop?_move
  | .cons _ _ (.cons c b rest) => Branches.stop?_move (.cons c b rest)

end

theorem Tree.span?_move (t : Tree) : (t.move f).span? = t.span?.map (Span.move f) := by
  rw [Tree.span?, Tree.span?, t.start?_move, t.stop?_move]
  cases t.start? <;> cases t.stop? <;> rfl

theorem Tree.ends?_move (t : Tree) : (t.move f).ends? = t.ends?.map (Prod.map f f) := by
  rw [Tree.ends?, Tree.ends?, t.span?_move]
  cases t.span? with
  | error why => rfl
  | ok s =>
    rcases s with ⟨_ | p, _ | q⟩ <;> rfl

/-! ## Leaving places aside -/

/-- The token with its positions replaced by one that says nothing. -/
def Token.bare (t : Token) : Token := t.move fun _ => .first ""

/-- The tree with all its positions replaced by one that says nothing. -/
def Tree.bare (t : Tree) : Tree := t.move fun _ => .first ""

end Reckoner
