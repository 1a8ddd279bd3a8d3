import Reckoner.Tree.Basic

/-!
# Walking a tree

`nodes` lists a tree and its subtrees, each before its children and the children in the order of
the text. Missing children are left out.
-/

set_option autoImplicit false

namespace Reckoner

mutual

def Tree.nodes : Tree → List Tree
  | .absent => []
  | .literal t => [.literal t]
  | .ident t => [.ident t]
  | .assign name value => .assign name value :: value.nodes
  | .unary op operand => .unary op operand :: operand.nodes
  | .binary op left right => .binary op left right :: (left.nodes ++ right.nodes)
  | .conditional branches otherwise =>
    .conditional branches otherwise :: (branches.nodes ++ otherwise.nodes)
  | .forLoop name first last stride body =>
    .forLoop name first last stride body ::
      (first.nodes ++ last.nodes ++ stride.nodes ++ body.nodes)
  | .whileLoop condition body => .whileLoop condition body :: (condition.nodes ++ body.nodes)

def Branches.nodes : Branches → List Tree
  | .nil => []
  | .cons condition body rest => condition.nodes ++ body.nodes ++ rest.nodes

end

namespace Tree

/-- The datum that tells a tree from others of its form: the value of a literal, the name of an
identifier, an assignment or a loop variable, the key of an operator. -/
def label : Tree → Datum
  | .literal t => t.value
  | .ident t => t.value
  | .assign name _ => name.value
  | .unary op _ => op.operatorKey
  | .binary op _ _ => op.operatorKey
  | .forLoop name _ _ _ _ => name.value
  | _ => .blank

end Tree

end Reckoner
