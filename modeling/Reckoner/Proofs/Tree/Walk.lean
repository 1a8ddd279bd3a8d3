import Reckoner.Tree.Walk

/-!
# Children and subtrees

What goes over from a tree to its children holds of all its subtrees (`Tree.forall_nodes`).
-/

set_option autoImplicit false

namespace Reckoner

mutual

/-- The trees that stand directly in a tree, missing ones included, in the order of the text. -/
def Tree.children : Tree → List Tree
  | .absent | .literal _ | .ident _ => []
  | .assign _ value => [value]
  | .unary _ operand => [operand]
  | .binary _ left right => [left, right]
  | .conditional branches otherwise => branches.children ++ [otherwise]
  | .forLoop _ first last stride body => [first, last, stride, body]
  | .whileLoop condition body => [condition, body]

def Branches.children : Branches → List Tree
  | .nil => []
  | .cons condition body rest => condition :: body :: rest.children

end

section

variable {R : Tree → Prop}

mutual

theorem Tree.forall_nodes (step : ∀ u, R u → ∀ c ∈ u.children, R c) :
    ∀ t : Tree, R t → ∀ u ∈ t.nodes, R u
  | .absent, _ => nofun
  | .literal t, h | .ident t, h => fun u hu => List.mem_singleton.1 hu ▸ h
  | .assign name t, h | .unary name t, h => by
    rw [Tree.nodes, List.forall_mem_cons]
    exact ⟨h, t.forall_nodes step (step _ h t (by simp [Tree.children]))⟩
  | .binary op left right, h => by
    have hc := step _ h
    simp only [Tree.children, List.forall_mem_cons] at hc
    rw [Tree.nodes, List.forall_mem_cons, List.forall_mem_append]
    exact ⟨h, left.forall_nodes step hc.1, right.forall_nodes step hc.2.1⟩
  | .conditional branches otherwise, h => by
    have hc := step _ h
    rw [Tree.children, List.forall_mem_append, List.forall_mem_singleton] at hc
    rw [Tree.nodes, List.forall_mem_cons, List.forall_mem_append]
    exact ⟨h, branches.forall_nodes step hc.1, otherwise.forall_nodes step hc.2⟩
  | .forLoop name first last stride body, h => by
    have hc := step _ h
    simp only [Tree.children, List.forall_mem_cons] at hc
    rw [Tree.nodes, List.forall_mem_cons, List.forall_mem_append, List.forall_mem_append,
      List.forall_mem_append]
    exact ⟨h, ⟨⟨first.forall_nodes step hc.1, last.forall_nodes step hc.2.1⟩,
      stride.forall_nodes step hc.2.2.1⟩, body.forall_nodes step hc.2.2.2.1⟩
  | .whileLoop condition body, h => by
    have hc := step _ h
    simp only [Tree.children, List.forall_mem_cons] at hc
    rw [Tree.nodes, List.forall_mem_cons, List.forall_mem_append]
    exact ⟨h, condition.forall_nodes step hc.1, body.forall_nodes step hc.2.1⟩

theorem Branches.forall_nodes (step : ∀ u, R u → ∀ c ∈ u.children, R c) :
    ∀ b : Branches, (∀ c ∈ b.children, R c) → ∀ u ∈ b.nodes, R u
  | .nil, _ => nofun
  | .cons condition body rest, h => by
    rw [Branches.children, List.forall_mem_cons, List.forall_mem_cons] at h
    rw [Branches.nodes, List.forall_mem_append, List.forall_mem_append]
    exact ⟨⟨condition.forall_nodes step h.1, body.forall_nodes step h.2.1⟩,
      rest.forall_nodes step h.2.2⟩

end

end

theorem Tree.self_mem_nodes {t : Tree} (h : t ≠ .absent) : t ∈ t.nodes := by
  cases t with
  | absent => exact absurd rfl h
  | _ => exact .head _

theorem Branches.nodes_of_children : ∀ {b : Branches}, ∀ c ∈ b.children, c.nodes ⊆ b.nodes
  | .nil => nofun
  | .cons condition body rest => by
    rw [Branches.children, List.forall_mem_cons, List.forall_mem_cons, Branches.nodes]
    refine ⟨fun u hu => ?_, fun u hu => ?_, fun c hc u hu => ?_⟩
    · simp [hu]
    · simp [hu]
    · simp [Branches.nodes_of_children c hc hu]

theorem Tree.nodes_of_children (t : Tree) : ∀ c ∈ t.children, c.nodes ⊆ t.nodes := by
  cases t with
  | conditional branches otherwise =>
    intro c hc u hu
    rw [Tree.children, List.mem_append, List.mem_singleton] at hc
    rcases hc with hc | rfl
    · simp [Tree.nodes, Branches.nodes_of_children c hc hu]
    · simp [Tree.nodes, hu]
  | absent | literal t | ident t => nofun
  | _ =>
    intro c hc u hu
    simp only [Tree.children, List.mem_cons, List.not_mem_nil, or_false] at hc
    simp only [Tree.nodes, List.mem_cons, List.mem_append]
    grind

/-- The subtrees of a subtree are subtrees. -/
theorem Tree.nodes_subset {t u : Tree} (hu : u ∈ t.nodes) : u.nodes ⊆ t.nodes :=
  t.forall_nodes (R := fun u => u.nodes ⊆ t.nodes)
    (fun u hu c hc => List.Subset.trans (u.nodes_of_children c hc) hu) (fun _ h => h) u hu

theorem Tree.child_mem_nodes {t u c : Tree} (hu : u ∈ t.nodes) (hc : c ∈ u.children)
    (hne : c ≠ .absent) : c ∈ t.nodes :=
  Tree.nodes_subset hu (u.nodes_of_children c hc (Tree.self_mem_nodes hne))

end Reckoner
