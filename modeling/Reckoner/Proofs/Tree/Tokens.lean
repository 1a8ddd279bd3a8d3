import Reckoner.Proofs.Tree.Regular
import Reckoner.Proofs.Tree.Walk

/-!
# The tokens of a tree

The tokens that a tree keeps, in the order of the text. A regular tree reaches from the start of
the first of them to the stop of the last, and those of a subtree stand together within those of
the tree.
-/

set_option autoImplicit false

namespace Reckoner

mutual

def Tree.tokens : Tree → List Token
  | .absent => []
  | .literal t => [t]
  | .ident t => [t]
  | .assign name value => name :: value.tokens
  | .unary op operand => op :: operand.tokens
  | .binary op left right => left.tokens ++ op :: right.tokens
  | .conditional branches otherwise => branches.tokens ++ otherwise.tokens
  | .forLoop name first last stride body =>
    name :: (first.tokens ++ last.tokens ++ stride.tokens ++ body.tokens)
  | .whileLoop condition body => condition.tokens ++ body.tokens

def Branches.tokens : Branches → List Token
  | .nil => []
  | .cons condition body rest => condition.tokens ++ body.tokens ++ rest.tokens

end

/-! ## Subtrees -/

theorem Branches.tokens_of_children : ∀ {b : Branches}, ∀ c ∈ b.children, c.tokens <:+: b.tokens
  | .nil => nofun
  | .cons condition body rest => by
    rw [Branches.children, List.forall_mem_cons, List.forall_mem_cons, Branches.tokens]
    refine ⟨?_, ?_, fun c hc => ?_⟩
    · exact List.infix_append_of_infix_left List.infix_append_left
    · exact List.infix_append _ _ _
    · exact List.infix_append_of_infix_right (Branches.tokens_of_children c hc)

theorem Tree.tokens_of_children (t : Tree) : ∀ c ∈ t.children, c.tokens <:+: t.tokens := by
  cases t with
  | absent | literal t | ident t => nofun
  | conditional branches otherwise =>
    rw [Tree.children, List.forall_mem_append, List.forall_mem_singleton, Tree.tokens]
    refine ⟨fun c hc => ?_, List.infix_append_right⟩
    exact List.infix_append_of_infix_left (Branches.tokens_of_children c hc)
  | assign name t | unary name t =>
    rw [Tree.children, List.forall_mem_singleton, Tree.tokens]
    exact List.infix_cons (List.infix_refl _)
  | binary op left right =>
    rw [Tree.children, List.forall_mem_cons, List.forall_mem_singleton, Tree.tokens]
    exact ⟨List.infix_append_left,
      List.infix_append_of_infix_right (List.infix_cons (List.infix_refl _))⟩
  | forLoop name first last stride body =>
    rw [Tree.children, List.forall_mem_cons, List.forall_mem_cons, List.forall_mem_cons,
      List.forall_mem_singleton, Tree.tokens]
    refine ⟨?_, ?_, ?_, ?_⟩ <;> refine List.infix_cons ?_
    · exact List.infix_append_of_infix_left (List.infix_append_of_infix_left List.infix_append_left)
    · exact List.infix_append_of_infix_left (List.infix_append _ _ _)
    · exact List.infix_append _ _ _
    · exact List.infix_append_right
  | whileLoop condition body =>
    rw [Tree.children, List.forall_mem_cons, List.forall_mem_singleton, Tree.tokens]
    exact ⟨List.infix_append_left, List.infix_append_right⟩

/-- The tokens of a subtree stand together. -/
theorem Tree.tokens_infix {t u : Tree} (hu : u ∈ t.nodes) : u.tokens <:+: t.tokens :=
  t.forall_nodes (R := fun u => u.tokens <:+: t.tokens)
    (fun u hu c hc => (u.tokens_of_children c hc).trans hu) (List.infix_refl _) u hu

/-! ## Ends -/

section

variable {P : Token → Prop}

/-- A regular tree starts where its first token does. -/
theorem Tree.Regular.first_token : ∀ {t : Tree}, t.Regular P →
    ∃ a after, t.tokens = a :: after ∧ t.start? = .ok a.span.start
  | .literal t, _ | .ident t, _ | .assign t _, _ | .unary t _, _ | .forLoop t _ _ _ _, _ =>
    ⟨t, _, rfl, rfl⟩
  | .binary op left right, h => by
    obtain ⟨a, after, ha, hstart⟩ := Tree.Regular.first_token (t := left) h.2.1
    exact ⟨a, after ++ op :: right.tokens, by rw [Tree.tokens, ha, List.cons_append], hstart⟩
  | .conditional .nil _, h => absurd rfl h.1.1
  | .conditional (.cons condition body rest) otherwise, h => by
    obtain ⟨a, after, ha, hstart⟩ := Tree.Regular.first_token (t := condition) h.1.2.1.1
    refine ⟨a, after ++ body.tokens ++ rest.tokens ++ otherwise.tokens, ?_, hstart⟩
    simp only [Tree.tokens, Branches.tokens, ha, List.cons_append]
  | .whileLoop condition body, h => by
    obtain ⟨a, after, ha, hstart⟩ := Tree.Regular.first_token (t := condition) h.1
    exact ⟨a, after ++ body.tokens, by rw [Tree.tokens, ha, List.cons_append], hstart⟩

mutual

/-- A regular tree stops where its last token does. -/
theorem Tree.Regular.last_token : ∀ {t : Tree}, t.Regular P →
    ∃ before z, t.tokens = before ++ [z] ∧ t.stop? = .ok z.span.stop
  | .literal t, _ | .ident t, _ => ⟨[], t, rfl, rfl⟩
  | .assign a t, h | .unary a t, h => by
    obtain ⟨before, z, hz, hstop⟩ := Tree.Regular.last_token (t := t) h.2
    exact ⟨a :: before, z, by rw [Tree.tokens, hz, List.cons_append], hstop⟩
  | .binary op left right, h => by
    obtain ⟨before, z, hz, hstop⟩ := Tree.Regular.last_token (t := right) h.2.2
    refine ⟨left.tokens ++ op :: before, z, ?_, hstop⟩
    rw [Tree.tokens, hz, List.append_assoc, List.cons_append]
  | .conditional branches otherwise, h => by
    rcases h.2 with rfl | ho
    · obtain ⟨before, z, hz, hstop⟩ := Branches.Regular.last_token (b := branches) h.1.2 h.1.1
      exact ⟨before, z, by rw [Tree.tokens, Tree.tokens, List.append_nil, hz], hstop⟩
    · obtain ⟨before, z, hz, hstop⟩ := Tree.Regular.last_token (t := otherwise) ho
      refine ⟨branches.tokens ++ before, z, by rw [Tree.tokens, hz, List.append_assoc], ?_⟩
      cases otherwise with
      | absent => cases ho
      | _ => exact hstop
  | .forLoop name first last stride body, h => by
    obtain ⟨before, z, hz, hstop⟩ := Tree.Regular.last_token (t := body) h.2.2.2
    refine ⟨name :: (first.tokens ++ last.tokens ++ stride.tokens ++ before), z, ?_, hstop⟩
    rw [Tree.tokens, hz, ← List.append_assoc, List.cons_append]
  | .whileLoop condition body, h => by
    obtain ⟨before, z, hz, hstop⟩ := Tree.Regular.last_token (t := body) h.2
    exact ⟨condition.tokens ++ before, z, by rw [Tree.tokens, hz, List.append_assoc], hstop⟩

theorem Branches.Regular.last_token : ∀ {b : Branches}, b.Regular P → b ≠ .nil →
    ∃ before z, b.tokens = before ++ [z] ∧ b.stop? = .ok z.span.stop
  | .nil, _, hne => absurd rfl hne
  | .cons condition body .nil, h, _ => by
    obtain ⟨before, z, hz, hstop⟩ := Tree.Regular.last_token (t := body) h.1.2
    refine ⟨condition.tokens ++ before, z, ?_, hstop⟩
    rw [Branches.tokens, Branches.tokens, List.append_nil, hz, List.append_assoc]
  | .cons condition body (.cons c b rest), h, _ => by
    obtain ⟨before, z, hz, hstop⟩ :=
      Branches.Regular.last_token (b := .cons c b rest) h.2 nofun
    refine ⟨condition.tokens ++ body.tokens ++ before, z, ?_, hstop⟩
    rw [Branches.tokens, hz, ← List.append_assoc]

end

end

end Reckoner
