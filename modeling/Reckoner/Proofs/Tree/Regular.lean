import Reckoner.Proofs.Grammar.Production
import Reckoner.Operator
import Reckoner.Tree.Walk

/-!
# Regular trees

A tree is regular if only an `ELSE` and a `STEP` are missing in it, each conditional has a
branch, and each token in it is of the kind that its place asks for. `P` says what else is known
of the tokens. Regular trees of tokens with places have places themselves, and so have all their
subtrees.
-/

set_option autoImplicit false

namespace Reckoner

open Grammar

namespace Token

/-- Whether the token stands for a binary operator. -/
def IsOperator (t : Token) : Prop :=
  (∃ l : Level, l.admits t.mark = true) ∨ Terminal.power.admits t.mark = true

/-- Whether the token may stand before an operand. -/
def IsPrefix (t : Token) : Prop :=
  Level.additive.admits t.mark = true ∨ t.mark = .keyword .not

end Token

mutual

def Tree.Regular (P : Token → Prop) : Tree → Prop
  | .absent => False
  | .literal t => Terminal.number.admits t.mark = true ∧ P t
  | .ident t => Terminal.name.admits t.mark = true ∧ P t
  | .assign name value => (Terminal.name.admits name.mark = true ∧ P name) ∧ value.Regular P
  | .unary op operand => (op.IsPrefix ∧ P op) ∧ operand.Regular P
  | .binary op left right => (op.IsOperator ∧ P op) ∧ left.Regular P ∧ right.Regular P
  | .conditional branches otherwise =>
    (branches ≠ .nil ∧ branches.Regular P) ∧ (otherwise = .absent ∨ otherwise.Regular P)
  | .forLoop name first last stride body =>
    (Terminal.name.admits name.mark = true ∧ P name) ∧ (first.Regular P ∧ last.Regular P) ∧
      (stride = .absent ∨ stride.Regular P) ∧ body.Regular P
  | .whileLoop condition body => condition.Regular P ∧ body.Regular P

def Branches.Regular (P : Token → Prop) : Branches → Prop
  | .nil => True
  | .cons condition body rest => (condition.Regular P ∧ body.Regular P) ∧ rest.Regular P

end

/-- Every operator of a regular tree is known. -/
theorem Token.IsOperator.known {t : Token} (h : t.IsOperator) :
    ∃ op, Operator.ofKey? t.operatorKey = some op := by
  have symbol : ∀ k : Symbol, k ≠ .keyword → t.mark = .symbol k →
      (Operator.ofKey? (.text k.label)).isSome = true →
      ∃ op, Operator.ofKey? t.operatorKey = some op := by
    intro k hk hm hs
    rw [operatorKey_of_symbol hk hm]
    exact Option.isSome_iff_exists.1 hs
  rcases h with ⟨l, h⟩ | h
  · cases l with
    | logical =>
      simp only [Level.admits, Bool.or_eq_true, beq_iff_eq] at h
      rcases h with h | h <;> exact ⟨_, by rw [operatorKey_of_keyword h]; rfl⟩
    | comparison =>
      simp only [Level.admits, Bool.or_eq_true, beq_iff_eq] at h
      rcases h with ((((h | h) | h) | h) | h) | h <;> exact symbol _ (by decide) h rfl
    | additive | multiplicative =>
      simp only [Level.admits, Bool.or_eq_true, beq_iff_eq] at h
      rcases h with h | h <;> exact symbol _ (by decide) h rfl
  · exact symbol _ (by decide) (beq_iff_eq.1 h) rfl

/-! ## Places -/

section

variable {P : Token → Prop}

theorem Tree.Regular.start (hP : ∀ t, P t → t.Located) :
    ∀ {t : Tree}, t.Regular P → ∃ p, t.start? = .ok (some p)
  | .literal t, h | .ident t, h | .assign t _, h | .unary t _, h | .forLoop t _ _ _ _, h => by
    obtain ⟨p, q, hp, hq⟩ := (hP t (by first | exact h.2 | exact h.1.2)).ends
    exact ⟨p, by simp only [Tree.start?, hp]⟩
  | .binary _ left _, h => Tree.Regular.start hP (t := left) h.2.1
  | .conditional .nil _, h => absurd rfl h.1.1
  | .conditional (.cons condition _ _) _, h => Tree.Regular.start hP (t := condition) h.1.2.1.1
  | .whileLoop condition _, h => Tree.Regular.start hP (t := condition) h.1

mutual

theorem Tree.Regular.stop (hP : ∀ t, P t → t.Located) :
    ∀ {t : Tree}, t.Regular P → ∃ q, t.stop? = .ok (some q)
  | .literal t, h | .ident t, h => by
    obtain ⟨p, q, hp, hq⟩ := (hP t h.2).ends
    exact ⟨q, by simp only [Tree.stop?, hq]⟩
  | .assign _ t, h | .unary _ t, h => Tree.Regular.stop hP (t := t) h.2
  | .binary _ _ right, h => Tree.Regular.stop hP (t := right) h.2.2
  | .conditional branches otherwise, h => by
    rcases h.2 with rfl | ho
    · exact Branches.Regular.stop hP (b := branches) h.1.2 h.1.1
    · obtain ⟨q, hq⟩ := Tree.Regular.stop hP (t := otherwise) ho
      cases otherwise with
      | absent => cases ho
      | _ => exact ⟨q, hq⟩
  | .forLoop _ _ _ _ body, h => Tree.Regular.stop hP (t := body) h.2.2.2
  | .whileLoop _ body, h => Tree.Regular.stop hP (t := body) h.2

theorem Branches.Regular.stop (hP : ∀ t, P t → t.Located) :
    ∀ {b : Branches}, b.Regular P → b ≠ .nil → ∃ q, b.stop? = .ok (some q)
  | .nil, _, hne => absurd rfl hne
  | .cons _ body .nil, h, _ => Tree.Regular.stop hP (t := body) h.1.2
  | .cons _ _ (.cons c b rest), h, _ => Branches.Regular.stop hP (b := .cons c b rest) h.2 nofun

end

theorem Tree.Regular.span (hP : ∀ t, P t → t.Located) {t : Tree} (h : t.Regular P) :
    ∃ p q, t.span? = .ok ⟨some p, some q⟩ := by
  obtain ⟨p, hp⟩ := h.start hP
  obtain ⟨q, hq⟩ := h.stop hP
  exact ⟨p, q, by rw [Tree.span?, hp, hq]; rfl⟩

theorem Tree.Regular.ends (hP : ∀ t, P t → t.Located) {t : Tree} (h : t.Regular P) :
    ∃ ends, t.ends? = .ok ends := by
  obtain ⟨p, q, hs⟩ := h.span hP
  exact ⟨(p, q), by rw [Tree.ends?, hs]; rfl⟩

/-! ## Subtrees -/

mutual

/-- Every subtree of a regular tree is regular. -/
theorem Tree.Regular.nodes : ∀ {t : Tree}, t.Regular P → ∀ u ∈ t.nodes, u.Regular P
  | .literal t, h | .ident t, h => by
    intro u hu
    obtain rfl := List.mem_singleton.1 hu
    exact h
  | .assign _ t, h | .unary _ t, h => by
    rw [Tree.nodes, List.forall_mem_cons]
    exact ⟨h, Tree.Regular.nodes (t := t) h.2⟩
  | .binary _ left right, h => by
    rw [Tree.nodes, List.forall_mem_cons, List.forall_mem_append]
    exact ⟨h, Tree.Regular.nodes (t := left) h.2.1, Tree.Regular.nodes (t := right) h.2.2⟩
  | .conditional branches otherwise, h => by
    rw [Tree.nodes, List.forall_mem_cons, List.forall_mem_append]
    refine ⟨h, Branches.Regular.nodes (b := branches) h.1.2, ?_⟩
    rcases h.2 with rfl | ho
    · exact nofun
    · exact Tree.Regular.nodes (t := otherwise) ho
  | .forLoop name first last stride body, h => by
    have ⟨_, ⟨hf, hl⟩, hs, hb⟩ := h
    rw [Tree.nodes, List.forall_mem_cons, List.forall_mem_append, List.forall_mem_append,
      List.forall_mem_append]
    refine ⟨h, ⟨⟨Tree.Regular.nodes (t := first) hf, Tree.Regular.nodes (t := last) hl⟩, ?_⟩,
      Tree.Regular.nodes (t := body) hb⟩
    rcases hs with rfl | hs
    · exact nofun
    · exact Tree.Regular.nodes (t := stride) hs
  | .whileLoop condition body, h => by
    rw [Tree.nodes, List.forall_mem_cons, List.forall_mem_append]
    exact ⟨h, Tree.Regular.nodes (t := condition) h.1, Tree.Regular.nodes (t := body) h.2⟩

theorem Branches.Regular.nodes : ∀ {b : Branches}, b.Regular P → ∀ u ∈ b.nodes, u.Regular P
  | .nil, _ => nofun
  | .cons condition body rest, h => by
    rw [Branches.nodes, List.forall_mem_append, List.forall_mem_append]
    exact ⟨⟨Tree.Regular.nodes (t := condition) h.1.1, Tree.Regular.nodes (t := body) h.1.2⟩,
      Branches.Regular.nodes (b := rest) h.2⟩

end

end

end Reckoner
