import Reckoner.Proofs.Evaluation.Nested
import Reckoner.Proofs.Evaluation.Simulation
import Reckoner.Proofs.Tree.Walk

/-!
# Where a value comes from

An assignment has the value of what is assigned, and a conditional that of the branch that is
taken. So the datum of a tree comes from one part of it, a literal, an identifier or an operator
(`Tree.Origin`), and stands where that part does (`Tree.places_evaluate`). What the environment
holds has no say in that: where a value was read, it has the span of the identifier that reads it.
-/

set_option autoImplicit false

namespace Reckoner

open Eval

/-! ## The branch that is taken -/

section

variable {set : Settings}

/-- The body of the first branch whose condition is true. The body is not evaluated. -/
def Branches.taken (set : Settings) : Branches → Eval (Option Tree)
  | .nil => pure none
  | .cons condition body rest => do
    let v ← condition.evaluate set
    note set 3 fun _ => conditionText "if" v
    if v.isTrue then pure (some body) else rest.taken set

theorem Branches.evaluate_eq_taken : ∀ b : Branches, b.evaluate set =
    b.taken set >>= fun o => o.elim (pure none) fun body => do
      let v ← body.evaluate set
      pure (some v)
  | .nil => rfl
  | .cons condition body rest => by
    simp only [Branches.evaluate, taken, bind_assoc, rest.evaluate_eq_taken]
    refine congrArg _ (funext fun v => congrArg _ (funext fun _ => ?_))
    by_cases hv : v.isTrue = true
    · simp only [if_pos hv]
      rfl
    · simp only [if_neg hv]

theorem Branches.taken_mem : ∀ {b : Branches} {s s₁ : State} {body : Tree},
    b.taken set s = (.done (some body), s₁) → body ∈ b.children
  | .nil, _, _, _, h => by cases h
  | .cons condition body rest, s, s₁, body', h => by
    rw [taken, bind_eq_done] at h
    obtain ⟨v, s₂, -, h⟩ := h
    obtain ⟨_, s₃, -, h⟩ := bind_eq_done.1 h
    rw [children, List.mem_cons, List.mem_cons]
    split at h
    · obtain ⟨hbody, -⟩ := pure_eq_done.1 h
      exact .inr (.inl (Option.some.inj hbody).symm)
    · exact .inr (.inr (taken_mem h))

end

/-! ## The part that a value comes from -/

/-- Evaluated from the state `s`, the tree has the value of its part `u`, which is a literal, an
identifier or an operator. -/
inductive Tree.Origin (set : Settings) : Tree → State → Tree → Prop where
  | literal (t : Token) (s : State) : Origin set (.literal t) s (.literal t)
  | ident (t : Token) (s : State) : Origin set (.ident t) s (.ident t)
  | unary (op : Token) (operand : Tree) (s : State) :
      Origin set (.unary op operand) s (.unary op operand)
  | binary (op : Token) (left right : Tree) (s : State) :
      Origin set (.binary op left right) s (.binary op left right)
  | assign {name : Token} {value u : Tree} {s : State} (h : Origin set value s u) :
      Origin set (.assign name value) s u
  | branch {branches : Branches} {otherwise body u : Tree} {s s₁ : State}
      (ht : branches.taken set s = (.done (some body), s₁)) (h : Origin set body s₁ u) :
      Origin set (.conditional branches otherwise) s u
  | otherwise {branches : Branches} {otherwise u : Tree} {s s₁ : State}
      (ht : branches.taken set s = (.done none, s₁)) (h : Origin set otherwise s₁ u) :
      Origin set (.conditional branches otherwise) s u

namespace Tree

variable {set : Settings}

theorem Origin.unique {t u v : Tree} {s : State} (h : t.Origin set s u) (h' : t.Origin set s v) :
    v = u := by
  induction h with
  | literal | ident | unary | binary => cases h'; rfl
  | assign _ ih =>
    cases h' with
    | assign h' => exact ih h'
  | branch ht _ ih =>
    cases h' with
    | branch ht' h' =>
      cases ht.symm.trans ht'
      exact ih h'
    | otherwise ht' => cases ht.symm.trans ht'
  | otherwise ht _ ih =>
    cases h' with
    | branch ht' => cases ht.symm.trans ht'
    | otherwise ht' h' =>
      cases ht.symm.trans ht'
      exact ih h'

theorem Origin.mem_nodes {t u : Tree} {s : State} (h : t.Origin set s u) : u ∈ t.nodes := by
  induction h with
  | literal | ident | unary | binary => exact .head _
  | assign _ ih => exact .tail _ ih
  | branch ht _ ih =>
    have hmem := Branches.nodes_of_children _ (Branches.taken_mem ht) ih
    exact .tail _ (List.mem_append_left _ hmem)
  | otherwise _ _ ih => exact .tail _ (List.mem_append_right _ ih)

/-- Evaluated from the state `s`, the tree has a value that comes from one part of the tree, and
the span is that of this part. -/
def Places (set : Settings) (t : Tree) (s : State) (span : Span) : Prop :=
  ∃ u ∈ t.nodes, (∀ v, t.Origin set s v ↔ v = u) ∧ u.span? = .ok span

theorem Origin.places {t u : Tree} {s : State} {span : Span} (h : t.Origin set s u)
    (hspan : u.span? = .ok span) : t.Places set s span :=
  ⟨u, h.mem_nodes, fun _ => ⟨h.unique, (· ▸ h)⟩, hspan⟩

/-! ## Evaluation -/

/-- A datum comes of the tree only with the span of the part that it comes from. -/
def Traced (set : Settings) (t : Tree) : Prop :=
  ∀ (s s' : State) (d : Datum) (span : Span), t.evaluate set s = (.done (.datum d span), s') →
    ∃ u, t.Origin set s u ∧ u.span? = .ok span

theorem traced_conditional {branches : Branches} {otherwise : Tree}
    (hb : ∀ body ∈ branches.children, body.Traced set) (ho : otherwise.Traced set) :
    (conditional branches otherwise).Traced set := by
  intro s s' d span h
  rw [evaluate_conditional, Branches.evaluate_eq_taken, bind_assoc] at h
  obtain ⟨o, s₁, ht, h⟩ := bind_eq_done.1 h
  -- the body that is taken is no subterm by its form, so the hypothesis is about all children
  cases o with
  | none =>
    have hpresent : otherwise ≠ .absent := by
      rintro rfl
      cases h
    replace h : otherwise.evaluateElse set s₁ = (.done (.datum d span), s') := h
    rw [evaluateElse_of_present set hpresent] at h
    obtain ⟨u, hu, hspan⟩ := ho s₁ s' d span h
    exact ⟨u, .otherwise ht hu, hspan⟩
  | some body =>
    rw [Option.elim_some, bind_assoc] at h
    obtain ⟨v, s₂, hbody, hv⟩ := bind_eq_done.1 h
    obtain ⟨rfl, rfl⟩ := pure_eq_done.1 hv
    obtain ⟨u, hu, hspan⟩ := hb body (Branches.taken_mem ht) s₁ _ d span hbody
    exact ⟨u, .branch ht hu, hspan⟩

theorem traced_ident (t : Token) : (ident t).Traced set := by
  intro s s' d span h
  rw [evaluate_ident] at h
  cases hv : s.environment.get? t.name with
  | some v =>
    rw [hv] at h
    refine ⟨_, .ident t s, ?_⟩
    cases v <;> cases h
    rfl
  | none =>
    rw [hv] at h
    obtain ⟨name, s₁, -, h⟩ := bind_eq_done.1 h
    obtain ⟨ends, s₂, -, h⟩ := bind_eq_done.1 h
    cases h

end Tree

section

variable {set : Settings}

mutual

theorem Tree.traced : ∀ t : Tree, t.Traced set
  | .absent => fun _ _ _ _ h => by cases h
  | .literal t => fun s _ _ _ h => by
    cases h
    exact ⟨_, .literal t s, rfl⟩
  | .ident t => Tree.traced_ident t
  | .assign name value => fun s s' d span h => by
    rw [Tree.evaluate] at h
    obtain ⟨v, s₁, hv, h⟩ := bind_eq_done.1 h
    obtain ⟨_, s₂, -, h⟩ := bind_eq_done.1 h
    obtain ⟨_, s₃, -, h⟩ := bind_eq_done.1 h
    obtain ⟨rfl, -⟩ := pure_eq_done.1 h
    obtain ⟨u, hu, hspan⟩ := value.traced s s₁ d span hv
    exact ⟨u, .assign hu, hspan⟩
  | .unary op operand => fun s s' d span h => by
    rw [Tree.evaluate] at h
    obtain ⟨v, s₁, -, h⟩ := bind_eq_done.1 h
    obtain ⟨x, s₂, -, h⟩ := bind_eq_done.1 h
    obtain ⟨y, s₃, -, h⟩ := bind_eq_done.1 h
    obtain ⟨sp, s₄, hspan, h⟩ := bind_eq_done.1 h
    cases (pure_eq_done.1 h).1
    exact ⟨_, .unary op operand s, (placed_eq_done.1 hspan).1⟩
  | .binary op left right => fun s s' d span h => by
    rw [Tree.evaluate] at h
    obtain ⟨v, s₁, -, h⟩ := bind_eq_done.1 h
    obtain ⟨w, s₂, -, h⟩ := bind_eq_done.1 h
    obtain ⟨x, s₃, -, h⟩ := bind_eq_done.1 h
    obtain ⟨y, s₄, -, h⟩ := bind_eq_done.1 h
    obtain ⟨z, s₅, -, h⟩ := bind_eq_done.1 h
    obtain ⟨sp, s₆, hspan, h⟩ := bind_eq_done.1 h
    cases (pure_eq_done.1 h).1
    exact ⟨_, .binary op left right s, (placed_eq_done.1 hspan).1⟩
  | .conditional branches otherwise => Tree.traced_conditional branches.traced otherwise.traced
  | .forLoop name first last stride body => fun s s' d span h => by
    rw [Tree.evaluate] at h
    obtain ⟨i, s₁, -, h⟩ := bind_eq_done.1 h
    obtain ⟨limit, s₂, -, h⟩ := bind_eq_done.1 h
    obtain ⟨step, s₃, -, h⟩ := bind_eq_done.1 h
    obtain ⟨_, s₄, -, h⟩ := bind_eq_done.1 h
    obtain ⟨_, s₅, -, h⟩ := bind_eq_done.1 h
    cases (pure_eq_done.1 h).1
  | .whileLoop condition body => fun s s' d span h => by
    rw [Tree.evaluate] at h
    obtain ⟨_, s₁, -, h⟩ := bind_eq_done.1 h
    cases (pure_eq_done.1 h).1

theorem Branches.traced : ∀ b : Branches, ∀ t ∈ b.children, t.Traced set
  | .nil => nofun
  | .cons condition body rest => by
    rw [Branches.children, List.forall_mem_cons, List.forall_mem_cons]
    exact ⟨condition.traced, body.traced, rest.traced⟩

end

/-- A datum that comes of a tree has the span of the part of the tree that it comes from. -/
theorem Tree.places_evaluate {t : Tree} {s s' : State} {d : Datum} {span : Span}
    (h : t.evaluate set s = (.done (.datum d span), s')) : t.Places set s span := by
  obtain ⟨u, hu, hspan⟩ := t.traced s s' d span h
  exact hu.places hspan

end

end Reckoner
