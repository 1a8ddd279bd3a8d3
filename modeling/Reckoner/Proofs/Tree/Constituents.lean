import Reckoner.Proofs.Source

/-!
# Constituents

A tree is made of the name or operator that it keeps and of its children. In the tree of a text
these stand one after the other, in the order in which they are written, and none reaches out of
the tree that it belongs to (`Source.constituents_in_order`).
-/

set_option autoImplicit false

namespace Reckoner

/-! ## What a tree is made of -/

namespace Tree

/-- What stands directly in a tree. -/
inductive Constituent where
  | token (t : Token)
  | tree (t : Tree)

namespace Constituent

def tokens : Constituent → List Token
  | .token t => [t]
  | .tree t => t.tokens

/-- Both ends, where both are needed. -/
def ends? : Constituent → Except Unplaced (Position × Position)
  | .token t =>
    match t.span.ends? with
    | some ends => .ok ends
    | none => .error .missing
  | .tree t => t.ends?

/-- A child, unless it is missing. -/
def present : Tree → List Constituent
  | .absent => []
  | t => [.tree t]

end Constituent

end Tree

/-- The conditions, each before its body. -/
def Branches.constituents : Branches → List Tree.Constituent
  | .nil => []
  | .cons condition body rest => .tree condition :: .tree body :: rest.constituents

/-- The token that a tree keeps and its children, in the order in which they are written. -/
def Tree.constituents : Tree → List Tree.Constituent
  | .absent => []
  | .literal t | .ident t => [.token t]
  | .assign name value => [.token name, .tree value]
  | .unary op operand => [.token op, .tree operand]
  | .binary op left right => [.tree left, .token op, .tree right]
  | .conditional branches otherwise => branches.constituents ++ Constituent.present otherwise
  | .forLoop name first last stride body =>
    [.token name, .tree first, .tree last] ++ Constituent.present stride ++ [.tree body]
  | .whileLoop condition body => [.tree condition, .tree body]

theorem Tree.tokens_present (t : Tree) :
    (Constituent.present t).flatMap Constituent.tokens = t.tokens := by
  cases t <;> simp [Constituent.present, Constituent.tokens, tokens]

theorem Branches.tokens_constituents (b : Branches) :
    b.constituents.flatMap Tree.Constituent.tokens = b.tokens := by
  cases b with
  | nil => rfl
  | cons condition body rest =>
    have ih := Branches.tokens_constituents rest
    simp [constituents, tokens, Tree.Constituent.tokens, ih]

/-- The tokens of a tree are those of its constituents. -/
theorem Tree.tokens_constituents (t : Tree) :
    t.constituents.flatMap Constituent.tokens = t.tokens := by
  cases t with
  | conditional branches otherwise =>
    rw [constituents, List.flatMap_append, Branches.tokens_constituents, tokens_present, tokens]
  | forLoop name first last stride body =>
    rw [constituents, List.flatMap_append, List.flatMap_append, tokens_present, tokens]
    simp [Constituent.tokens]
  | _ => simp [constituents, Constituent.tokens, tokens]

section

variable {P : Token → Prop}

/-- A child that is there is regular. -/
def Tree.Constituent.Regular (P : Token → Prop) : Constituent → Prop
  | .token _ => True
  | .tree t => t.Regular P

theorem Tree.Constituent.regular_present {t : Tree} (h : t = .absent ∨ t.Regular P) :
    ∀ c ∈ Constituent.present t, c.Regular P := by
  rcases h with rfl | h
  · exact List.forall_mem_nil _
  · cases t with
    | absent => cases h
    | _ => exact List.forall_mem_singleton.2 h

theorem Branches.Regular.constituents {b : Branches} (h : b.Regular P) :
    ∀ c ∈ b.constituents, c.Regular P := by
  cases b with
  | nil => exact List.forall_mem_nil _
  | cons condition body rest =>
    rw [Branches.constituents, List.forall_mem_cons, List.forall_mem_cons]
    exact ⟨h.1.1, h.1.2, Branches.Regular.constituents (b := rest) h.2⟩

theorem Tree.Regular.constituents {t : Tree} (h : t.Regular P) :
    ∀ c ∈ t.constituents, c.Regular P := by
  cases t with
  | absent => cases h
  | literal t | ident t => exact List.forall_mem_singleton.2 trivial
  | assign name t | unary name t =>
    exact List.forall_mem_cons.2 ⟨trivial, List.forall_mem_singleton.2 h.2⟩
  | binary op left right =>
    simp only [Tree.constituents, List.forall_mem_cons]
    exact ⟨h.2.1, trivial, h.2.2, List.forall_mem_nil _⟩
  | conditional branches otherwise =>
    rw [Tree.constituents, List.forall_mem_append]
    exact ⟨h.1.2.constituents, Constituent.regular_present h.2⟩
  | forLoop name first last stride body =>
    obtain ⟨_, ⟨hfirst, hlast⟩, hstride, hbody⟩ := h
    simp only [Tree.constituents, List.forall_mem_append, List.forall_mem_cons]
    exact ⟨⟨⟨trivial, hfirst, hlast, List.forall_mem_nil _⟩, Constituent.regular_present hstride⟩,
      hbody, List.forall_mem_nil _⟩
  | whileLoop condition body =>
    simp only [Tree.constituents, List.forall_mem_cons]
    exact ⟨h.1, h.2, List.forall_mem_nil _⟩

/-- A constituent reaches from the start of its first token to the stop of its last one. -/
theorem Tree.Constituent.Regular.ends {c : Constituent} (h : c.Regular P) :
    ∃ a z after before, c.tokens = a :: after ∧ c.tokens = before ++ [z] ∧
      ∀ p q, a.span.start = some p → z.span.stop = some q → c.ends? = .ok (p, q) := by
  cases c with
  | token t =>
    refine ⟨t, t, [], [], rfl, rfl, fun p q hp hq => ?_⟩
    simp only [Constituent.ends?, Span.ends?, hp, hq]
  | tree t =>
    obtain ⟨a, after, ha, hstart⟩ := Tree.Regular.first_token (t := t) h
    obtain ⟨before, z, hz, hstop⟩ := Tree.Regular.last_token (t := t) h
    refine ⟨a, z, after, before, ha, hz, fun p q hp hq => ?_⟩
    rw [Constituent.ends?, Tree.ends?, Tree.span?, hstart, hstop, hp, hq]
    rfl

end

/-! ## Places -/

namespace Scan

variable {file : String} {n : Nat} {ts : List Token}

/-- All tokens stand between the start of the first one and the stop of the last one. -/
theorem InOrder.between (h : InOrder file n ts) {a z : Token} {after before : List Token}
    (ha : ts = a :: after) (hz : ts = before ++ [z]) {i j : Nat}
    (hi : a.span.start = some (place file i)) (hj : z.span.stop = some (place file j)) :
    ∀ t ∈ ts, ∀ i' j', t.span = spanAt file i' j' → i ≤ i' ∧ j' ≤ j := by
  intro t ht i' j' hspan
  obtain ⟨i₁, j₁, haspan, hij₁, -⟩ := h.inside a (by simp [ha])
  obtain ⟨i₂, j₂, hzspan, hij₂, -⟩ := h.inside z (by simp [hz])
  obtain rfl : i₁ = i := by simpa [haspan, spanAt, place] using hi
  obtain rfl : j₂ = j := by simpa [hzspan, spanAt, place] using hj
  obtain ⟨_, _, hspan', hij, -⟩ := h.inside t ht
  obtain ⟨rfl, rfl⟩ := spanAt_inj (hspan.symm.trans hspan')
  have hbefore := h.before
  refine ⟨?_, ?_⟩
  · rw [ha, List.pairwise_cons] at hbefore
    rw [ha, List.mem_cons] at ht
    rcases ht with rfl | ht
    · exact (spanAt_inj (haspan.symm.trans hspan)).1.le
    · have := hbefore.1 t ht i₁ j₁ i' j' haspan hspan
      omega
  · rw [hz, List.pairwise_append] at hbefore
    rw [hz, List.mem_append, List.mem_singleton] at ht
    rcases ht with ht | rfl
    · have := hbefore.2.2 t ht z (List.mem_singleton.2 rfl) i' j' i₂ j₂ hspan hzspan
      omega
    · exact (spanAt_inj (hspan.symm.trans hzspan)).2.le

end Scan

open Scan

section

variable {P : Token → Prop} {file : String} {n : Nat}

/-- A constituent reaches over some characters, from those of its first token to those of its last
one. -/
theorem Tree.Constituent.Regular.ends_inside {c : Constituent} (h : c.Regular P)
    (ho : InOrder file n c.tokens) : ∃ i j, c.ends? = .ok (place file i, place file j) ∧ i < j ∧
      (∃ a ∈ c.tokens, ∃ i', a.span = spanAt file i i') ∧
      ∃ z ∈ c.tokens, ∃ j', z.span = spanAt file j' j := by
  obtain ⟨a, z, after, before, ha, hz, hends⟩ := h.ends
  obtain ⟨i, j, hi, hj, hij, -⟩ := ho.ends ha hz
  have hmema : a ∈ c.tokens := by simp [ha]
  have hmemz : z ∈ c.tokens := by simp [hz]
  obtain ⟨i₁, j₁, haspan, -⟩ := ho.inside a hmema
  obtain ⟨i₂, j₂, hzspan, -⟩ := ho.inside z hmemz
  obtain rfl : i₁ = i := by simpa [haspan, spanAt, place] using hi
  obtain rfl : j₂ = j := by simpa [hzspan, spanAt, place] using hj
  exact ⟨i₁, j₂, hends _ _ hi hj, hij, ⟨a, hmema, j₁, haspan⟩, z, hmemz, i₂, hzspan⟩

/-- Where the tokens of a tree are in order, its constituents reach over some characters each,
within the tree and one after the other. -/
theorem Tree.Regular.ordered {t : Tree} (h : t.Regular P)
    (ho : InOrder file n t.tokens) :
    ∃ i j, t.ends? = .ok (place file i, place file j) ∧ i < j ∧ j ≤ n ∧
      (∀ c ∈ t.constituents, ∃ i' j', c.ends? = .ok (place file i', place file j') ∧
        i ≤ i' ∧ i' < j' ∧ j' ≤ j) ∧
      t.constituents.Pairwise fun c c' => ∀ p q p' q',
        c.ends? = .ok (p, q) → c'.ends? = .ok (p', q') → q.index ≤ p'.index := by
  obtain ⟨a, after, ha, hstart⟩ := h.first_token
  obtain ⟨before, z, hz, hstop⟩ := h.last_token
  obtain ⟨i, j, hi, hj, hij, hjn⟩ := ho.ends ha hz
  have hbetween := ho.between ha hz hi hj
  have htokens : ∀ c ∈ t.constituents, c.tokens.Sublist t.tokens := by
    intro c hc
    rw [← t.tokens_constituents, List.flatMap_def]
    exact List.sublist_flatten_of_mem (List.mem_map_of_mem hc)
  have hends : ∀ c ∈ t.constituents, _ := fun c hc =>
    (h.constituents c hc).ends_inside (ho.sublist (htokens c hc))
  refine ⟨i, j, ?_, hij, hjn, fun c hc => ?_, ?_⟩
  · rw [Tree.ends?, Tree.span?, hstart, hstop, hi, hj]
    rfl
  · obtain ⟨i', j', hc', hij', ⟨a', ha', i₂, haspan⟩, z', hz', j₂, hzspan⟩ := hends c hc
    have hstart' := (hbetween a' ((htokens c hc).subset ha') i' i₂ haspan).1
    have hstop' := (hbetween z' ((htokens c hc).subset hz') j₂ j' hzspan).2
    exact ⟨i', j', hc', hstart', hij', hstop'⟩
  · have hbefore := ho.before
    rw [← t.tokens_constituents, List.pairwise_flatMap] at hbefore
    refine hbefore.2.imp_of_mem fun {c c'} hc hc' hlt p q p' q' hcends hcends' => ?_
    obtain ⟨i₁, j₁, hc₁, -, -, z', hz', j₂, hzspan⟩ := hends c hc
    obtain ⟨i₁', j₁', hc₁', -, ⟨a', ha', i₂, haspan⟩, -⟩ := hends c' hc'
    obtain ⟨-, rfl⟩ := Prod.mk.inj (Except.ok.inj (hc₁.symm.trans hcends))
    obtain ⟨rfl, -⟩ := Prod.mk.inj (Except.ok.inj (hc₁'.symm.trans hcends'))
    exact Int.ofNat_le.2 (hlt z' hz' a' ha' _ _ _ _ hzspan haspan)

end

namespace Source

/-- Every part of the tree of a text reaches over some of its characters. So does each of its
constituents, within that part, and each of them stops before the next one starts. -/
theorem constituents_in_order {file text : String} {t : Tree} (h : tree file text = .ok t) :
    ∀ u ∈ t.nodes, ∃ i j, u.ends? = .ok (place file i, place file j) ∧ i < j ∧ j ≤ text.length ∧
      (∀ c ∈ u.constituents, ∃ i' j', c.ends? = .ok (place file i', place file j') ∧
        i ≤ i' ∧ i' < j' ∧ j' ≤ j) ∧
      u.constituents.Pairwise fun c c' => ∀ p q p' q',
        c.ends? = .ok (p, q) → c'.ends? = .ok (p', q') → q.index ≤ p'.index :=
  fun u hu => ((regular h).nodes u hu).ordered
    ((inOrder h).sublist (Tree.tokens_infix hu).sublist)

/-- The sum reaches from its first number to its last one, without the parentheses around it. -/
theorem sum_in_order :
    let text := "IF a DO (1 + 22) ELSE 3"
    let ends i j := (place "<stdin>" i, place "<stdin>" j)
    ∃ t u, tree "<stdin>" text = .ok t ∧ u ∈ t.nodes ∧ u.ends? = .ok (ends 9 15) ∧
      ∀ c ∈ u.constituents, ∃ i j, c.ends? = .ok (ends i j) ∧ 9 ≤ i ∧ i < j ∧ j ≤ 15 := by
  intro text ends
  have h : ((tree "<stdin>" text).toOption.any fun t =>
      t.nodes.any fun u => u.ends? = .ok (ends 9 15)) = true := by decide +kernel
  obtain ⟨t, ht, hany⟩ := (Option.any_eq_true _ _).1 h
  obtain ⟨u, hu, hends⟩ := List.any_eq_true.1 hany
  have hends : u.ends? = .ok (ends 9 15) := of_decide_eq_true hends
  have ht : tree "<stdin>" text = .ok t := by
    cases htree : tree "<stdin>" text with
    | error e => rw [htree] at ht; cases ht
    | ok t' => rw [htree] at ht; cases ht; rfl
  obtain ⟨i, j, hij, -, -, hinside, -⟩ := constituents_in_order ht u hu
  obtain ⟨hi, hj⟩ := Prod.mk.inj (Except.ok.inj (hij.symm.trans hends))
  obtain rfl : i = 9 := Int.ofNat_inj.1 (congrArg Position.index hi)
  obtain rfl : j = 15 := Int.ofNat_inj.1 (congrArg Position.index hj)
  exact ⟨t, u, ht, hu, hends, hinside⟩

end Source

end Reckoner
