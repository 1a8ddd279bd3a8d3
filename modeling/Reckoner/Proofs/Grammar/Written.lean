import Mathlib.Data.List.Forall2
import Reckoner.Proofs.Grammar.Regularity

/-!
# Writing trees with parentheses

`Tree.outline` writes a tree as tokens with each child in parentheses. A spot of an outline is a
token that the tree keeps or, for punctuation, any token of a kind. What is enclosed is an atom
whatever comes after it (`Spelled.atom`), so each child can stand in each place, and the tokens
are parsed to the tree that was written (`Tree.Regular.accepts_outline`).
-/

set_option autoImplicit false

namespace Reckoner

open Grammar

/-! ## Outlines -/

/-- A place in a list of tokens. -/
inductive Spot where
  /-- of this token and no other -/
  | kept (t : Token)
  /-- of any token of the kind -/
  | any (k : Terminal)

namespace Spot

abbrev word (w : Keyword) : Spot := .any (.keyword w)

/-- The token may stand in the spot. -/
def Holds : Spot → Token → Prop
  | .kept t, x => x = t
  | .any k, x => k.admits x.mark = true

/-- Each of the tokens may stand in the spot in its place. -/
def Filled (spots : List Spot) (ts : List Token) : Prop := List.Forall₂ Holds spots ts

def enclosed (spots : List Spot) : List Spot :=
  .any .openParen :: (spots ++ [.any .closeParen])

/-- A word and what it leads, unless the tree is missing. -/
def clause (w : Keyword) : Tree → List Spot → List Spot
  | .absent, _ => []
  | _, spots => .word w :: enclosed spots

end Spot

open Spot

mutual

def Tree.outline : Tree → List Spot
  | .absent => []
  | .literal t | .ident t => [.kept t]
  | .assign name value => .word .var :: .kept name :: .any .assign :: enclosed value.outline
  | .unary op operand => .kept op :: enclosed operand.outline
  | .binary op left right => enclosed left.outline ++ .kept op :: enclosed right.outline
  | .conditional branches otherwise =>
    branches.outline .ifWord ++ clause .elseWord otherwise otherwise.outline
  | .forLoop name first last stride body =>
    .word .forWord :: .kept name :: .any .assign :: (enclosed first.outline ++
      .word .upto :: (enclosed last.outline ++ (clause .step stride stride.outline ++
      .word .doWord :: enclosed body.outline)))
  | .whileLoop condition body =>
    .word .whileWord :: (enclosed condition.outline ++ .word .doWord :: enclosed body.outline)

/-- The first condition comes after the given word, all others after `ELIF`. -/
def Branches.outline (w : Keyword) : Branches → List Spot
  | .nil => []
  | .cons condition body rest =>
    .word w :: (enclosed condition.outline ++ .word .doWord :: (enclosed body.outline ++
      rest.outline .elifWord))

end

theorem Branches.ofList_toList : ∀ b : Branches, .ofList b.toList = b
  | .nil => rfl
  | .cons condition body rest =>
    congrArg (Branches.cons condition body) (Branches.ofList_toList rest)

/-! ## Filled outlines -/

namespace Spot.Filled

variable {spots spots' : List Spot} {ts : List Token}

theorem eq_nil (h : Filled [] ts) : ts = [] := by
  cases h
  rfl

theorem kept {t : Token} (h : Filled (.kept t :: spots) ts) :
    ∃ u, ts = t :: u ∧ Filled spots u := by
  cases h with
  | cons ht h => exact ⟨_, congrArg (· :: _) ht, h⟩

theorem any {k : Terminal} (h : Filled (.any k :: spots) ts) :
    ∃ t u, ts = t :: u ∧ k.admits t.mark = true ∧ Filled spots u := by
  cases h with
  | cons ht h => exact ⟨_, _, rfl, ht, h⟩

theorem append (h : Filled (spots ++ spots') ts) :
    ∃ u v, ts = u ++ v ∧ Filled spots u ∧ Filled spots' v := by
  induction spots generalizing ts with
  | nil => exact ⟨[], ts, rfl, List.Forall₂.nil, h⟩
  | cons s spots ih =>
    cases h with
    | cons ht h =>
      obtain ⟨u, v, rfl, hu, hv⟩ := ih h
      exact ⟨_ :: u, v, rfl, List.Forall₂.cons ht hu, hv⟩

theorem enclosed (h : Filled (Spot.enclosed spots) ts) :
    ∃ o u c, ts = o :: (u ++ [c]) ∧ Terminal.openParen.admits o.mark = true ∧
      Terminal.closeParen.admits c.mark = true ∧ Filled spots u := by
  obtain ⟨o, _, rfl, ho, h⟩ := Filled.any h
  obtain ⟨u, _, rfl, hu, h⟩ := h.append
  obtain ⟨c, _, rfl, hc, h⟩ := h.any
  obtain rfl := h.eq_nil
  exact ⟨o, u, c, rfl, ho, hc, hu⟩

theorem clause {w : Keyword} {t : Tree} (h : Filled (Spot.clause w t spots) ts) :
    (t = .absent ∧ ts = []) ∨ t ≠ .absent ∧ ∃ x u, ts = x :: u ∧
      (Terminal.keyword w).admits x.mark = true ∧ Filled (Spot.enclosed spots) u := by
  cases t with
  | absent => exact .inl ⟨rfl, h.eq_nil⟩
  | _ => exact .inr ⟨by simp, Filled.any h⟩

end Spot.Filled

namespace Grammar

/-! ## Greedy derivations, from their tokens -/

/-- The items are read along the tokens before `after`, and mean `x`. -/
def Reads (is : List Item) (ts : List Token) (x : Meanings is) (after : List Token) : Prop :=
  ∃ d : Derivation is, d.tokens = ts ∧ d.meanings = x ∧ d.Greedy after

namespace Reads

variable {is : List Item} {ts ts' after : List Token}

theorem nil : Reads [] [] () after := ⟨.nil, rfl, rfl, trivial⟩

theorem token {k : Terminal} {t : Token} {x : Meanings is} (hk : k.admits t.mark = true)
    (h : Reads is ts x after) : Reads (.token k :: is) (t :: ts) (t, x) after := by
  obtain ⟨d, rfl, rfl, hg⟩ := h
  exact ⟨.token t hk d, rfl, rfl, hg⟩

/-- A phrase by one of its productions. -/
theorem single {p : Phrase} (q : Production p) {y : Meanings q.items}
    (h : Reads q.items ts y after) (hq : q.FitsBefore after) :
    Reads [.phrase p] ts (q.build y, ()) after := by
  obtain ⟨inner, rfl, rfl, hi⟩ := h
  exact ⟨.phrase q inner .nil, by simp, rfl, hq, hi, trivial⟩

/-- A phrase, and the items after it. -/
theorem append {p : Phrase} {y : p.Meaning} {x : Meanings is}
    (hp : Reads [.phrase p] ts (y, ()) (ts' ++ after)) (h : Reads is ts' x after) :
    Reads (.phrase p :: is) (ts ++ ts') (y, x) after := by
  obtain ⟨d, rfl, hy, hg⟩ := hp
  obtain ⟨rest, rfl, rfl, hr⟩ := h
  cases d with
  | phrase q inner none =>
    cases none
    cases hy
    exact ⟨.phrase q inner rest, by simp, rfl, hg.1, hg.2.1, hr⟩

/-- A part that is left out. -/
theorem omitted {o : Part} (h : o.opens (lookahead after) = false) :
    Reads [.part o] [] ((Production.omitted o).build (), ()) after :=
  single (.omitted o) nil h

/-- A phrase, and a part that is left out after it. -/
theorem append_omitted {p : Phrase} {o : Part} {y : p.Meaning}
    (h : Reads [.phrase p] ts (y, ()) after) (ho : o.opens (lookahead after) = false) :
    Reads [.phrase p, .part o] ts (y, (Production.omitted o).build (), ()) after := by
  rw [← List.append_nil ts]
  exact append h (omitted ho)

end Reads

/-! ## What comes after -/

/-- No operator comes first, unless it is one of the level. -/
structure Bounded (l : Level) (after : List Token) : Prop where
  operations : ∀ l' : Level, l' ≠ l → (Part.operations l').opens (lookahead after) = false
  exponent : Part.exponent.opens (lookahead after) = false

/-- No operator comes first. -/
structure Quits (after : List Token) : Prop where
  operations : ∀ l : Level, (Part.operations l).opens (lookahead after) = false
  exponent : Part.exponent.opens (lookahead after) = false

/-- Nothing comes first that opens a part. -/
def Stops (after : List Token) : Prop := ∀ o : Part, o.opens (lookahead after) = false

theorem Quits.bounded {after : List Token} (h : Quits after) (l : Level) : Bounded l after :=
  ⟨fun l' _ => h.operations l', h.exponent⟩

theorem Stops.quits {after : List Token} (h : Stops after) : Quits after :=
  ⟨fun _ => h _, h _⟩

theorem Terminal.Closes.stops {k : Terminal} (hk : k.Closes) {t : Token}
    (ht : k.admits t.mark = true) (ts : List Token) : Stops (t :: ts) :=
  fun o => hk o _ ht

theorem quits_of_keyword {w : Keyword} (hand : w ≠ .and) (hor : w ≠ .or) {t : Token}
    (ht : (Terminal.keyword w).admits t.mark = true) (ts : List Token) : Quits (t :: ts) := by
  have hmark : t.mark = .keyword w := beq_iff_eq.1 ht
  refine ⟨fun l => ?_, ?_⟩
  · cases l <;> simp [lookahead, hmark, Part.opens, Level.admits, hand, hor]
  · simp [lookahead, hmark, Part.opens]

theorem bounded_of_admits {l : Level} {op : Token} (hop : l.admits op.mark = true)
    (ts : List Token) : Bounded l (op :: ts) := by
  have other : ∀ o : Part, o ≠ .operations l → o.opens op.mark = false := by
    intro o hne
    by_cases ho : o.opens op.mark = true
    · have hl : (Part.operations l).opens op.mark = true := hop
      exact absurd (eq_of_opens ho hl) hne
    · simpa using ho
  exact ⟨fun l' hne => other _ (by simpa using hne), other _ (by simp)⟩

/-! ## Operands and expressions -/

/-- The rule for operands of a level and the operators between them. -/
def Level.rule : Level → Rule
  | .logical => .expression
  | .comparison => .condition
  | .additive => .sum
  | .multiplicative => .product

namespace Reads

variable {ts ts' after : List Token} {t : Tree}

theorem level {l : Level} {f : Tree → Tree}
    (h : Reads [.rule l.operand, .part (.operations l)] ts (t, f, ()) after) :
    Reads [.rule l.rule] ts (f t, ()) after := by
  cases l with
  | logical => exact single .logical h trivial
  | comparison => exact single .comparison h trivial
  | additive => exact single .sum h trivial
  | multiplicative => exact single .product h trivial

/-- A single operand. -/
theorem alone {l : Level} (h : Reads [.rule l.operand] ts (t, ()) after)
    (hl : (Part.operations l).opens (lookahead after) = false) :
    Reads [.rule l.rule] ts (t, ()) after :=
  (append_omitted h hl).level

theorem factor (h : Reads [.rule .atom] ts (t, ()) after)
    (he : Part.exponent.opens (lookahead after) = false) :
    Reads [.rule .factor] ts (t, ()) after :=
  single .unsigned (single .power (append_omitted h he) trivial) trivial

/-- Before an operator of its level an atom is an operand. -/
theorem operand {l : Level} (h : Reads [.rule .atom] ts (t, ()) after) (ha : Bounded l after) :
    Reads [.rule l.operand] ts (t, ()) after := by
  have hfactor := h.factor ha.exponent
  have hproduct (hl : .multiplicative ≠ l) : Reads [.rule .product] ts (t, ()) after :=
    hfactor.alone (l := .multiplicative) (ha.operations _ hl)
  have hsum (hl : .multiplicative ≠ l) (hl' : .additive ≠ l) :
      Reads [.rule .sum] ts (t, ()) after :=
    (hproduct hl).alone (l := .additive) (ha.operations _ hl')
  cases l with
  | multiplicative => exact hfactor
  | additive => exact hproduct (by simp)
  | comparison => exact hsum (by simp) (by simp)
  | logical =>
    exact (hsum (by simp) (by simp)).alone (l := .comparison) (ha.operations _ (by simp))

/-- Where no operator comes after it, what is read at a level is an expression. -/
theorem expression {l : Level} (h : Reads [.rule l.rule] ts (t, ()) after) (ha : Quits after) :
    Reads [.rule .expression] ts (t, ()) after := by
  have hcondition (h : Reads [.rule .condition] ts (t, ()) after) :
      Reads [.rule .expression] ts (t, ()) after :=
    h.alone (l := .logical) (ha.operations _)
  have hsum (h : Reads [.rule .sum] ts (t, ()) after) :
      Reads [.rule .expression] ts (t, ()) after :=
    hcondition (h.alone (l := .comparison) (ha.operations _))
  cases l with
  | logical => exact h
  | comparison => exact hcondition h
  | additive => exact hsum h
  | multiplicative => exact hsum (h.alone (l := .additive) (ha.operations _))

theorem expression_of_operand {l : Level} (h : Reads [.rule l.operand] ts (t, ()) after)
    (ha : Quits after) : Reads [.rule .expression] ts (t, ()) after :=
  (h.alone (ha.operations l)).expression ha

theorem expression_of_atom (h : Reads [.rule .atom] ts (t, ()) after) (ha : Quits after) :
    Reads [.rule .expression] ts (t, ()) after :=
  (h.operand (ha.bounded .logical)).expression_of_operand ha

/-- An operator and its right operand, and no operator after them. -/
theorem operation {l : Level} {op : Token} (hop : l.admits op.mark = true)
    (h : Reads [.rule .atom] ts (t, ()) after) (ha : Quits after) :
    Reads [.part (.operations l)] (op :: ts) (fun left => .binary op left t, ()) after :=
  single (.operation l)
    (token (k := .operator l) hop (append_omitted (h.operand (ha.bounded l)) (ha.operations l)))
    trivial

end Reads

/-! ## Trees that are written -/

/-- However its outline is filled, the tree is read along it. -/
def Spelled (t : Tree) : Prop :=
  ∀ ts after, Filled t.outline ts → Stops after → Reads [.rule .expression] ts (t, ()) after

namespace Spelled

variable {ts after : List Token} {t : Tree}

/-- In parentheses a tree is an atom, whatever comes after it. -/
theorem atom (h : Spelled t) (ht : Filled (enclosed t.outline) ts) :
    Reads [.rule .atom] ts (t, ()) after := by
  obtain ⟨o, u, c, rfl, ho, hc, hu⟩ := ht.enclosed
  have hinner := h u (c :: after) hu (closeParen_closes.stops hc after)
  exact .single .group (.token ho (.append hinner (.token hc .nil))) trivial

theorem expression (h : Spelled t) (ht : Filled (enclosed t.outline) ts) (ha : Quits after) :
    Reads [.rule .expression] ts (t, ()) after :=
  (h.atom ht).expression_of_atom ha

theorem of_atom (h : ∀ ts after, Filled t.outline ts → Stops after →
    Reads [.rule .atom] ts (t, ()) after) : Spelled t :=
  fun ts after ht ha => (h ts after ht ha).expression_of_atom ha.quits

theorem literal {x : Token} (hx : Terminal.number.admits x.mark = true) : Spelled (.literal x) := by
  refine of_atom fun ts after ht _ => ?_
  obtain ⟨_, rfl, h₁⟩ := Filled.kept ht
  obtain rfl := h₁.eq_nil
  exact .single .number (.token hx .nil) trivial

theorem ident {x : Token} (hx : Terminal.name.admits x.mark = true) : Spelled (.ident x) := by
  refine of_atom fun ts after ht _ => ?_
  obtain ⟨_, rfl, h₁⟩ := Filled.kept ht
  obtain rfl := h₁.eq_nil
  exact .single .name (.token hx .nil) trivial

theorem assign {name : Token} (hname : Terminal.name.admits name.mark = true) (h : Spelled t) :
    Spelled (.assign name t) := by
  intro ts after ht ha
  obtain ⟨_, _, rfl, hvar, h₁⟩ := Filled.any ht
  obtain ⟨_, rfl, h₂⟩ := h₁.kept
  obtain ⟨_, _, rfl, hassign, h₃⟩ := h₂.any
  have hvalue := h.expression h₃ ha.quits
  exact .single .assignment (.token hvar (.token hname (.token hassign hvalue))) trivial

theorem unary {op : Token} (hop : op.IsPrefix) (h : Spelled t) : Spelled (.unary op t) := by
  intro ts after ht ha
  obtain ⟨u, rfl, hu⟩ := Filled.kept ht
  rcases hop with hop | hop
  · have hoperand := (h.atom hu).factor ha.quits.exponent
    have hfactor := Reads.single .signed (.token hop hoperand) trivial
    exact hfactor.expression_of_operand (l := .multiplicative) ha.quits
  · have hoperand := (h.atom hu).operand (ha.quits.bounded .logical)
    have hcondition := Reads.single .negation (.token (beq_iff_eq.2 hop) hoperand) trivial
    exact hcondition.expression_of_operand (l := .logical) ha.quits

theorem binary {op : Token} {left right : Tree} (hop : op.IsOperator) (hl : Spelled left)
    (hr : Spelled right) : Spelled (.binary op left right) := by
  intro ts after ht ha
  obtain ⟨u, _, rfl, hu, h₁⟩ := Filled.append ht
  obtain ⟨v, rfl, hv⟩ := h₁.kept
  rcases hop with ⟨l, hop⟩ | hop
  · have hleft := (hl.atom hu).operand (bounded_of_admits hop (v ++ after))
    have hoperation := (hr.atom hv).operation hop ha.quits
    exact (Reads.append hleft hoperation).level.expression ha.quits
  · have hright := (hr.atom hv).factor ha.quits.exponent
    have hexponent := Reads.single .exponent (.token hop hright) trivial
    have hpower := Reads.single .power (.append (hl.atom hu) hexponent) trivial
    have hfactor := Reads.single .unsigned hpower trivial
    exact hfactor.expression_of_operand (l := .multiplicative) ha.quits

theorem whileLoop {condition body : Tree} (hc : Spelled condition) (hb : Spelled body) :
    Spelled (.whileLoop condition body) := by
  refine of_atom fun ts after ht ha => ?_
  obtain ⟨_, _, rfl, hword, h₁⟩ := Filled.any ht
  obtain ⟨u, _, rfl, hu, h₂⟩ := h₁.append
  obtain ⟨_, v, rfl, hdo, hv⟩ := h₂.any
  have hcondition := hc.expression hu (doWord_closes.stops hdo (v ++ after)).quits
  have hbody := hb.expression hv ha.quits
  have hloop := Reads.single .whileLoop
    (.token hword (.append hcondition (.token hdo hbody))) trivial
  exact .single .whileForm hloop trivial

theorem forLoop {name : Token} {first last stride body : Tree}
    (hname : Terminal.name.admits name.mark = true) (hf : Spelled first) (hl : Spelled last)
    (hs : stride = .absent ∨ Spelled stride) (hb : Spelled body) :
    Spelled (.forLoop name first last stride body) := by
  refine of_atom fun ts after ht ha => ?_
  obtain ⟨_, _, rfl, hword, h₁⟩ := Filled.any ht
  obtain ⟨_, rfl, h₂⟩ := h₁.kept
  obtain ⟨_, _, rfl, hassign, h₃⟩ := h₂.any
  obtain ⟨u₁, _, rfl, hu₁, h₄⟩ := h₃.append
  obtain ⟨_, u, rfl, hupto, h₅⟩ := h₄.any
  obtain ⟨u₂, _, rfl, hu₂, h₆⟩ := h₅.append
  obtain ⟨u₃, _, rfl, hu₃, h₇⟩ := h₆.append
  obtain ⟨d, u₄, rfl, hdo, hu₄⟩ := h₇.any
  have hstops := doWord_closes.stops hdo (u₄ ++ after)
  have hfirst (w : List Token) := hf.expression hu₁ (upto_closes.stops hupto w).quits
  have hbody := hb.expression hu₄ ha.quits
  -- what comes after the end is a step or `DO`
  have hrest : Reads [.rule .expression, .part .stride, .word .doWord, .rule .expression]
      (u₂ ++ (u₃ ++ d :: u₄)) (last, stride, d, body, ()) after := by
    rcases hu₃.clause with ⟨rfl, rfl⟩ | ⟨hne, x, v, rfl, hx, hv⟩
    · have hlast := hl.expression hu₂ hstops.quits
      exact .append hlast (.append (.omitted (hstops _)) (.token hdo hbody))
    · have hstep := (hs.resolve_left hne).expression hv hstops.quits
      have hstride := Reads.single .stride (.token hx hstep) trivial
      have hlast (w : List Token) :=
        hl.expression hu₂ (quits_of_keyword (by simp) (by simp) hx w)
      exact .append (hlast _) (.append hstride (.token hdo hbody))
  have hloop := Reads.single .forLoop
    (.token hword (.token hname (.token hassign (.append (hfirst _) (.token hupto hrest))))) trivial
  exact .single .forForm hloop trivial

/-! ### Conditionals -/

/-- The spots of the branches after the first one and of an `ELSE`. -/
def rest (branches : Branches) (otherwise : Tree) : List Spot :=
  branches.outline .elifWord ++ clause .elseWord otherwise otherwise.outline

theorem quits_of_rest {branches : Branches} {otherwise : Tree}
    (h : Filled (rest branches otherwise) ts) (ha : Stops after) : Quits (ts ++ after) := by
  cases branches with
  | nil =>
    rcases Filled.clause h with ⟨-, rfl⟩ | ⟨-, x, u, rfl, hx, -⟩
    · exact ha.quits
    · exact quits_of_keyword (by simp) (by simp) hx _
  | cons condition body branches =>
    obtain ⟨x, u, rfl, hx, -⟩ := Filled.any h
    exact quits_of_keyword (by simp) (by simp) hx _

/-- A branch after any word, where the rest is read after it. -/
theorem branch {w : Keyword} {condition body otherwise : Tree} {branches : Branches}
    (hc : Spelled condition) (hb : Spelled body)
    (hr : ∀ ts, Filled (rest branches otherwise) ts →
      Reads [.part .branches] ts ((branches.toList, otherwise), ()) after)
    (ht : Filled (.word w :: (enclosed condition.outline ++ .word .doWord ::
      (enclosed body.outline ++ rest branches otherwise))) ts) (ha : Stops after) :
    ∃ x d : Token, Reads
      [.word w, .rule .expression, .word .doWord, .rule .expression, .part .branches] ts
      (x, condition, d, body, (branches.toList, otherwise), ()) after := by
  obtain ⟨x, _, rfl, hx, h₁⟩ := Filled.any ht
  obtain ⟨u₁, _, rfl, hu₁, h₂⟩ := h₁.append
  obtain ⟨d, _, rfl, hdo, h₃⟩ := h₂.any
  obtain ⟨u₂, u₃, rfl, hu₂, hu₃⟩ := h₃.append
  have hcondition (w : List Token) := hc.expression hu₁ (doWord_closes.stops hdo w).quits
  have hbody := hb.expression hu₂ (quits_of_rest hu₃ ha)
  exact ⟨x, d, .token hx (.append (hcondition _) (.token hdo (.append hbody (hr u₃ hu₃))))⟩

theorem branches {otherwise : Tree} (ho : otherwise = .absent ∨ Spelled otherwise)
    (ha : Stops after) : ∀ {branches : Branches} {ts : List Token},
      (∀ p ∈ branches.toList, Spelled p.1 ∧ Spelled p.2) → Filled (rest branches otherwise) ts →
      Reads [.part .branches] ts ((branches.toList, otherwise), ()) after
  | .nil, ts, _, h => by
    rcases Filled.clause h with ⟨rfl, rfl⟩ | ⟨hne, x, u, rfl, hx, hu⟩
    · exact .omitted (ha _)
    · have helse := (ho.resolve_left hne).expression hu ha.quits
      exact .single .elseBranch (.token hx helse) trivial
  | .cons condition body branches, ts, hs, h => by
    rw [Branches.toList, List.forall_mem_cons] at hs
    rw [rest, Branches.outline] at h
    simp only [List.cons_append, List.append_assoc] at h
    have hrest (ts : List Token) (h : Filled (rest branches otherwise) ts) :=
      Spelled.branches ho ha hs.2 h
    obtain ⟨x, d, hbranch⟩ := branch hs.1.1 hs.1.2 hrest h ha
    exact .single .elifBranch hbranch trivial

theorem conditional {condition body otherwise : Tree} {branches : Branches}
    (hs : ∀ p ∈ (Branches.cons condition body branches).toList, Spelled p.1 ∧ Spelled p.2)
    (ho : otherwise = .absent ∨ Spelled otherwise) :
    Spelled (.conditional (.cons condition body branches) otherwise) := by
  refine of_atom fun ts after ht ha => ?_
  rw [Branches.toList, List.forall_mem_cons] at hs
  rw [Tree.outline, Branches.outline] at ht
  simp only [List.cons_append, List.append_assoc] at ht
  have hrest (ts : List Token) (h : Filled (rest branches otherwise) ts) :=
    Spelled.branches ho ha hs.2 h
  obtain ⟨x, d, hbranch⟩ := branch hs.1.1 hs.1.2 hrest ht ha
  have hform : Reads [.rule .conditional] ts
      (.conditional (.cons condition body (.ofList branches.toList)) otherwise, ()) after :=
    .single .conditional hbranch trivial
  rw [Branches.ofList_toList] at hform
  exact .single .conditionalForm hform trivial

end Spelled

end Grammar

/-! ## Parsing what is written -/

section

variable {P : Token → Prop}

mutual

/-- Every regular tree is read along its outline. -/
theorem Tree.Regular.spelled : ∀ {t : Tree}, t.Regular P → Spelled t
  | .literal _, h => .literal h.1
  | .ident _, h => .ident h.1
  | .assign _ value, h => .assign h.1.1 (Tree.Regular.spelled (t := value) h.2)
  | .unary _ operand, h => .unary h.1.1 (Tree.Regular.spelled (t := operand) h.2)
  | .binary _ left right, h =>
    .binary h.1.1 (Tree.Regular.spelled (t := left) h.2.1)
      (Tree.Regular.spelled (t := right) h.2.2)
  | .conditional .nil _, h => absurd rfl h.1.1
  | .conditional (.cons condition body rest) otherwise, h =>
    .conditional (Branches.Regular.spelled (b := .cons condition body rest) h.1.2)
      (h.2.imp_right fun h => Tree.Regular.spelled (t := otherwise) h)
  | .forLoop _ first last stride body, h =>
    .forLoop h.1.1 (Tree.Regular.spelled (t := first) h.2.1.1)
      (Tree.Regular.spelled (t := last) h.2.1.2)
      (h.2.2.1.imp_right fun h => Tree.Regular.spelled (t := stride) h)
      (Tree.Regular.spelled (t := body) h.2.2.2)
  | .whileLoop condition body, h =>
    .whileLoop (Tree.Regular.spelled (t := condition) h.1) (Tree.Regular.spelled (t := body) h.2)

theorem Branches.Regular.spelled : ∀ {b : Branches}, b.Regular P →
    ∀ p ∈ b.toList, Spelled p.1 ∧ Spelled p.2
  | .nil, _ => List.forall_mem_nil _
  | .cons condition body rest, h =>
    List.forall_mem_cons.2 ⟨⟨Tree.Regular.spelled (t := condition) h.1.1,
      Tree.Regular.spelled (t := body) h.1.2⟩, Branches.Regular.spelled (b := rest) h.2⟩

end

/-- The tokens of a regular tree that is written with each child in parentheses, and an end after
them, are parsed to that tree. -/
theorem Tree.Regular.accepts_outline {t : Tree} (h : t.Regular P) {ts : List Token}
    (ht : Filled t.outline ts) {eof : Token} (he : eof.is .endOfText = true) :
    Accepts (ts ++ [eof]) t := by
  have hmark : eof.mark = .symbol .endOfText := by
    rwa [Token.is_eq _ (by decide), beq_iff_eq] at he
  have hstops : Stops [eof] := fun o => by rw [lookahead, hmark, opens_end]
  obtain ⟨d, rfl, hmeanings, hg⟩ := h.spelled ts [eof] ht hstops
  have htree : d.tree = t := congrArg Prod.fst hmeanings
  rw [← htree]
  exact accepts_of_greedy hg he

end

namespace Spot

def sample : Spot → Token
  | .kept t => t
  | .any k => k.sample

theorem filled_samples (spots : List Spot) : Filled spots (spots.map sample) := by
  induction spots with
  | nil => exact .nil
  | cons s spots ih =>
    refine .cons ?_ ih
    cases s with
    | kept t => rfl
    | any k => exact k.admits_sample

end Spot

/-- The outer conditional keeps its `ELSE`, and the sign stays under the power:
`IF (a) DO (IF (a) DO (a)) ELSE ((+ (a)) ^ (NOT (a)))`. -/
theorem outer_else_accepts :
    let a := Tree.ident Terminal.name.sample
    let t := Tree.conditional (.ofList [(a, .conditional (.ofList [(a, a)]) .absent)])
      (.binary Terminal.power.sample (.unary (Terminal.operator .additive).sample a)
        (.unary (Terminal.keyword .not).sample a))
    t.Regular (fun _ => True) ∧ Filled t.outline (t.outline.map sample) ∧
      sampleEnd.is .endOfText = true ∧ Accepts (t.outline.map sample ++ [sampleEnd]) t := by
  intro a t
  have ha : a.Regular fun _ => True := ⟨rfl, trivial⟩
  have hinner : (Tree.conditional (.ofList [(a, a)]) .absent).Regular fun _ => True :=
    ⟨⟨nofun, ⟨ha, ha⟩, trivial⟩, .inl rfl⟩
  have hsigned : (Tree.unary (Terminal.operator .additive).sample a).Regular fun _ => True :=
    ⟨⟨.inl rfl, trivial⟩, ha⟩
  have hnegated : (Tree.unary (Terminal.keyword .not).sample a).Regular fun _ => True :=
    ⟨⟨.inr rfl, trivial⟩, ha⟩
  have ht : t.Regular fun _ => True :=
    ⟨⟨nofun, ⟨ha, hinner⟩, trivial⟩, .inr ⟨⟨.inr rfl, trivial⟩, hsigned, hnegated⟩⟩
  exact ⟨ht, filled_samples _, rfl, ht.accepts_outline (filled_samples _) rfl⟩

end Reckoner
