import Reckoner.Proofs.Evaluation.Nested
import Reckoner.Proofs.Grammar.Follow
import Reckoner.Proofs.Grammar.Yield

/-!
# Else if

An `ELIF` may be written as an `ELSE` and an `IF`. What is read along the tokens is then the same
but for the branches from there on, which are nested (`Derivation.nests`): the inner conditional
takes all the branches that the outer one took, and ends where that did, because no operator can
come there.
-/

set_option autoImplicit false

namespace Reckoner

namespace Grammar

/-! ## Nested branches in what is read -/

/-- Branches are nested in the tree that is made with the one meaning to give the tree that is made
with the other one. -/
def Phrase.Nests : (p : Phrase) → List Token → p.Meaning → p.Meaning → Prop
  | .rule _, ts, t, u => Tree.Nests ts t u
  | .part (.operations _), ts, f, g | .part .exponent, ts, f, g =>
    ∀ left, Tree.Nests (Tree.tokens left ++ ts) (f left) (g left)
  | .part .branches, ts, (b, otherwise), (b', otherwise') => ∀ p : Branches, p ≠ .nil →
    Tree.Nests (p.tokens ++ ts) (.conditional (p.append (.ofList b)) otherwise)
      (.conditional (p.append (.ofList b')) otherwise')
  | .part .stride, ts, t, u => Tree.Nests ts t u

/-- Where branches are nested in the tree to the left, they are in the whole. -/
def Phrase.Respects : (p : Phrase) → p.Meaning → Prop
  | .part (.operations _), f | .part .exponent, f =>
    ∀ ts t u, Tree.Nests ts t u → Tree.Nests ts (f t) (f u)
  | _, _ => True

def Meanings.Respects : (is : List Item) → Meanings is → Prop
  | [], _ => True
  | .token _ :: is, (_, x) => Respects is x
  | .phrase p :: is, (y, x) => p.Respects y ∧ Respects is x

/-- Branches are nested in one of the meanings. The tokens are those of the meanings before it and
those before the branches. -/
def Meanings.Nests : (is : List Item) → List Token → Meanings is → Meanings is → Prop
  | [], _, _, _ => False
  | .token k :: is, ts, (t, x), (t', x') =>
    t' = t ∧ ∃ v, ts = (if k.isKept then ([t] : List Token) else []) ++ v ∧ Nests is v x x'
  | .phrase p :: is, ts, (y, x), (y', x') =>
    p.Nests ts y y' ∧ x' = x ∨ y' = y ∧ ∃ u v, ts = u ++ v ∧ p.Yields y u ∧ Nests is v x x'

theorem build_respects {p : Phrase} (q : Production p) (x : Meanings q.items)
    (h : Meanings.Respects q.items x) : p.Respects (q.build x) := by
  cases q with
  | omitted o =>
    cases o with
    | operations | exponent => exact fun ts t u h => h
    | branches | stride => trivial
  | operation l =>
    obtain ⟨-, hoperations, -⟩ := h
    exact fun ts t u h => hoperations _ _ _ (h.left _ _)
  | exponent => exact fun ts t u h => h.left _ _
  | _ => trivial

theorem Derivation.respects {is : List Item} (d : Derivation is) :
    Meanings.Respects is d.meanings := by
  induction d with
  | nil => trivial
  | token t ht rest ih => exact ih
  | phrase q inner rest ihi ihr => exact ⟨build_respects q _ ihi, ihr⟩

theorem build_nests {p : Phrase} (q : Production p) {x y : Meanings q.items} {ts : List Token}
    (hx : Meanings.Respects q.items x) (h : Meanings.Nests q.items ts x y) :
    p.Nests ts (q.build x) (q.build y) := by
  cases q with
  | assignment =>
    obtain ⟨_, _, _, _, _⟩ := x
    obtain ⟨_, _, _, _, _⟩ := y
    obtain ⟨-, _, rfl, rfl, _, rfl, -, _, rfl, ⟨h, -⟩ | ⟨-, _, _, -, -, ⟨⟩⟩⟩ := h
    exact h.assign _
  | logical | comparison | sum | product | power =>
    obtain ⟨left, operations, _⟩ := x
    obtain ⟨_, _, _⟩ := y
    obtain ⟨h, ⟨⟩⟩ | ⟨rfl, _, _, rfl, rfl, ⟨h, -⟩ | ⟨-, _, _, -, -, ⟨⟩⟩⟩ := h
    · exact hx.2.1 _ _ _ h
    · exact h _
  | negation | signed =>
    obtain ⟨_, _, _⟩ := x
    obtain ⟨_, _, _⟩ := y
    obtain ⟨rfl, _, rfl, ⟨h, -⟩ | ⟨-, _, _, -, -, ⟨⟩⟩⟩ := h
    exact h.unary _
  | unsigned | conditionalForm | forForm | whileForm =>
    obtain ⟨_, _⟩ := x
    obtain ⟨_, _⟩ := y
    obtain ⟨h, -⟩ | ⟨-, _, _, -, -, ⟨⟩⟩ := h
    exact h
  | number | name =>
    obtain ⟨-, _, -, ⟨⟩⟩ := h
  | group =>
    obtain ⟨_, _, _, _⟩ := x
    obtain ⟨_, _, _, _⟩ := y
    obtain ⟨-, _, rfl, ⟨h, -⟩ | ⟨-, _, _, -, -, -, _, -, ⟨⟩⟩⟩ := h
    exact h
  | conditional =>
    obtain ⟨_, _, _, _, ⟨_, _⟩, _⟩ := x
    obtain ⟨_, condition, _, body, ⟨_, _⟩, _⟩ := y
    obtain ⟨-, _, rfl, ⟨h, ⟨⟩⟩ | ⟨rfl, _, _, rfl, rfl, -, _, rfl, ⟨h, ⟨⟩⟩ |
      ⟨rfl, _, _, rfl, rfl, ⟨h, -⟩ | ⟨-, _, _, -, -, ⟨⟩⟩⟩⟩⟩ := h
    · exact h.condition .nil _ _ _
    · exact h.body .nil _ _ _
    · have hmore := h (.cons condition body .nil) (by simp)
      simp only [Branches.tokens, List.append_nil, List.append_assoc] at hmore
      exact hmore
  | elifBranch =>
    obtain ⟨_, _, _, _, ⟨_, _⟩, _⟩ := x
    obtain ⟨_, condition, _, body, ⟨_, _⟩, _⟩ := y
    intro p hp
    obtain ⟨-, _, rfl, ⟨h, ⟨⟩⟩ | ⟨rfl, _, _, rfl, rfl, -, _, rfl, ⟨h, ⟨⟩⟩ |
      ⟨rfl, _, _, rfl, rfl, ⟨h, -⟩ | ⟨-, _, _, -, -, ⟨⟩⟩⟩⟩⟩ := h
    · exact h.condition p _ _ _
    · exact h.body p _ _ _
    · have hmore := h (p.append (.cons condition body .nil)) fun hnil =>
        hp (Branches.append_eq_nil.1 hnil).1
      simp only [Branches.tokens_append, Branches.append_assoc, Branches.tokens, List.append_nil,
        List.append_assoc] at hmore
      exact hmore
  | forLoop =>
    obtain ⟨_, _, _, _, _, _, _, _, body, _⟩ := x
    obtain ⟨_, name, _, first, _, last, stride, _, _, _⟩ := y
    obtain ⟨-, _, rfl, rfl, _, rfl, -, _, rfl, h⟩ := h
    obtain ⟨h, ⟨⟩⟩ | ⟨rfl, _, _, rfl, rfl, -, _, rfl, h⟩ := h
    · exact h.first _ _ _ _
    obtain ⟨h, ⟨⟩⟩ | ⟨rfl, _, _, rfl, rfl, h⟩ := h
    · exact h.last _ _ _ _
    obtain ⟨h, ⟨⟩⟩ | ⟨rfl, _, _, rfl, rfl, -, _, rfl, h⟩ := h
    · have hstride := Tree.Nests.stride name first last body h
      rw [List.append_assoc] at hstride
      exact hstride
    obtain ⟨h, -⟩ | ⟨-, _, _, -, -, ⟨⟩⟩ := h
    have hbody := Tree.Nests.forBody name first last stride h
    simp only [List.append_assoc] at hbody
    exact hbody
  | whileLoop =>
    obtain ⟨_, condition, _, body, _⟩ := x
    obtain ⟨_, _, _, _, _⟩ := y
    obtain ⟨-, _, rfl, ⟨h, ⟨⟩⟩ | ⟨rfl, _, _, rfl, rfl, -, _, rfl, ⟨h, -⟩ |
      ⟨-, _, _, -, -, ⟨⟩⟩⟩⟩ := h
    · exact h.whileCondition _
    · exact h.whileBody _
  | omitted o => exact h.elim
  | operation l =>
    obtain ⟨_, _, _, _⟩ := x
    obtain ⟨op, right, operations, _⟩ := y
    intro left
    obtain ⟨rfl, _, rfl, ⟨h, ⟨⟩⟩ | ⟨rfl, _, _, rfl, rfl, ⟨h, -⟩ | ⟨-, _, _, -, -, ⟨⟩⟩⟩⟩ := h
    · exact hx.2.1 _ _ _ (h.right _ _)
    · have hmore := h (.binary op left right)
      simp only [Tree.tokens, List.append_assoc] at hmore
      exact hmore
  | exponent =>
    obtain ⟨_, _, _⟩ := x
    obtain ⟨_, _, _⟩ := y
    intro left
    obtain ⟨rfl, _, rfl, ⟨h, -⟩ | ⟨-, _, _, -, -, ⟨⟩⟩⟩ := h
    exact h.right _ _
  | elseBranch =>
    obtain ⟨_, _, _⟩ := x
    obtain ⟨_, _, _⟩ := y
    intro p hp
    obtain ⟨-, _, rfl, ⟨h, -⟩ | ⟨-, _, _, -, -, ⟨⟩⟩⟩ := h
    have hmore := h.otherwise (p.append .nil)
    rw [Branches.tokens_append, Branches.tokens, List.append_nil] at hmore
    exact hmore
  | stride =>
    obtain ⟨_, _, _⟩ := x
    obtain ⟨_, _, _⟩ := y
    obtain ⟨-, _, rfl, ⟨h, -⟩ | ⟨-, _, _, -, -, ⟨⟩⟩⟩ := h
    exact h

/-! ## The tokens of an `ELIF`, replaced -/

/-- What stands before a token that is in one of two lists. -/
theorem append_eq_append_cons {α : Type} {a b u w : List α} {x : α} (h : a ++ b = u ++ x :: w) :
    (∃ v, a = u ++ x :: v ∧ w = v ++ b) ∨ ∃ v, u = a ++ v ∧ b = v ++ x :: w := by
  rcases List.append_eq_append_iff.1 h with ⟨v, hu, hb⟩ | ⟨v, ha, hw⟩
  · exact .inr ⟨v, hu, hb⟩
  · cases v with
    | nil => exact .inr ⟨[], by simpa using ha.symm, hw.symm⟩
    | cons y v =>
      obtain ⟨rfl, rfl⟩ := List.cons.inj hw
      exact .inl ⟨v, ha, rfl⟩

theorem eq_of_admits_elif {k : Terminal} (h : k.admits (.keyword .elifWord) = true) :
    k = .keyword .elifWord := by
  cases k with
  | keyword w => rw [Mark.keyword.inj (beq_iff_eq.1 h)]
  | operator l => cases l <;> cases h
  | _ => cases h

/-- Only the productions of further branches start with an `ELIF`, and none has one later. -/
theorem elif_of_head {p : Phrase} {q : Production p} (h : q.items.head? = some (.word .elifWord)) :
    ∃ hp : p = .part .branches, hp ▸ q = .elifBranch := by
  cases q <;> simp [Production.items] at h
  exact ⟨rfl, rfl⟩

theorem elif_not_mem_tail {p : Phrase} (q : Production p) :
    .word .elifWord ∉ q.items.tail := by
  cases q <;> simp [Production.items]

/-- The same parts may be left out before an `ELSE` and before an `ELIF`. -/
theorem opens_else (o : Part) : o.opens (.keyword .elseWord) = o.opens (.keyword .elifWord) := by
  cases o with
  | operations l => cases l <;> rfl
  | _ => rfl

section

variable {x els ifw : Token}

theorem opens_replaced (hx : x.mark = .keyword .elifWord) (hels : els.mark = .keyword .elseWord)
    (v w w' : List Token) (o : Part) :
    o.opens (lookahead (v ++ x :: w)) = o.opens (lookahead (v ++ els :: w')) := by
  cases v with
  | nil =>
    show o.opens x.mark = o.opens els.mark
    rw [hx, hels, opens_else]
  | cons => rfl

/-- After an `ELSE`, a whole conditional is read as an expression. -/
theorem Reads.elseIf {ts after : List Token} {y : Meanings Production.conditional.items}
    (hels : els.mark = .keyword .elseWord) (h : Reads Production.conditional.items ts y after) :
    Reads [.part .branches] (els :: ts)
      (Production.elseBranch.build (els, Production.conditional.build y, ()), ()) after := by
  have hquits : Quits after := by
    obtain ⟨d, -, -, hg⟩ := h
    exact d.quits_of_conditional hg
  have hatom : Reads [.rule .atom] ts (Production.conditional.build y, ()) after :=
    .single .conditionalForm (.single .conditional h trivial) trivial
  exact .single .elseBranch (.token (beq_iff_eq.2 hels) (hatom.expression_of_atom hquits)) trivial

/-- The branches from an `ELIF` on are nested where it is an `ELSE` and an `IF`. -/
theorem nests_elseIf (x els ifw : Token) (y : Meanings Production.conditional.items.tail) :
    (Phrase.part .branches).Nests [] (Production.elifBranch.build (x, y))
      (Production.elseBranch.build (els, Production.conditional.build (ifw, y), ())) := by
  obtain ⟨condition, _, body, ⟨branches, otherwise⟩, _⟩ := y
  intro p hp
  show Tree.Nests _ _ (.conditional (p.append .nil) _)
  rw [p.append_nil, List.append_nil]
  exact .here hp (q := .cons condition body (.ofList branches)) (by simp) otherwise

/-- Where there is an `ELIF` among the tokens of a greedy derivation, an `ELSE` and an `IF` are
read as well. -/
theorem Derivation.nests (hx : x.mark = .keyword .elifWord) (hels : els.mark = .keyword .elseWord)
    (hif : ifw.mark = .keyword .ifWord) {is : List Item} (d : Derivation is) :
    ∀ u w after, .word .elifWord ∉ is.tail → d.tokens = u ++ x :: w → d.Greedy after →
      (∃ y, Reads is (u ++ els :: ifw :: w) y after ∧
        Meanings.Nests is (u.filter (·.mark.isKept)) d.meanings y) ∨
      u = [] ∧ is.head? = some (.word .elifWord) := by
  induction d with
  | nil => intro u w after _ h; simp at h
  | @token k is t ht rest ih =>
    intro u w after htail htokens hg
    cases u with
    | nil =>
      obtain ⟨rfl, rfl⟩ := List.cons.inj htokens
      rw [hx] at ht
      obtain rfl := eq_of_admits_elif ht
      exact .inr ⟨rfl, rfl⟩
    | cons t' u =>
      obtain ⟨rfl, hrest⟩ := List.cons.inj htokens
      rcases ih u w after (fun h => htail (List.mem_of_mem_tail h)) hrest hg with
        ⟨y, hread, hnests⟩ | ⟨-, hhead⟩
      · refine .inl ⟨(t, y), hread.token ht, rfl, _, ?_, hnests⟩
        rw [List.filter_cons, Terminal.isKept_of_admits ht]
        split <;> rfl
      · exact absurd (List.mem_of_head? hhead) htail
  | @phrase p is q inner rest ihi ihr =>
    rintro u w after htail htokens ⟨hq, hi, hr⟩
    rcases append_eq_append_cons htokens with ⟨v, hinner, rfl⟩ | ⟨v, rfl, hrest⟩
    · rcases ihi u v _ (elif_not_mem_tail q) hinner hi with ⟨y, hread, hnests⟩ | ⟨rfl, hhead⟩
      · have hwhole : Reads (.phrase p :: is) ((u ++ els :: ifw :: v) ++ rest.tokens)
            (q.build y, rest.meanings) after :=
          .append (.single q hread hq) ⟨rest, rfl, rfl, hr⟩
        rw [List.append_assoc] at hwhole
        exact .inl ⟨_, hwhole, .inl ⟨build_nests q inner.respects hnests, rfl⟩⟩
      · obtain ⟨rfl, hq⟩ := elif_of_head hhead
        cases hq
        cases inner with
        | token t ht inner =>
          obtain ⟨-, rfl⟩ := List.cons.inj hinner
          have hread : Reads Production.conditional.items (ifw :: inner.tokens)
              (ifw, inner.meanings) (rest.tokens ++ after) :=
            .token (beq_iff_eq.2 hif) ⟨inner, rfl, rfl, hi⟩
          exact .inl ⟨_, (Reads.elseIf hels hread).append ⟨rest, rfl, rfl, hr⟩,
            .inl ⟨nests_elseIf t els ifw inner.meanings, rfl⟩⟩
    · rcases ihr v w after (fun h => htail (List.mem_of_mem_tail h)) hrest hr with
        ⟨y, ⟨d, hd, rfl, hg⟩, hnests⟩ | ⟨-, hhead⟩
      · have hopens : ∀ o : Part, o.opens (lookahead (rest.tokens ++ after)) =
            o.opens (lookahead (d.tokens ++ after)) := by
          rw [hrest, hd, List.append_assoc, List.append_assoc]
          exact opens_replaced hx hels v _ _
        refine .inl ⟨(q.build inner.meanings, d.meanings), ⟨.phrase q inner d, ?_, rfl, ?_⟩, ?_⟩
        · rw [tokens_phrase, hd, List.append_assoc]
        · exact ⟨(fits_congr q hopens).1 hq, (greedy_congr_of_opens inner hopens).1 hi, hg⟩
        · refine .inr ⟨rfl, _, _, List.filter_append .., ?_, hnests⟩
          exact build_yields q _ _ inner.yields
      · exact absurd (List.mem_of_head? hhead) htail

end

/-- `ELIF` means `ELSE IF`. A conditional means what it does with its branches nested, from any one
after the first on. And where an `ELIF` is replaced by an `ELSE` and an `IF`, a list of tokens that
is parsed is still parsed: to the same tree but for the branches from there on, which are nested. -/
theorem elif_means_else_if :
    (∀ (set : Settings) (p q : Branches) (otherwise : Tree) (s : State),
      (Tree.conditional (p.append q) otherwise).evaluate set s =
        (Tree.conditional p (.conditional q otherwise)).evaluate set s) ∧
    ∀ (u w : List Token) (x els ifw : Token) (t : Tree), Closed (u ++ x :: w) →
      x.isKeyword .elifWord = true → els.isKeyword .elseWord = true →
      ifw.isKeyword .ifWord = true → Accepts (u ++ x :: w) t →
      ∃ t', Accepts (u ++ els :: ifw :: w) t' ∧
        Tree.Nests (u.filter (·.mark.isKept)) t t' := by
  refine ⟨fun set p q otherwise s => congrFun (Tree.evaluate_nested set p q otherwise) s, ?_⟩
  intro u w x els ifw t hc hx hels hif ht
  rw [Token.isKeyword_eq, beq_iff_eq] at hx hels hif
  obtain ⟨d, hd, hg, rfl, -⟩ := (accepts_iff_derivable hc).2 t ht
  obtain ⟨eof, hend, he⟩ := hc.eq_append
  have hmark : eof.mark = .symbol .endOfText := by
    rwa [Token.is_eq _ (by decide), beq_iff_eq] at he
  rw [← hd] at hend
  rcases append_eq_append_cons hend.symm with ⟨v, hv, rfl⟩ | ⟨v, -, hv⟩
  · rcases d.nests hx hels hif u v [] (by simp) hv hg with
      ⟨y, ⟨d', hd', rfl, hg'⟩, hnests⟩ | ⟨-, hhead⟩
    · have hend' : d'.Greedy [eof] :=
        (greedy_congr d' (show lookahead [] = lookahead [eof] from hmark.symm)).1 hg'
      have ha := accepts_of_greedy hend' he
      rw [hd', List.append_assoc] at ha
      rcases hnests with ⟨hnests, -⟩ | ⟨-, _, _, -, -, ⟨⟩⟩
      exact ⟨d'.tree, ha, hnests⟩
    · cases hhead
  · cases v with
    | nil =>
      obtain rfl := (List.cons.inj hv).1
      rw [hx] at hmark
      cases hmark
    | cons => simp at hv

/-- `IF a DO a ELIF a DO a ELSE a` is also `IF a DO a ELSE IF a DO a ELSE a`. -/
theorem two_branches_nested :
    let a := Tree.ident Terminal.name.sample
    ∃ t', Accepts ([.keyword .ifWord, .name, .keyword .doWord, .name, .keyword .elseWord,
        .keyword .ifWord, .name, .keyword .doWord, .name, .keyword .elseWord, .name].map
        Terminal.sample ++ [sampleEnd]) t' ∧
      Tree.Nests [Terminal.name.sample, Terminal.name.sample]
        (.conditional (.ofList [(a, a), (a, a)]) a) t' := by
  intro a
  have hclosed := closed_samples [.keyword .ifWord, .name, .keyword .doWord, .name,
    .keyword .elifWord, .name, .keyword .doWord, .name, .keyword .elseWord, .name]
  exact elif_means_else_if.2
    ([.keyword .ifWord, .name, .keyword .doWord, .name].map Terminal.sample)
    ([.name, .keyword .doWord, .name, .keyword .elseWord, .name].map Terminal.sample ++ [sampleEnd])
    (Terminal.keyword .elifWord).sample (Terminal.keyword .elseWord).sample
    (Terminal.keyword .ifWord).sample (.conditional (.ofList [(a, a), (a, a)]) a) hclosed rfl rfl
    rfl ⟨_, _, rfl, rfl, rfl⟩

end Grammar

end Reckoner
