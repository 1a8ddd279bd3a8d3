import Reckoner.Proofs.Grammar.Conformance

/-!
# The rules of the parser read the grammar

Each rule of `Reckoner.Grammar.Parse` conforms to the productions of its phrase, given that the
rules that it calls do: those of lower rank on the same tokens, and all of them once a token has
been consumed. By induction on the depth, `derive` parses as many tokens as its depth allows
(`parses_derive`).
-/

set_option autoImplicit false

namespace Reckoner

namespace Grammar

/-! ## Tests of tokens -/

section

variable (t : Token)

theorem isLogical_eq : isLogical t = Level.logical.admits t.mark := by
  simp [isLogical, Level.admits, Token.isKeyword_eq]

theorem isComparison_eq : isComparison t = Level.comparison.admits t.mark := by
  simp [isComparison, Level.admits, Token.is_eq]

theorem isAdditive_eq : isAdditive t = Level.additive.admits t.mark := by
  simp [isAdditive, Level.admits, Token.is_eq]

theorem isMultiplicative_eq : isMultiplicative t = Level.multiplicative.admits t.mark := by
  simp [isMultiplicative, Level.admits, Token.is_eq]

end

/-! ## Parts -/

section

variable {recur : Rule → Cursor → Step} {m depth : Nat}

theorem conforms_chainRest {l : Level} {operand : Cursor → Step} {isOp : Token → Bool}
    (hop : ∀ t, isOp t = l.admits t.mark) : ∀ {depth m : Nat}, m ≤ depth →
      Parses (m - 1) l.operand operand → ∀ left : Tree,
      Conforms False m [.part (.operations l)] (fun x => x.1 left)
        fun r c => chainRest operand isOp depth r c left := by
  intro depth
  induction depth with
  | zero =>
    intro m hm _ left
    obtain rfl := Nat.le_zero.1 hm
    exact conforms_zero
  | succ depth ih =>
    intro m hm ho left
    refine conforms_part
      (fun
        | .omitted _ => fun r c => succeed r c left
        | .operation _ => fun r c => andThen r.advance (operand c.advance) fun r c' right =>
            chainRest operand isOp depth r c' (.binary c.current left right))
      (fun q => ?_) (fun r c q hq => ?_)
    · cases q with
      | omitted => exact conforms_nil (f := fun _ => left)
      | operation =>
        refine conforms_advance (List.cons_ne_nil _ _)
          (fun c r c' => andThen r (operand c') fun r c' right =>
            chainRest operand isOp depth r c' (.binary c.current left right)) fun c => ?_
        refine conforms_rule ho fun right => ?_
        exact ih (by omega) (ho.mono (by omega)) (.binary c.current left right)
    · simp only [predict, Option.some.injEq] at hq
      subst hq
      simp only [chainRest, hop]
      split <;> rfl

/-- A condition, `DO` and a body. -/
theorem conforms_branch {chosen : Prop} {is : List Item}
    {f : Meanings (.rule .expression :: .word .doWord :: .rule .expression :: is) → Tree}
    {next : Tree → Tree → Report Failure Tree → Cursor → Step}
    (he : Parses m .expression (recur .expression))
    (h : ∀ condition w body, Conforms False (m - 1 - 1 - 1) is
      (fun x => f (condition, w, body, x)) (next condition body)) :
    Conforms chosen m (.rule .expression :: .word .doWord :: .rule .expression :: is) f
      fun r c => branch recur r c fun r c condition body => next condition body r c := by
  refine conforms_rule he fun condition => ?_
  refine conforms_expect (k := .keyword .doWord) (Token.isKeyword_eq · _) fun c => ?_
  exact conforms_rule (he.mono (by omega)) fun body => h condition c.current body

theorem conforms_moreBranches : ∀ {depth m : Nat}, m ≤ depth →
    Parses (m - 1) .expression (recur .expression) → ∀ done : List (Tree × Tree),
    Conforms False m [.part .branches]
      (fun x => .conditional (Branches.ofList (done.reverse ++ x.1.1)) x.1.2)
      fun r c => moreBranches recur depth r c done := by
  intro depth
  induction depth with
  | zero =>
    intro m hm _ done
    obtain rfl := Nat.le_zero.1 hm
    exact conforms_zero
  | succ depth ih =>
    intro m hm he done
    refine conforms_part
      (fun
        | .omitted _ => fun r c =>
            succeed r c (.conditional (Branches.ofList (done.reverse ++ [])) .absent)
        | .elifBranch => fun r c => branch recur r.advance c.advance fun r c condition body =>
            moreBranches recur depth r c ((condition, body) :: done)
        | .elseBranch => fun r c =>
            andThen r.advance (recur .expression c.advance) fun r c otherwise =>
              succeed r c (.conditional (Branches.ofList (done.reverse ++ [])) otherwise))
      (fun q => ?_) (fun r c q hq => ?_)
    · cases q with
      | omitted =>
        exact conforms_nil (f := fun _ =>
          .conditional (Branches.ofList (done.reverse ++ [])) .absent)
      | elifBranch =>
        refine conforms_advance (List.cons_ne_nil _ _)
          (fun c r c' => branch recur r c' fun r c condition body =>
            moreBranches recur depth r c ((condition, body) :: done)) fun c => ?_
        refine conforms_branch he fun condition _ body => ?_
        have h := ih (m := m - 1 - 1 - 1 - 1) (by omega) (he.mono (by omega))
          ((condition, body) :: done)
        simp only [List.reverse_cons, List.append_assoc, List.singleton_append] at h
        exact h
      | elseBranch =>
        refine conforms_advance (List.cons_ne_nil _ _) (fun c r c' =>
          andThen r (recur .expression c') fun r c otherwise =>
            succeed r c (.conditional (Branches.ofList (done.reverse ++ [])) otherwise))
            fun c => ?_
        refine conforms_rule he fun otherwise => ?_
        exact conforms_nil (f := fun _ =>
          .conditional (Branches.ofList (done.reverse ++ [])) otherwise)
    · simp only [predict, Option.some.injEq] at hq
      subst hq
      simp only [moreBranches, Token.isKeyword_eq, beq_iff_eq, List.append_nil]
      split
      · rfl
      · split <;> rfl

/-- The step of a counted loop is read if it is there. -/
theorem conforms_stride {is : List Item} {f : Meanings (.part .stride :: is) → Tree}
    {next : Tree → Report Failure Tree → Cursor → Step}
    (he : Parses (m - 1) .expression (recur .expression))
    (h : ∀ t, Conforms False m is (fun x => f (t, x)) (next t)) :
    Conforms False m (.part .stride :: is) f
      fun r c => stride recur r c fun r c t => next t r c := by
  refine conforms_part
    (fun
      | .omitted _ => next .absent
      | .stride => fun r c =>
          andThen r.advance (recur .expression c.advance) fun r c t => next t r c)
    (fun q => ?_) (fun r c q hq => ?_)
  · cases q with
    | omitted => exact (h .absent).imp False.elim
    | stride =>
      refine conforms_advance (List.cons_ne_nil _ _)
        (fun _ r c => andThen r (recur .expression c) fun r c t => next t r c) fun _ => ?_
      exact conforms_rule he fun t => (h t).mono (by omega)
  · simp only [predict, Option.some.injEq] at hq
    subst hq
    simp only [stride, Token.isKeyword_eq, beq_iff_eq]
    split <;> rfl

theorem conforms_chain {chosen : Prop} {l : Level} {operand : Cursor → Step}
    {isOp : Token → Bool} (hop : ∀ t, isOp t = l.admits t.mark) (hm : m ≤ depth + 1)
    (ho : Parses m l.operand operand) :
    Conforms chosen m [.rule l.operand, .part (.operations l)] (fun x => x.2.1 x.1)
      fun r c => andThen r (operand c) fun r c left => chainRest operand isOp depth r c left :=
  conforms_rule ho fun left =>
    conforms_chainRest hop (by omega) (ho.mono (by omega)) left

end

/-! ## Rules -/

section

variable {recur : Rule → Cursor → Step} {m depth : Nat}

/-- A rule that the current token cannot start fails where its first inner rule fails. -/
theorem failsAt_start {r : Rule} {g : Cursor → Step} {c : Cursor}
    {next : Report Failure Tree → Cursor → Tree → Step} (h : Parses m r g) (hpos : 0 < m)
    (hq : predict (.rule r) c.current.mark = none) (hl : c.current.Located) :
    FailsAt (andThen .empty (g c) next) 0 r.expectation c :=
  (h.fails [] _ c hpos (.start hq) hl).andThen (n := 0)

/-- The name and the value that follow `VAR`. -/
def assignment (recur : Rule → Cursor → Step) (r : Report Failure Tree) (c : Cursor) : Step :=
  expect r c (·.is .identifier) .identifier fun r c₁ =>
    expect r c₁ (·.is .assign) .equals fun r c₂ =>
      andThen r (recur .expression c₂) fun r c₃ value => succeed r c₃ (.assign c.current value)

theorem parses_expression (hc : Parses m .condition (recur .condition))
    (he : Parses (m - 1) .expression (recur .expression)) (hm : m ≤ depth + 1) :
    Parses m .expression (expression recur depth) := by
  refine parses_of_productions
    (fun
      | .assignment => fun c => assignment recur Report.empty.advance c.advance
      | .logical => fun c =>
        orExpect .empty (chain (recur .condition) isLogical depth c) .expression)
    (fun q => ?_) (fun c q hq => ?_) (fun c hq hl hpos => ?_)
  · cases q with
    | assignment =>
      refine Conforms.produces (g := fun r c => assignment recur r.advance c.advance) ?_
      refine conforms_advance trivial (fun _ => assignment recur) fun _ => ?_
      refine conforms_expect (k := .name) (fun t => t.is_eq (by decide)) fun c => ?_
      refine conforms_expect (k := .assign) (fun t => t.is_eq (by decide)) fun c => ?_
      exact conforms_rule (he.mono (by omega)) fun value => conforms_nil
    | logical =>
      exact (Conforms.produces (q := .logical) (conforms_chain isLogical_eq hm hc)).orExpect
  · simp only [predict] at hq
    split at hq
    next h =>
      cases hq
      simp only [expression, Token.isKeyword_eq, h, beq_self_eq_true]
      rfl
    next h =>
      split at hq <;> cases hq
      simp only [expression, Token.isKeyword_eq, beq_iff_eq, if_neg h]
  · have hv : c.current.mark ≠ .keyword .var := by
      intro h
      rw [h] at hq
      cases hq
    have hq' := predict_eq_none (q := .logical) rfl hq
    simp only [expression, Token.isKeyword_eq, beq_iff_eq, if_neg hv]
    exact (failsAt_start hc hpos hq' hl).orExpect_zero

theorem parses_condition (hs : Parses m .sum (recur .sum))
    (hc : Parses (m - 1) .condition (recur .condition)) (hm : m ≤ depth + 1) :
    Parses m .condition (condition recur depth) := by
  refine parses_of_productions
    (fun
      | .negation => fun c => andThen Report.empty.advance (recur .condition c.advance)
          fun r c' operand => succeed r c' (.unary c.current operand)
      | .comparison => fun c =>
        orExpect .empty (chain (recur .sum) isComparison depth c) .condition)
    (fun q => ?_) (fun c q hq => ?_) (fun c hq hl hpos => ?_)
  · cases q with
    | negation =>
      refine Conforms.produces (g := fun r c => andThen r.advance (recur .condition c.advance)
        fun r c' operand => succeed r c' (.unary c.current operand)) ?_
      refine conforms_advance trivial (fun c r c' => andThen r (recur .condition c')
        fun r c' operand => succeed r c' (.unary c.current operand)) fun c => ?_
      exact conforms_rule hc fun operand => conforms_nil
    | comparison =>
      exact (Conforms.produces (q := .comparison) (conforms_chain isComparison_eq hm hs)).orExpect
  · simp only [predict] at hq
    split at hq
    next h =>
      cases hq
      simp only [condition, Token.isKeyword_eq, h, beq_self_eq_true]
      rfl
    next h =>
      split at hq <;> cases hq
      simp only [condition, Token.isKeyword_eq, beq_iff_eq, if_neg h]
  · have hv : c.current.mark ≠ .keyword .not := by
      intro h
      rw [h] at hq
      cases hq
    have hq' := predict_eq_none (q := .comparison) rfl hq
    simp only [condition, Token.isKeyword_eq, beq_iff_eq, if_neg hv]
    exact (failsAt_start hs hpos hq' hl).orExpect_zero

theorem parses_sum (hp : Parses m .product (recur .product)) (hm : m ≤ depth + 1) :
    Parses m .sum (chain (recur .product) isAdditive depth) :=
  parses_of_production .sum (fun q => by cases q; rfl) (conforms_chain isAdditive_eq hm hp)
    fun _ h => .start (predict_eq_none (q := .sum) rfl h)

theorem parses_product (hf : Parses m .factor (recur .factor)) (hm : m ≤ depth + 1) :
    Parses m .product (chain (recur .factor) isMultiplicative depth) :=
  parses_of_production .product (fun q => by cases q; rfl)
    (conforms_chain isMultiplicative_eq hm hf)
    fun _ h => .start (predict_eq_none (q := .product) rfl h)

theorem parses_factor (hp : Parses m .power (recur .power))
    (hf : Parses (m - 1) .factor (recur .factor)) : Parses m .factor (factor recur) := by
  refine parses_of_productions
    (fun
      | .signed => fun c => andThen Report.empty.advance (recur .factor c.advance)
          fun r c' operand => succeed r c' (.unary c.current operand)
      | .unsigned => recur .power)
    (fun q => ?_) (fun c q hq => ?_) (fun c hq hl hpos => ?_)
  · cases q with
    | signed =>
      refine Conforms.produces (g := fun r c => andThen r.advance (recur .factor c.advance)
        fun r c' operand => succeed r c' (.unary c.current operand)) ?_
      refine conforms_advance trivial (fun c r c' => andThen r (recur .factor c')
        fun r c' operand => succeed r c' (.unary c.current operand)) fun c => ?_
      exact conforms_rule hf fun operand => conforms_nil
    | unsigned => exact ⟨hp.yields, fun u e c hu _ hb hl => hp.fails u e c hu hb hl⟩
  · simp only [predict] at hq
    split at hq
    next h =>
      cases hq
      simp only [factor, isAdditive_eq, h, if_true]
    next h =>
      split at hq <;> cases hq
      simp only [factor, isAdditive_eq, if_neg h]
  · have hv : Level.additive.admits c.current.mark ≠ true := by
      intro h
      simp [predict, h] at hq
    have hq' := predict_eq_none (q := .unsigned) rfl hq
    simp only [factor, isAdditive_eq, if_neg hv]
    exact hp.fails [] _ c hpos (.start hq') hl

theorem parses_power (ha : Parses m .atom (recur .atom))
    (hf : Parses (m - 1) .factor (recur .factor)) : Parses m .power (power recur) := by
  refine parses_of_production .power (fun q => by cases q; rfl) (g := fun r c =>
      andThen r (recur .atom c) fun r c base =>
        if c.current.is .power then
          andThen r.advance (recur .factor c.advance) fun r c' exponent =>
            succeed r c' (.binary c.current base exponent)
        else succeed r c base)
    (conforms_rule ha fun base => ?_) fun _ h => .start (predict_eq_none (q := .power) rfl h)
  refine conforms_part
    (fun
      | .omitted _ => fun r c => succeed r c base
      | .exponent => fun r c => andThen r.advance (recur .factor c.advance) fun r c' exponent =>
          succeed r c' (.binary c.current base exponent))
    (fun q => ?_) (fun r c q hq => ?_)
  · cases q with
    | omitted => exact conforms_nil (f := fun _ => base)
    | exponent =>
      refine conforms_advance (List.cons_ne_nil _ _) (fun c r c' =>
        andThen r (recur .factor c') fun r c' exponent =>
          succeed r c' (.binary c.current base exponent)) fun c => ?_
      exact conforms_rule (hf.mono (by omega)) fun exponent => conforms_nil
  · simp only [predict, Option.some.injEq] at hq
    subst hq
    simp only [Token.is_eq _ (show Symbol.power ≠ .keyword by decide), beq_iff_eq]
    split <;> rfl

/-- Each form that starts with a keyword is a rule of its own. -/
theorem produces_form {r : Rule} {q : Production (.rule .atom)} (h : Parses m r (recur r))
    (hq : q.items = [.rule r]) : Produces m q (form recur r) := by
  cases q <;> cases hq
  case conditionalForm =>
    exact Conforms.produces (q := .conditionalForm) (conforms_rule h fun t => conforms_nil)
  case forForm => exact Conforms.produces (q := .forForm) (conforms_rule h fun t => conforms_nil)
  case whileForm =>
    exact Conforms.produces (q := .whileForm) (conforms_rule h fun t => conforms_nil)

theorem parses_atom (hl : ∀ r, r.rank < Rule.atom.rank → Parses m r (recur r))
    (he : Parses (m - 1) .expression (recur .expression)) : Parses m .atom (atom recur) := by
  refine parses_of_productions
    (fun
      | .number => fun c => succeed Report.empty.advance c.advance (.literal c.current)
      | .name => fun c => succeed Report.empty.advance c.advance (.ident c.current)
      | .group => fun c =>
        andThen Report.empty.advance (recur .expression c.advance) fun r c inner =>
          expect r c (·.is .closeParen) .closeParen fun r c => succeed r c inner
      | .conditionalForm => form recur .conditional
      | .forForm => form recur .forLoop
      | .whileForm => form recur .whileLoop)
    (fun q => ?_) (fun c q hq => ?_) (fun c hq hloc _ => ?_)
  · cases q with
    | number =>
      refine Conforms.produces (q := .number)
        (g := fun r c => succeed r.advance c.advance (.literal c.current)) ?_
      exact conforms_advance trivial (fun c r c' => succeed r c' (.literal c.current))
        fun c => conforms_nil
    | name =>
      refine Conforms.produces (q := .name)
        (g := fun r c => succeed r.advance c.advance (.ident c.current)) ?_
      exact conforms_advance trivial (fun c r c' => succeed r c' (.ident c.current))
        fun c => conforms_nil
    | group =>
      refine Conforms.produces (q := .group) (g := fun r c =>
        andThen r.advance (recur .expression c.advance) fun r c inner =>
          expect r c (·.is .closeParen) .closeParen fun r c => succeed r c inner) ?_
      refine conforms_advance trivial (fun _ r c => andThen r (recur .expression c)
        fun r c inner => expect r c (·.is .closeParen) .closeParen fun r c => succeed r c inner)
        fun _ => ?_
      refine conforms_rule he fun inner => ?_
      exact conforms_expect (k := .closeParen) (fun t => t.is_eq (by decide))
        fun _ => conforms_nil
    | conditionalForm => exact produces_form (hl _ (by decide)) rfl
    | forForm => exact produces_form (hl _ (by decide)) rfl
    | whileForm => exact produces_form (hl _ (by decide)) rfl
  · simp only [predict] at hq
    unfold predictAtom at hq
    split at hq <;> cases hq <;> next h =>
      simp [atom, Token.is_eq, Token.isKeyword_eq, h]
  · simp only [predict] at hq
    unfold predictAtom at hq
    split at hq <;> cases hq
    have h : atom recur c = fail .empty c .atom := by
      simp_all [atom, Token.is_eq, Token.isKeyword_eq]
    rw [h]
    show FailsAt (fail (running 0 0) c .atom) 0 .atom c
    exact failsAt_fail hloc

theorem parses_conditional (he : Parses (m - 1) .expression (recur .expression))
    (hm : m ≤ depth + 1) : Parses m .conditional (conditional recur depth) := by
  refine parses_of_production .conditional (fun q => by cases q; rfl) (g := fun r c =>
      expectKeyword r c .ifWord fun r c => branch recur r c fun r c condition body =>
        moreBranches recur depth r c [(condition, body)])
    ?_ fun bad h => .token ?_
  · refine conforms_expect (k := .keyword .ifWord) (Token.isKeyword_eq · _) fun _ => ?_
    refine conforms_branch he fun condition _ body => ?_
    exact conforms_moreBranches (by omega) (he.mono (by omega)) [(condition, body)]
  · simpa [predict, Terminal.admits] using h

theorem parses_forLoop (he : Parses (m - 1) .expression (recur .expression)) :
    Parses m .forLoop (forLoop recur) := by
  refine parses_of_production .forLoop (fun q => by cases q; rfl) (g := fun r c =>
      expectKeyword r c .forWord fun r c =>
        expect r c (·.is .identifier) .identifier fun r c' =>
          expect r c' (·.is .assign) .equals fun r c' =>
            andThen r (recur .expression c') fun r c' first =>
              expectKeyword r c' .upto fun r c' =>
                andThen r (recur .expression c') fun r c' last =>
                  stride recur r c' fun r c' step =>
                    expectKeyword r c' .doWord fun r c' =>
                      andThen r (recur .expression c') fun r c' body =>
                        succeed r c' (.forLoop c.current first last step body))
    ?_ fun bad h => .token ?_
  · refine conforms_expect (k := .keyword .forWord) (Token.isKeyword_eq · _) fun _ => ?_
    refine conforms_expect (k := .name) (fun t => t.is_eq (by decide)) fun target => ?_
    refine conforms_expect (k := .assign) (fun t => t.is_eq (by decide)) fun _ => ?_
    refine conforms_rule (he.mono (by omega)) fun first => ?_
    refine conforms_expect (k := .keyword .upto) (Token.isKeyword_eq · _) fun _ => ?_
    refine conforms_rule (he.mono (by omega)) fun last => ?_
    refine conforms_stride (he.mono (by omega)) fun step => ?_
    refine conforms_expect (k := .keyword .doWord) (Token.isKeyword_eq · _) fun _ => ?_
    exact conforms_rule (he.mono (by omega)) fun body => conforms_nil
  · simpa [predict, Terminal.admits] using h

theorem parses_whileLoop (he : Parses (m - 1) .expression (recur .expression)) :
    Parses m .whileLoop (whileLoop recur) := by
  refine parses_of_production .whileLoop (fun q => by cases q; rfl) (g := fun r c =>
      expectKeyword r c .whileWord fun r c => branch recur r c fun r c condition body =>
        succeed r c (.whileLoop condition body))
    ?_ fun bad h => .token ?_
  · refine conforms_expect (k := .keyword .whileWord) (Token.isKeyword_eq · _) fun _ => ?_
    exact conforms_branch he fun condition _ body => conforms_nil
  · simpa [predict, Terminal.admits] using h

/-! ## All rules together -/

theorem parses_zero {r : Rule} {g : Cursor → Step} : Parses 0 r g :=
  ⟨fun _ _ h => absurd h (Nat.not_lt_zero _), fun _ _ _ h => absurd h (Nat.not_lt_zero _)⟩

/-- The body of a rule parses if lower rules do, and all rules once a token is consumed. -/
theorem parses_body (hm : m ≤ depth + 1) (r : Rule)
    (low : ∀ r' : Rule, r'.rank < r.rank → Parses m r' (recur r'))
    (all : ∀ r' : Rule, Parses (m - 1) r' (recur r')) : Parses m r (body recur depth r) := by
  cases r with
  | expression => exact parses_expression (low _ (by decide)) (all _) hm
  | condition => exact parses_condition (low _ (by decide)) (all _) hm
  | sum => exact parses_sum (low _ (by decide)) hm
  | product => exact parses_product (low _ (by decide)) hm
  | factor => exact parses_factor (low _ (by decide)) (all _)
  | power => exact parses_power (low _ (by decide)) (all _)
  | atom => exact parses_atom low (all _)
  | conditional => exact parses_conditional (all _) hm
  | forLoop => exact parses_forLoop (all _)
  | whileLoop => exact parses_whileLoop (all _)

end

/-- Ten levels of rules are enough for each token. -/
theorem parses_derive (depth : Nat) : ∀ (m : Nat) (r : Rule), 10 * m + r.rank ≤ depth + 10 →
    Parses m r (derive depth r) := by
  induction depth with
  | zero =>
    intro m r h
    have hr : 0 < r.rank := by cases r <;> decide
    obtain rfl : m = 0 := by omega
    exact parses_zero
  | succ depth ih =>
    intro m r h
    have hr : ∀ r : Rule, r.rank ≤ 8 := by intro r; cases r <;> decide
    refine parses_body (by omega) r (fun r' hlt => ih m r' (by omega)) fun r' => ?_
    have hr' := hr r'
    cases m with
    | zero => exact parses_zero
    | succ m => exact ih m r' (by omega)

end Grammar

end Reckoner
