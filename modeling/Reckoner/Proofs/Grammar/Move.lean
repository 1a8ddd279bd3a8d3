import Reckoner.Proofs.Grammar.Language
import Reckoner.Proofs.Tree.Move

/-!
# Parsing moved tokens

No rule of the grammar looks at a position. So the parser does to tokens that are moved to other
places what it does to the tokens themselves, and its answer is moved along (`parse_move`): the
same tree, or the same expectation after as many tokens. Each combinator of the rules goes along
with a move if its continuation does.
-/

set_option autoImplicit false

namespace Reckoner

namespace Grammar

variable {f : Position → Position}

/-! ## Moving reports, cursors and answers -/

def Failure.move (f : Position → Position) (e : Failure) : Failure :=
  { e with start := f e.start, stop := f e.stop }

def moveReport (f : Position → Position) (r : Report Failure Tree) : Report Failure Tree :=
  { r with error := r.error.map (Failure.move f), node := r.node.map (Tree.move f) }

def Cursor.move (f : Position → Position) (c : Cursor) : Cursor :=
  ⟨c.current.move f, c.rest.map (Token.move f)⟩

def Step.move (f : Position → Position) (m : Step) : Step :=
  m.map (Prod.map (moveReport f) (Cursor.move f))

theorem Cursor.move_advance (c : Cursor) : c.advance.move f = (c.move f).advance := by
  rcases c with ⟨t, _ | ⟨u, rest⟩⟩ <;> rfl

theorem moveReport_isSome (r : Report Failure Tree) :
    (moveReport f r).error.isSome = r.error.isSome := by
  rw [moveReport, Option.isSome_map]

theorem moveReport_isNone (r : Report Failure Tree) :
    (moveReport f r).error.isNone = r.error.isNone := by
  rw [moveReport, Option.isNone_map]

theorem moveReport_register (r sub : Report Failure Tree) :
    moveReport f (r.register sub) = (moveReport f r).register (moveReport f sub) := by
  rcases sub with ⟨_ | e, node, last, consumed⟩ <;> rfl

theorem moveReport_fail (r : Report Failure Tree) (e : Failure) :
    moveReport f (r.fail e) = (moveReport f r).fail (e.move f) := by
  unfold Report.fail
  rw [moveReport_isNone]
  show moveReport f (if r.error.isNone || r.lastStep == 0 then _ else _) =
    if r.error.isNone || r.lastStep == 0 then _ else _
  split <;> rfl

theorem getD_move (o : Option Tree) :
    (o.map (Tree.move f)).getD .absent = (o.getD .absent).move f := by
  cases o <;> rfl

/-! ## Parts of rules -/

section

variable {r r' : Report Failure Tree} {c c' : Cursor}

theorem fail_move (hr : moveReport f r = r') (hc : c.move f = c') (expected : Expectation) :
    fail r' c' expected = (fail r c expected).move f := by
  subst hr hc
  have hends : (c.move f).current.span.ends? = c.current.span.ends?.map (Prod.map f f) :=
    c.current.span.ends?_move f
  unfold fail
  rw [hends]
  cases c.current.span.ends? with
  | none => rfl
  | some ends =>
    have hfail := moveReport_fail (f := f) r ⟨expected, ends.1, ends.2⟩
    exact congrArg (fun r => Except.ok (r, _)) hfail.symm

theorem andThen_move (hr : moveReport f r = r') {inner inner' : Step}
    (hi : inner' = inner.move f) {next next' : Report Failure Tree → Cursor → Tree → Step}
    (h : ∀ r c t, next' (moveReport f r) (c.move f) (t.move f) = (next r c t).move f) :
    andThen r' inner' next' = (andThen r inner next).move f := by
  subst hr hi
  unfold andThen
  rcases inner with halt | ⟨sub, c⟩
  · rfl
  · show (if ((moveReport f r).register (moveReport f sub)).error.isSome then _ else _) = _
    rw [← moveReport_register, moveReport_isSome]
    dsimp only
    split
    · rfl
    · exact (congrArg (next' _ _) (getD_move _)).trans (h _ _ _)

theorem orExpect_move (hr : moveReport f r = r') {inner inner' : Step}
    (hi : inner' = inner.move f) (expected : Expectation) :
    orExpect r' inner' expected = (orExpect r inner expected).move f := by
  subst hr hi
  unfold orExpect
  rcases inner with halt | ⟨sub, c⟩
  · rfl
  · show (if ((moveReport f r).register (moveReport f sub)).error.isSome then _ else _) = _
    rw [← moveReport_register, moveReport_isSome]
    dsimp only
    split
    · exact fail_move (by rfl) (by rfl) expected
    · exact congrArg (succeed _ _) (getD_move _)

theorem expect_move (hr : moveReport f r = r') (hc : c.move f = c') {ok : Token → Bool}
    (hok : ∀ t : Token, ok (t.move f) = ok t) {expected : Expectation}
    {next next' : Report Failure Tree → Cursor → Step}
    (h : ∀ r c, next' (moveReport f r) (c.move f) = (next r c).move f) :
    expect r' c' ok expected next' = (expect r c ok expected next).move f := by
  subst hr hc
  have hcurrent : ok (c.move f).current = ok c.current := hok c.current
  unfold expect
  rw [hcurrent]
  split
  · rw [← Cursor.move_advance]
    exact h r.advance c.advance
  · exact fail_move (by rfl) (by rfl) expected

end

/-! ## The rules -/

section

variable {recur : Rule → Cursor → Step} {depth : Nat}

theorem chainRest_move {operand : Cursor → Step}
    (ho : ∀ c : Cursor, operand (c.move f) = (operand c).move f) {isOp : Token → Bool}
    (hop : ∀ t : Token, isOp (t.move f) = isOp t) (depth : Nat) :
    ∀ (r : Report Failure Tree) (c : Cursor) (left : Tree),
      chainRest operand isOp depth (moveReport f r) (c.move f) (left.move f) =
        (chainRest operand isOp depth r c left).move f := by
  induction depth with
  | zero => exact fun _ _ _ => rfl
  | succ depth ih =>
    intro r c left
    unfold chainRest
    rw [show isOp (c.move f).current = isOp c.current from hop c.current, ← Cursor.move_advance]
    split
    · exact andThen_move (by rfl) (ho _) fun r c' right => ih r c' (.binary c.current left right)
    · rfl

theorem chain_move {operand : Cursor → Step}
    (ho : ∀ c : Cursor, operand (c.move f) = (operand c).move f) {isOp : Token → Bool}
    (hop : ∀ t : Token, isOp (t.move f) = isOp t) (depth : Nat) (c : Cursor) :
    chain operand isOp depth (c.move f) = (chain operand isOp depth c).move f :=
  andThen_move (by rfl) (ho c) (chainRest_move ho hop depth)

variable (hrecur : ∀ (r : Rule) (c : Cursor), recur r (c.move f) = (recur r c).move f)

include hrecur

theorem expression_move (c : Cursor) :
    expression recur depth (c.move f) = (expression recur depth c).move f := by
  unfold expression
  show (if c.current.isKeyword .var then _ else _) = _
  rw [← Cursor.move_advance]
  split
  · refine expect_move (by rfl) (by rfl) (fun _ => by rfl) fun r c' => ?_
    refine expect_move (by rfl) (by rfl) (fun _ => by rfl) fun r c'' => ?_
    exact andThen_move (by rfl) (hrecur _ _) fun r c''' value => by rfl
  · exact orExpect_move (by rfl) (chain_move (hrecur _) (fun _ => by rfl) depth c) _

theorem condition_move (c : Cursor) :
    condition recur depth (c.move f) = (condition recur depth c).move f := by
  unfold condition
  show (if c.current.isKeyword .not then _ else _) = _
  split
  · rw [← Cursor.move_advance]
    exact andThen_move (by rfl) (hrecur _ _) fun r c' operand => by rfl
  · exact orExpect_move (by rfl) (chain_move (hrecur _) (fun _ => by rfl) depth c) _

theorem factor_move (c : Cursor) : factor recur (c.move f) = (factor recur c).move f := by
  unfold factor
  show (if isAdditive c.current then _ else _) = _
  split
  · rw [← Cursor.move_advance]
    exact andThen_move (by rfl) (hrecur _ _) fun r c' operand => by rfl
  · exact hrecur _ _

theorem power_move (c : Cursor) : power recur (c.move f) = (power recur c).move f := by
  unfold power
  refine andThen_move (by rfl) (hrecur _ _) fun r c base => ?_
  show (if c.current.is .power then _ else _) = _
  rw [← Cursor.move_advance]
  split
  · exact andThen_move (by rfl) (hrecur _ _) fun r c' exponent => by rfl
  · rfl

theorem form_move (rule : Rule) (c : Cursor) :
    form recur rule (c.move f) = (form recur rule c).move f :=
  andThen_move (by rfl) (hrecur rule c) fun _ _ _ => by rfl

theorem atom_move (c : Cursor) : atom recur (c.move f) = (atom recur c).move f := by
  unfold atom
  dsimp only
  show (if c.current.is .int || c.current.is .float then _ else if c.current.is .identifier then _
    else if c.current.is .openParen then _ else if c.current.isKeyword .ifWord then _
    else if c.current.isKeyword .forWord then _ else if c.current.isKeyword .whileWord then _
    else _) = _
  rw [← Cursor.move_advance]
  repeat' split
  · rfl
  · rfl
  · refine andThen_move (by rfl) (hrecur _ _) fun r c inner => ?_
    exact expect_move (by rfl) (by rfl) (fun _ => by rfl) fun r c => by rfl
  · exact form_move hrecur _ c
  · exact form_move hrecur _ c
  · exact form_move hrecur _ c
  · exact fail_move (by rfl) (by rfl) _

theorem branch_move {r : Report Failure Tree} {c : Cursor}
    {next next' : Report Failure Tree → Cursor → Tree → Tree → Step}
    (h : ∀ r c t u, next' (moveReport f r) (c.move f) (t.move f) (u.move f) =
      (next r c t u).move f) :
    branch recur (moveReport f r) (c.move f) next' = (branch recur r c next).move f := by
  refine andThen_move (by rfl) (hrecur _ _) fun r c condition => ?_
  refine expect_move (by rfl) (by rfl) (fun _ => by rfl) fun r c => ?_
  exact andThen_move (by rfl) (hrecur _ _) fun r c body => h r c condition body

theorem moreBranches_move (depth : Nat) :
    ∀ (r : Report Failure Tree) (c : Cursor) (done : List (Tree × Tree)),
      moreBranches recur depth (moveReport f r) (c.move f)
          (done.map fun x => (x.1.move f, x.2.move f)) =
        (moreBranches recur depth r c done).move f := by
  induction depth with
  | zero => exact fun _ _ _ => rfl
  | succ depth ih =>
    intro r c done
    unfold moreBranches
    show (if c.current.isKeyword .elifWord then _ else if c.current.isKeyword .elseWord then _
      else _) = _
    rw [← Cursor.move_advance, ← List.map_reverse, ← Branches.move_ofList]
    dsimp only
    repeat' split
    · exact branch_move hrecur (r := r.advance) fun r c condition body =>
        ih r c ((condition, body) :: done)
    · exact andThen_move (by rfl) (hrecur _ _) fun r c otherwise => by rfl
    · rfl

theorem conditional_move (c : Cursor) :
    conditional recur depth (c.move f) = (conditional recur depth c).move f := by
  unfold conditional expectKeyword
  refine expect_move (by rfl) (by rfl) (fun _ => by rfl) fun r c => ?_
  exact branch_move hrecur fun r c condition body =>
    moreBranches_move hrecur depth r c [(condition, body)]

theorem stride_move {r : Report Failure Tree} {c : Cursor}
    {next next' : Report Failure Tree → Cursor → Tree → Step}
    (h : ∀ r c t, next' (moveReport f r) (c.move f) (t.move f) = (next r c t).move f) :
    stride recur (moveReport f r) (c.move f) next' = (stride recur r c next).move f := by
  unfold stride
  show (if c.current.isKeyword .step then _ else _) = _
  split
  · rw [← Cursor.move_advance]
    exact andThen_move (by rfl) (hrecur _ _) h
  · exact h r c .absent

theorem forLoop_move (c : Cursor) : forLoop recur (c.move f) = (forLoop recur c).move f := by
  unfold forLoop expectKeyword
  refine expect_move (by rfl) (by rfl) (fun _ => by rfl) fun r c => ?_
  refine expect_move (by rfl) (by rfl) (fun _ => by rfl) fun r c' => ?_
  refine expect_move (by rfl) (by rfl) (fun _ => by rfl) fun r c' => ?_
  refine andThen_move (by rfl) (hrecur _ _) fun r c' first => ?_
  refine expect_move (by rfl) (by rfl) (fun _ => by rfl) fun r c' => ?_
  refine andThen_move (by rfl) (hrecur _ _) fun r c' last => ?_
  refine stride_move hrecur fun r c' step => ?_
  refine expect_move (by rfl) (by rfl) (fun _ => by rfl) fun r c' => ?_
  exact andThen_move (by rfl) (hrecur _ _) fun r c' body => by rfl

theorem whileLoop_move (c : Cursor) : whileLoop recur (c.move f) = (whileLoop recur c).move f := by
  unfold whileLoop expectKeyword
  refine expect_move (by rfl) (by rfl) (fun _ => by rfl) fun r c => ?_
  exact branch_move hrecur fun r c condition body => by rfl

theorem body_move (rule : Rule) (c : Cursor) :
    body recur depth rule (c.move f) = (body recur depth rule c).move f := by
  cases rule with
  | expression => exact expression_move hrecur c
  | condition => exact condition_move hrecur c
  | sum | product => exact chain_move (hrecur _) (fun _ => by rfl) depth c
  | factor => exact factor_move hrecur c
  | power => exact power_move hrecur c
  | atom => exact atom_move hrecur c
  | conditional => exact conditional_move hrecur c
  | forLoop => exact forLoop_move hrecur c
  | whileLoop => exact whileLoop_move hrecur c

end

theorem derive_move (depth : Nat) :
    ∀ (rule : Rule) (c : Cursor), derive depth rule (c.move f) = (derive depth rule c).move f := by
  induction depth with
  | zero => exact fun _ _ => rfl
  | succ depth ih => exact body_move ih

/-- The parser's answer to moved tokens is its answer to the tokens, moved along. -/
theorem parse_move (f : Position → Position) (ts : List Token) :
    parse (ts.map (Token.move f)) = (parse ts).move f := by
  cases ts with
  | nil => rfl
  | cons t rest =>
    have hcursor : Cursor.ofTokens? (t :: rest) = some ⟨t, rest⟩ := rfl
    have hmoved : Cursor.ofTokens? ((t :: rest).map (Token.move f)) =
      some (Cursor.move f ⟨t, rest⟩) := rfl
    have hdepth : depthFor ((t :: rest).map (Token.move f)) = depthFor (t :: rest) := by
      rw [depthFor, depthFor, List.length_map]
    unfold parse
    simp only [hcursor, hmoved, hdepth, derive_move]
    rcases derive (depthFor (t :: rest)) .expression ⟨t, rest⟩ with halt | ⟨r, c⟩
    · rfl
    · show (if (moveReport f r).error.isNone && !c.current.is .endOfText then _ else _) = _
      rw [moveReport_isNone]
      dsimp only
      split
      · exact fail_move (by rfl) (by rfl) _
      · rfl

section

variable {ts : List Token} {t : Tree} {e : Failure} {k : Nat}

theorem Accepts.move (h : Accepts ts t) (f : Position → Position) :
    Accepts (ts.map (Token.move f)) (t.move f) := by
  obtain ⟨r, c, hparse, herror, hnode⟩ := h
  refine ⟨moveReport f r, c.move f, ?_, ?_, ?_⟩
  · rw [parse_move, hparse]
    rfl
  · rw [moveReport, herror]
    rfl
  · rw [moveReport, hnode]
    rfl

theorem Rejects.move (h : Rejects ts e k) (f : Position → Position) :
    Rejects (ts.map (Token.move f)) (e.move f) k := by
  obtain ⟨r, c, hparse, herror, hconsumed⟩ := h
  refine ⟨moveReport f r, c.move f, ?_, ?_, hconsumed⟩
  · rw [parse_move, hparse]
    rfl
  · rw [moveReport, herror]
    rfl

end

end Grammar

end Reckoner
