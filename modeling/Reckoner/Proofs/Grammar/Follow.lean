import Reckoner.Proofs.Grammar.Written

/-!
# What cannot come next

A greedy derivation leaves a part out only before a token that does not open it. So the token after
what a rule derives opens none of the parts that stand last in the productions of the rule
(`Derivation.shut`): no operator comes after an expression, or after anything that ends in one
(`Derivation.quits`).
-/

set_option autoImplicit false

namespace Reckoner

namespace Grammar

deriving instance DecidableEq for Part

/-! ## Parts that are shut -/

/-- Operators of a level, or an exponent. -/
def Part.isOperator : Part → Bool
  | .operations _ | .exponent => true
  | .branches | .stride => false

/-- Whether the operator is left out at the end of all that the rule derives, because no rule that
binds looser than it comes between. -/
def Rule.shuts (r : Rule) : Part → Bool
  | .operations l => l.rule.rank ≤ r.rank
  | .exponent => Rule.power.rank ≤ r.rank
  | .branches | .stride => false

/-- The rule in which a part ends where it is not left out. -/
def Part.last : Part → Rule
  | .operations l => l.operand
  | .exponent => .factor
  | .branches | .stride => .expression

/-- Whether an operator is shut after the phrase. -/
def Phrase.shuts : Phrase → Part → Bool
  | .rule r, o => r.shuts o
  | .part o', o => o' = o

/-- Whether an operator that is shut before the phrase is shut after it. -/
def Phrase.keeps : Phrase → Part → Bool
  | .rule r, o => r.shuts o
  | .part o', o => o' = o || o'.last.shuts o

mutual

/-- Whether an operator is shut after the items. -/
def shutAfter : List Item → Part → Bool
  | [], _ => false
  | .token _ :: is, o => shutAfter is o
  | .phrase p :: is, o => shutAfter is o || p.shuts o && keptAfter is o

/-- Whether an operator that is shut before the items is shut after them. -/
def keptAfter : List Item → Part → Bool
  | [], _ => true
  | .token _ :: is, o => shutAfter is o
  | .phrase p :: is, o => shutAfter is o || p.keeps o && keptAfter is o

end

section

variable {p : Phrase} (q : Production p) {o : Part}

/-- Each production of a phrase shuts what the phrase does, or leaves it out itself. -/
theorem shutAfter_of_shuts (ho : o.isOperator = true) (h : p.shuts o = true) :
    shutAfter q.items o = true ∨
      ∀ after, q.FitsBefore after → o.opens (lookahead after) = false := by
  cases q with
  | omitted o' =>
    obtain rfl : o' = o := of_decide_eq_true h
    exact .inr fun after hq => hq
  | operation l =>
    obtain rfl : .operations l = o := of_decide_eq_true h
    cases l <;> exact .inl rfl
  | _ =>
    refine .inl ?_
    rcases o with l | _ | _ | _
    · cases l <;> revert h <;> decide
    · revert h
      decide
    · cases ho
    · cases ho

/-- Each production of a phrase shuts what the phrase does not open again, unless it is empty. -/
theorem shutAfter_of_keeps (ho : o.isOperator = true) (h : p.keeps o = true) :
    shutAfter q.items o = true ∨ q.items = [] := by
  cases q with
  | omitted o' => exact .inr rfl
  | operation l =>
    rcases o with l' | _ | _ | _
    · cases l <;> cases l' <;> revert h <;> decide
    · cases l <;> revert h <;> decide
    · cases ho
    · cases ho
  | _ =>
    refine .inl ?_
    rcases o with l | _ | _ | _
    · cases l <;> revert h <;> decide
    · revert h
      decide
    · cases ho
    · cases ho

end

theorem Derivation.tokens_of_nil {is : List Item} (d : Derivation is) (h : is = []) :
    d.tokens = [] := by
  subst h
  cases d
  rfl

/-- What comes after a greedy derivation does not open what is shut there. -/
theorem Derivation.shut {o : Part} (ho : o.isOperator = true) {is : List Item}
    (d : Derivation is) : ∀ after, d.Greedy after →
      (shutAfter is o = true → o.opens (lookahead after) = false) ∧
        (keptAfter is o = true → o.opens (lookahead after) = false ∨ d.tokens = []) := by
  induction d with
  | nil => exact fun after _ => ⟨(absurd · Bool.false_ne_true), fun _ => .inr rfl⟩
  | token t ht rest ih =>
    intro after hg
    have h := (ih after hg).1
    exact ⟨h, fun hk => .inl (h hk)⟩
  | @phrase p is q inner rest ihi ihr =>
    rintro after ⟨hq, hi, hr⟩
    obtain ⟨hshut, hkeep⟩ := ihr after hr
    constructor
    · intro h
      rw [shutAfter, Bool.or_eq_true, Bool.and_eq_true] at h
      rcases h with h | ⟨hp, h⟩
      · exact hshut h
      rcases hkeep h with h | hnil
      · exact h
      rw [hnil] at hq hi
      rcases shutAfter_of_shuts q ho hp with h | h
      · exact (ihi _ hi).1 h
      · exact h _ hq
    · intro h
      rw [keptAfter, Bool.or_eq_true, Bool.and_eq_true] at h
      rcases h with h | ⟨hp, h⟩
      · exact .inl (hshut h)
      rcases hkeep h with h | hnil
      · exact .inl h
      rw [hnil] at hi
      rcases shutAfter_of_keeps q ho hp with h | h
      · exact .inl ((ihi _ hi).1 h)
      · exact .inr (by rw [tokens_phrase, inner.tokens_of_nil h, hnil]; rfl)

/-- No operator comes after items that shut them all. -/
theorem Derivation.quits {is : List Item} {d : Derivation is} {after : List Token}
    (hg : d.Greedy after) (his : ∀ o : Part, o.isOperator = true → shutAfter is o = true) :
    Quits after where
  operations _ := (d.shut rfl after hg).1 (his _ rfl)
  exponent := (d.shut rfl after hg).1 (his _ rfl)

/-- A conditional ends in an expression. -/
theorem Derivation.quits_of_conditional {d : Derivation Production.conditional.items}
    {after : List Token} (hg : d.Greedy after) : Quits after :=
  quits hg fun o ho => by
    rcases o with l | _ | _ | _
    · cases l <;> rfl
    · rfl
    · cases ho
    · cases ho

end Grammar

end Reckoner
