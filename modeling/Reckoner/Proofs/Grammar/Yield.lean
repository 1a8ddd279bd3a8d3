import Reckoner.Proofs.Grammar.Regularity
import Reckoner.Proofs.Tree.Tokens

/-!
# The tokens that parsing keeps

The tree of a derivation keeps the names, numbers and operators among the tokens derived, in
their order, and drops the rest: parentheses, equals signs and the words that divide a construct
(`Derivation.tree_tokens`). So the tokens of a tree stand in it in the order of the text.
-/

set_option autoImplicit false

namespace Reckoner

namespace Grammar

/-! ## Kept tokens -/

/-- Whether trees keep tokens with this mark. -/
def Mark.isKept : Mark → Bool
  | .symbol .assign | .symbol .openParen | .symbol .closeParen => false
  | .symbol _ => true
  | .keyword w => w = .and ∨ w = .or ∨ w = .not
  | .unlisted => false

def Terminal.isKept : Terminal → Bool
  | .keyword w => Mark.isKept (.keyword w)
  | .assign | .openParen | .closeParen => false
  | _ => true

theorem Terminal.isKept_of_admits {k : Terminal} {m : Mark} (h : k.admits m = true) :
    m.isKept = k.isKept := by
  cases k with
  | operator l =>
    cases l <;> simp only [admits, Level.admits, Bool.or_eq_true, beq_iff_eq] at h
    case logical | additive | multiplicative => rcases h with rfl | rfl <;> rfl
    case comparison => rcases h with ((((rfl | rfl) | rfl) | rfl) | rfl) | rfl <;> rfl
  | number =>
    simp only [admits, Bool.or_eq_true, beq_iff_eq] at h
    rcases h with rfl | rfl <;> rfl
  | _ =>
    rw [beq_iff_eq.1 h]
    rfl

/-! ## What is made of kept tokens -/

/-- The tokens that a meaning puts into a tree. -/
def Phrase.Yields : (p : Phrase) → p.Meaning → List Token → Prop
  | .rule _, t, w => Tree.tokens t = w
  | .part (.operations _), f, w => ∀ t, Tree.tokens (f t) = Tree.tokens t ++ w
  | .part .exponent, f, w => ∀ t, Tree.tokens (f t) = Tree.tokens t ++ w
  | .part .branches, (branches, otherwise), w =>
    (Branches.ofList branches).tokens ++ Tree.tokens otherwise = w
  | .part .stride, t, w => Tree.tokens t = w

def Meanings.Yields : (is : List Item) → Meanings is → List Token → Prop
  | [], _, w => w = []
  | .token k :: is, (t, x), w =>
    ∃ v, w = (if k.isKept then ([t] : List Token) else []) ++ v ∧ Yields is x v
  | .phrase p :: is, (y, x), w => ∃ u v, w = u ++ v ∧ p.Yields y u ∧ Yields is x v

theorem build_yields {p : Phrase} (q : Production p) (x : Meanings q.items) (w : List Token)
    (h : Meanings.Yields q.items x w) : p.Yields (q.build x) w := by
  cases q with
  | assignment =>
    obtain ⟨_, rfl, _, rfl, _, rfl, value, _, rfl, rfl, rfl⟩ := h
    exact congrArg _ (List.append_nil _).symm
  | logical | comparison | sum | product | power =>
    obtain ⟨left, _, rfl, rfl, operations, _, rfl, hoperations, rfl⟩ := h
    exact (hoperations _).trans (congrArg _ (List.append_nil _).symm)
  | negation | signed =>
    obtain ⟨_, rfl, operand, _, rfl, rfl, rfl⟩ := h
    exact congrArg _ (List.append_nil _).symm
  | unsigned | conditionalForm | forForm | whileForm =>
    obtain ⟨t, _, rfl, rfl, rfl⟩ := h
    exact (List.append_nil _).symm
  | number | name =>
    obtain ⟨_, rfl, rfl⟩ := h
    rfl
  | group =>
    obtain ⟨_, rfl, t, _, rfl, rfl, _, rfl, rfl⟩ := h
    exact (List.append_nil _).symm
  | conditional | elifBranch =>
    obtain ⟨_, rfl, condition, _, rfl, rfl, _, rfl, body, _, rfl, rfl, branches, _, rfl, rfl,
      rfl⟩ := h
    show _ ++ _ ++ _ ++ _ = _ ++ (_ ++ (_ ++ _ ++ []))
    simp only [List.append_assoc, List.append_nil]
  | forLoop =>
    obtain ⟨_, rfl, _, rfl, _, rfl, first, _, rfl, rfl, _, rfl, last, _, rfl, rfl, stride, _,
      rfl, rfl, _, rfl, body, _, rfl, rfl, rfl⟩ := h
    show _ :: (_ ++ _ ++ _ ++ _) = _ :: (_ ++ (_ ++ (_ ++ (_ ++ []))))
    simp only [List.append_assoc, List.append_nil]
  | whileLoop =>
    obtain ⟨_, rfl, condition, _, rfl, rfl, _, rfl, body, _, rfl, rfl, rfl⟩ := h
    show _ ++ _ = _ ++ (_ ++ [])
    rw [List.append_nil]
  | omitted o =>
    obtain rfl := h
    cases o with
    | operations | exponent => exact fun t => (List.append_nil _).symm
    | branches | stride => rfl
  | operation l =>
    obtain ⟨_, rfl, right, _, rfl, rfl, operations, _, rfl, hoperations, rfl⟩ := h
    refine fun left => (hoperations _).trans ?_
    show _ ++ _ :: _ ++ _ = _ ++ _ :: (_ ++ (_ ++ []))
    rw [List.append_nil, List.append_assoc]
    rfl
  | exponent =>
    obtain ⟨_, rfl, right, _, rfl, rfl, rfl⟩ := h
    refine fun left => ?_
    show _ ++ _ :: _ = _ ++ _ :: (_ ++ [])
    rw [List.append_nil]
  | elseBranch =>
    obtain ⟨_, rfl, otherwise, _, rfl, rfl, rfl⟩ := h
    exact (List.append_nil _).symm
  | stride =>
    obtain ⟨_, rfl, step, _, rfl, rfl, rfl⟩ := h
    exact (List.append_nil _).symm

theorem Derivation.yields {is : List Item} (d : Derivation is) :
    Meanings.Yields is d.meanings (d.tokens.filter (·.mark.isKept)) := by
  induction d with
  | nil => rfl
  | token t ht rest ih =>
    refine ⟨_, ?_, ih⟩
    rw [tokens_token, List.filter_cons, Terminal.isKept_of_admits ht]
    split <;> rfl
  | phrase q inner rest ihi ihr =>
    rw [tokens_phrase, List.filter_append]
    exact ⟨_, _, rfl, build_yields q _ _ ihi, ihr⟩

/-- The tree of a derivation keeps what is no punctuation. -/
theorem Derivation.tree_tokens {r : Rule} (d : Derivation [.rule r]) :
    d.tree.tokens = d.tokens.filter (·.mark.isKept) := by
  obtain ⟨u, _, hw, rfl, rfl⟩ := d.yields
  rw [hw, List.append_nil]
  rfl

/-- The tokens of the tree of a closed list are those of the list that trees keep. -/
theorem Closed.tree_tokens {ts : List Token} (h : Closed ts) {t : Tree}
    (ht : Source.treeOfTokens ts = .ok t) :
    t.tokens = ts.dropLast.filter (·.mark.isKept) := by
  rcases h.accepts_or_refused with ⟨d, hd, -, ha⟩ | ⟨u, bad, after, e, start, stop, rfl, hs, hr⟩
  · obtain rfl := Except.ok.inj ((treeOfTokens_of_accepts ha).symm.trans ht)
    rw [d.tree_tokens, hd]
  · rw [treeOfTokens_of_rejects (hr.rejects hs after)] at ht
    cases ht

end Grammar

end Reckoner
