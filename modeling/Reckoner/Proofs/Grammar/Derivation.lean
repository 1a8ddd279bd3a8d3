import Reckoner.Proofs.Grammar.Production

/-!
# Derivations

`Derivation is` derives a list of tokens from the items `is`: each terminal is a token that it
admits and each phrase is replaced by the items of one of its productions. Since the grammar is
ambiguous, one list may have several derivations. In a greedy one no part is left out before a
token that could open it, so each operator, exponent, branch and stride belongs to the innermost
construct that can take it; there is at most one greedy derivation (`Derivation.eq_of_greedy`).
-/

set_option autoImplicit false

namespace Reckoner

namespace Grammar

inductive Derivation : List Item → Type where
  | nil : Derivation []
  | token {k : Terminal} {is : List Item} (t : Token) (admitted : k.admits t.mark = true)
      (rest : Derivation is) : Derivation (.token k :: is)
  | phrase {p : Phrase} {is : List Item} (q : Production p) (inner : Derivation q.items)
      (rest : Derivation is) : Derivation (.phrase p :: is)

/-- The mark of the next token; where there is none, that of the end. -/
def lookahead : List Token → Mark
  | [] => .symbol .endOfText
  | t :: _ => t.mark

/-- Whether the production may be used where `after` follows: a part is left out only if the
next token does not open it. -/
def Production.FitsBefore {p : Phrase} : Production p → List Token → Prop
  | .omitted o, after => o.opens (lookahead after) = false
  | _, _ => True

namespace Derivation

/-- The tokens derived. -/
def tokens {is : List Item} : Derivation is → List Token
  | .nil => []
  | .token t _ rest => t :: rest.tokens
  | .phrase _ inner rest => inner.tokens ++ rest.tokens

/-- What the items mean, folded from the inside out. -/
def meanings {is : List Item} : Derivation is → Meanings is
  | .nil => ()
  | .token t _ rest => (t, rest.meanings)
  | .phrase q inner rest => (q.build inner.meanings, rest.meanings)

/-- No part is left out before a token that opens it, `after` being what follows. -/
def Greedy {is : List Item} : Derivation is → List Token → Prop
  | .nil, _ => True
  | .token _ _ rest, after => rest.Greedy after
  | .phrase q inner rest, after =>
    q.FitsBefore (rest.tokens ++ after) ∧ inner.Greedy (rest.tokens ++ after) ∧ rest.Greedy after

/-- The tree of a derivation from a rule. -/
def tree {r : Rule} (d : Derivation [.rule r]) : Tree := d.meanings.1

section

variable {is : List Item}

@[simp] theorem tokens_nil : nil.tokens = [] := rfl

@[simp] theorem tokens_token {k : Terminal} (t : Token) (h : k.admits t.mark = true)
    (rest : Derivation is) : (token t h rest).tokens = t :: rest.tokens := rfl

@[simp] theorem tokens_phrase {p : Phrase} (q : Production p) (inner : Derivation q.items)
    (rest : Derivation is) : (phrase q inner rest).tokens = inner.tokens ++ rest.tokens := rfl

end

end Derivation

/-- A derivation of expressions. -/
abbrev Sentence := Derivation [.rule .expression]

/-! ## First tokens -/

theorem items_ne_part {p : Phrase} {q : Production p} {o : Part} {is : List Item} :
    q.items ≠ .part o :: is := by
  cases q <;> simp [Production.items]

/-- A production that has items derives a token by which it is predicted. -/
theorem Derivation.first {is : List Item} (d : Derivation is) :
    ∀ {p : Phrase} {q : Production p}, q.items = is → is ≠ [] →
      ∃ t w, d.tokens = t :: w ∧ predict p t.mark = some q := by
  induction d with
  | nil => intro p q _ h; exact absurd rfl h
  | token t h rest _ => intro p q hq _; exact ⟨t, rest.tokens, rfl, predict_of_admits hq h⟩
  | @phrase p' is q' inner rest ih _ =>
    intro p q hq _
    cases p' with
    | part o => exact absurd hq items_ne_part
    | rule r =>
      have hne : q'.items ≠ [] := by cases q' <;> simp [Production.items]
      obtain ⟨t, w, ht, hp⟩ := ih rfl hne
      refine ⟨t, w ++ rest.tokens, by simp [ht], predict_of_starts hq ?_⟩
      rw [← isSome_predict, hp]
      rfl

/-- A production derives nothing, its phrase being left out, or tokens by which it is
predicted. -/
theorem Derivation.omitted_or_first {p : Phrase} {q : Production p} (inner : Derivation q.items) :
    (q.items = [] ∧ inner.tokens = []) ∨
      ∃ t w, inner.tokens = t :: w ∧ predict p t.mark = some q := by
  by_cases hne : q.items = []
  · refine .inl ⟨hne, ?_⟩
    cases q with
    | omitted o => cases inner; rfl
    | _ => cases hne
  · exact .inr (inner.first rfl hne)

/-- A production that derives tokens is the one predicted before them. -/
theorem Derivation.eq_of_predict {p : Phrase} {q q' : Production p} (inner : Derivation q'.items)
    {after : List Token} (hne : inner.tokens ≠ [])
    (hq : predict p (lookahead (inner.tokens ++ after)) = some q) : q' = q := by
  rcases inner.omitted_or_first with ⟨_, ht⟩ | ⟨t, w, ht, hp⟩
  · exact absurd ht hne
  · rw [ht] at hq
    exact Option.some.inj (hp.symm.trans hq)

/-- A rule derives at least one token. -/
theorem Derivation.rule_tokens_ne_nil {r : Rule} {is : List Item} (d : Derivation (.rule r :: is)) :
    d.tokens ≠ [] := by
  cases d with
  | phrase q inner rest =>
    have hne : q.items ≠ [] := by cases q <;> simp [Production.items]
    obtain ⟨t, w, ht, _⟩ := inner.first rfl hne
    simp [ht]

/-- A production that fits is the one predicted. -/
theorem predict_of_fits {p : Phrase} {q : Production p} (inner : Derivation q.items)
    {after : List Token} (h : q.FitsBefore after) :
    predict p (lookahead (inner.tokens ++ after)) = some q := by
  rcases inner.omitted_or_first with ⟨hi, ht⟩ | ⟨t, w, ht, hp⟩
  · rw [ht]
    cases q with
    | omitted o => exact predict_part_omitted.2 h
    | _ => cases hi
  · rw [ht]
    exact hp

/-! ## Uniqueness -/

/-- Greedy derivations from the same items along the same tokens are one derivation. -/
theorem Derivation.eq_of_greedy {is : List Item} (d : Derivation is) :
    ∀ {d' : Derivation is} {after after' : List Token}, d.Greedy after → d'.Greedy after' →
      d.tokens ++ after = d'.tokens ++ after' → d = d' ∧ after = after' := by
  induction d with
  | nil =>
    intro d' after after' _ _ h
    cases d'
    exact ⟨rfl, h⟩
  | token t ht rest ih =>
    intro d' after after' hg hg' h
    cases d' with
    | token t' ht' rest' =>
      simp only [Derivation.tokens_token, List.cons_append, List.cons.injEq] at h
      obtain ⟨rfl, h⟩ := h
      obtain ⟨rfl, rfl⟩ := ih hg hg' h
      exact ⟨rfl, rfl⟩
  | phrase q inner rest ihi ihr =>
    intro d' after after' hg hg' h
    cases d' with
    | phrase q' inner' rest' =>
      obtain ⟨hq, hi, hr⟩ := hg
      obtain ⟨hq', hi', hr'⟩ := hg'
      simp only [Derivation.tokens_phrase, List.append_assoc] at h
      have hp := predict_of_fits inner hq
      rw [h, predict_of_fits inner' hq'] at hp
      cases hp
      obtain ⟨rfl, h2⟩ := ihi hi hi' h
      obtain ⟨rfl, rfl⟩ := ihr hr hr' h2
      exact ⟨rfl, rfl⟩

theorem fits_congr {p : Phrase} (q : Production p) {after after' : List Token}
    (h : ∀ o : Part, o.opens (lookahead after) = o.opens (lookahead after')) :
    q.FitsBefore after ↔ q.FitsBefore after' := by
  cases q <;> simp only [Production.FitsBefore, h]

/-- What follows matters to a greedy derivation only by the parts that it opens. -/
theorem greedy_congr_of_opens {is : List Item} (d : Derivation is) {after after' : List Token}
    (h : ∀ o : Part, o.opens (lookahead after) = o.opens (lookahead after')) :
    d.Greedy after ↔ d.Greedy after' := by
  induction d generalizing after after' with
  | nil => exact Iff.rfl
  | token t ht rest ih => exact ih h
  | phrase q inner rest ihi ihr =>
    have hl : ∀ o : Part, o.opens (lookahead (rest.tokens ++ after)) =
        o.opens (lookahead (rest.tokens ++ after')) := by
      cases rest.tokens with
      | nil => exact h
      | cons t w => exact fun _ => rfl
    simp only [Derivation.Greedy, fits_congr q hl, ihi hl, ihr h]

/-- What follows matters to a greedy derivation only by its next token. -/
theorem greedy_congr {is : List Item} (d : Derivation is) {after after' : List Token}
    (h : lookahead after = lookahead after') : d.Greedy after ↔ d.Greedy after' :=
  greedy_congr_of_opens d fun o => congrArg o.opens h

theorem Derivation.Greedy.of_append_cons {is : List Item} {d : Derivation is} {u after : List Token}
    {t : Token} (h : d.Greedy (u ++ t :: after)) (after' : List Token) :
    d.Greedy (u ++ t :: after') :=
  (greedy_congr d (by cases u <;> rfl)).1 h

end Grammar

end Reckoner
