import Reckoner.Proofs.Grammar.Language
import Reckoner.Proofs.Tree.Regular
import Reckoner.Evaluation.Source

/-!
# Parsing builds regular trees

Each production makes something regular of regular items (`build_regular`), so the tree of a
derivation is regular (`Derivation.regular`), and with it every tree that parsing gives.
-/

set_option autoImplicit false

namespace Reckoner

namespace Grammar

/-- What is known of a meaning if `P` holds of its tokens. -/
def Phrase.Regular (P : Token → Prop) : (p : Phrase) → p.Meaning → Prop
  | .rule _, t => Tree.Regular P t
  | .part (.operations _), f => ∀ t, Tree.Regular P t → Tree.Regular P (f t)
  | .part .exponent, f => ∀ t, Tree.Regular P t → Tree.Regular P (f t)
  | .part .branches, (branches, otherwise) =>
    (Branches.ofList branches).Regular P ∧ (otherwise = .absent ∨ Tree.Regular P otherwise)
  | .part .stride, t => t = Tree.absent ∨ Tree.Regular P t

def Meanings.Regular (P : Token → Prop) : (is : List Item) → Meanings is → Prop
  | [], _ => True
  | .token k :: is, (t, x) => (k.admits (Token.mark t) = true ∧ P t) ∧ Regular P is x
  | .phrase p :: is, (y, x) => p.Regular P y ∧ Regular P is x

variable {P : Token → Prop}

theorem build_regular {p : Phrase} (q : Production p) (x : Meanings q.items)
    (h : Meanings.Regular P q.items x) : p.Regular P (q.build x) := by
  cases q with
  | assignment => exact ⟨h.2.1, h.2.2.2.1⟩
  | logical | comparison | sum | product | power => exact h.2.1 _ h.1
  | negation => exact ⟨⟨.inr (beq_iff_eq.1 h.1.1), h.1.2⟩, h.2.1⟩
  | signed => exact ⟨⟨.inl h.1.1, h.1.2⟩, h.2.1⟩
  | unsigned | conditionalForm | forForm | whileForm => exact h.1
  | number | name => exact h.1
  | group => exact h.2.1
  | conditional => exact ⟨⟨nofun, ⟨h.2.1, h.2.2.2.1⟩, h.2.2.2.2.1.1⟩, h.2.2.2.2.1.2⟩
  | forLoop =>
    exact ⟨h.2.1, ⟨h.2.2.2.1, h.2.2.2.2.2.1⟩, h.2.2.2.2.2.2.1, h.2.2.2.2.2.2.2.2.1⟩
  | whileLoop => exact ⟨h.2.1, h.2.2.2.1⟩
  | omitted o =>
    cases o with
    | operations | exponent => exact fun t ht => ht
    | branches => exact ⟨trivial, .inl rfl⟩
    | stride => exact .inl rfl
  | operation l => exact fun t ht => h.2.2.1 _ ⟨⟨.inl ⟨l, h.1.1⟩, h.1.2⟩, ht, h.2.1⟩
  | exponent => exact fun t ht => ⟨⟨.inr h.1.1, h.1.2⟩, ht, h.2.1⟩
  | elifBranch => exact ⟨⟨⟨h.2.1, h.2.2.2.1⟩, h.2.2.2.2.1.1⟩, h.2.2.2.2.1.2⟩
  | elseBranch => exact ⟨trivial, .inr h.2.1⟩
  | stride => exact .inr h.2.1

theorem Derivation.regular {is : List Item} (d : Derivation is) (h : ∀ t ∈ d.tokens, P t) :
    Meanings.Regular P is d.meanings := by
  induction d with
  | nil => trivial
  | token t ht rest ih =>
    rw [tokens_token, List.forall_mem_cons] at h
    exact ⟨⟨ht, h.1⟩, ih h.2⟩
  | phrase q inner rest ihi ihr =>
    rw [tokens_phrase, List.forall_mem_append] at h
    exact ⟨build_regular q _ (ihi h.1), ihr h.2⟩

/-! ## Trees of token lists -/

section

variable {ts : List Token} {t : Tree}

theorem treeOfTokens_of_accepts (h : Accepts ts t) : Source.treeOfTokens ts = .ok t := by
  obtain ⟨r, c, hp, he, hn⟩ := h
  simp only [Source.treeOfTokens, hp, he, hn, Option.getD_some]

theorem treeOfTokens_of_rejects {e : Failure} {k : Nat} (h : Rejects ts e k) :
    Source.treeOfTokens ts = .error (.parse e) := by
  obtain ⟨r, c, hp, he, _⟩ := h
  simp only [Source.treeOfTokens, hp, he]

/-- A closed list has a tree, which is regular, or it is refused with a diagnostic. -/
theorem Closed.regular_or_refused (h : Closed ts) (hP : ∀ x ∈ ts, P x) :
    (∃ t, Source.treeOfTokens ts = .ok t ∧ t.Regular P) ∨
      ∃ e, Source.treeOfTokens ts = .error (.parse e) := by
  rcases h.accepts_or_refused with ⟨d, hd, _, ha⟩ | ⟨u, bad, after, e, start, stop, rfl, hs, hr⟩
  · have hreg := d.regular (P := P) fun x hx => hP x (List.dropLast_subset ts (hd ▸ hx))
    exact .inl ⟨d.tree, treeOfTokens_of_accepts ha, hreg.1⟩
  · exact .inr ⟨_, treeOfTokens_of_rejects (hr.rejects hs after)⟩

/-- Every tree of a closed list is regular. -/
theorem Closed.regular (h : Closed ts) (ht : Source.treeOfTokens ts = .ok t)
    (hP : ∀ x ∈ ts, P x) : t.Regular P := by
  rcases h.regular_or_refused hP with ⟨t', ht', hreg⟩ | ⟨e, he⟩
  · rw [ht] at ht'
    cases ht'
    exact hreg
  · rw [ht] at he
    cases he

end

end Grammar

end Reckoner
