import Reckoner.Grammar.Parse

/-!
# Marks of tokens

The mark of a token is all that the rules of the grammar look at: its symbol, or for a keyword
the word. Every test that a rule makes on a token is a test on its mark (`is_eq`,
`isKeyword_eq`, `isLogical_eq`, ...), so that whatever is decided by a token is decided by
finitely many cases.
-/

set_option autoImplicit false

namespace Reckoner

namespace Keyword

theorem ofText?_text (w : Keyword) : ofText? w.text = some w := by cases w <;> rfl

theorem text_of_ofText? {s : String} {w : Keyword} (h : ofText? s = some w) : w.text = s := by
  simpa using List.find?_some h

end Keyword

namespace Datum

/-- Only the text itself equals a text. -/
theorem eq_text_iff {d : Datum} {s : String} : d.eq (.text s) = true ↔ d = .text s := by
  cases d with
  | text t => simp [Datum.eq, plain]
  | number n => simp [Datum.eq, plain]
  | bool b => simp [Datum.eq, plain]
  | blank => simp [Datum.eq, plain]

end Datum

namespace Grammar

inductive Mark where
  | symbol (k : Symbol)
  | keyword (w : Keyword)
  /-- a kind that no rule knows -/
  | unlisted
  deriving DecidableEq

/-- The mark of a keyword token with this datum; a datum that is no keyword leaves the symbol. -/
def wordMark : Datum → Mark
  | .text s =>
    match Keyword.ofText? s with
    | some w => .keyword w
    | none => .symbol .keyword
  | _ => .symbol .keyword

theorem wordMark_eq_iff {d : Datum} {w : Keyword} : wordMark d = .keyword w ↔ d = .text w.text := by
  cases d with
  | text s =>
    simp only [wordMark, Datum.text.injEq]
    cases h : Keyword.ofText? s with
    | some w' =>
      obtain rfl := Keyword.text_of_ofText? h
      constructor
      · rintro ⟨⟩; rfl
      · intro hw
        rw [hw, Keyword.ofText?_text] at h
        cases h; rfl
    | none =>
      constructor
      · rintro ⟨⟩
      · rintro rfl
        rw [Keyword.ofText?_text] at h
        cases h
  | number n => simp [wordMark]
  | bool b => simp [wordMark]
  | blank => simp [wordMark]

theorem wordMark_cases (d : Datum) :
    wordMark d = .symbol .keyword ∨ ∃ w, wordMark d = .keyword w := by
  cases d with
  | text s =>
    simp only [wordMark]
    cases Keyword.ofText? s with
    | some w => exact .inr ⟨w, rfl⟩
    | none => exact .inl rfl
  | number n => exact .inl rfl
  | bool b => exact .inl rfl
  | blank => exact .inl rfl

end Grammar

open Grammar

namespace Token

def mark (t : Token) : Mark :=
  match t.kind with
  | .known .keyword => wordMark t.value
  | .known k => .symbol k
  | .unknown .. => .unlisted

theorem isKeyword_eq (t : Token) (w : Keyword) : t.isKeyword w = (t.mark == .keyword w) := by
  rw [Bool.eq_iff_iff, isKeyword, matches?, Bool.and_eq_true, Datum.eq_text_iff, beq_iff_eq,
    beq_iff_eq, mark]
  split
  · next h => simp [h, wordMark_eq_iff]
  · next k hk h => simp only [h, reduceCtorEq, iff_false, not_and]; simp_all
  · next h => simp [h]

/-- Whether a token is of a symbol other than a keyword shows in its mark. -/
theorem is_eq (t : Token) {k : Symbol} (hk : k ≠ .keyword) : t.is k = (t.mark == .symbol k) := by
  rw [Bool.eq_iff_iff, is, beq_iff_eq, beq_iff_eq, mark]
  split
  · next h =>
    rw [h]
    rcases wordMark_cases t.value with hw | ⟨w, hw⟩ <;> simp [hw, hk.symm]
  · next h => simp [h]
  · next h => simp [h]

theorem operatorKey_of_keyword {t : Token} {w : Keyword} (h : t.mark = .keyword w) :
    t.operatorKey = .text w.text := by
  have hw : t.isKeyword w = true := by rw [isKeyword_eq, h, beq_self_eq_true]
  rw [isKeyword, matches?, Bool.and_eq_true, beq_iff_eq, Datum.eq_text_iff] at hw
  rw [operatorKey, is, hw.1, hw.2]
  rfl

theorem operatorKey_of_symbol {t : Token} {k : Symbol} (hk : k ≠ .keyword)
    (h : t.mark = .symbol k) : t.operatorKey = .text k.label := by
  have ht : t.is k = true := by rw [is_eq t hk, h, beq_self_eq_true]
  rw [is, beq_iff_eq] at ht
  rw [operatorKey, is, ht, if_neg (by simpa using hk)]
  rfl

/-- Both ends of the token are known. -/
def Located (t : Token) : Prop := ∃ ends, t.span.ends? = some ends

theorem Located.ends {t : Token} (h : t.Located) :
    ∃ p q, t.span.start = some p ∧ t.span.stop = some q := by
  obtain ⟨⟨p, q⟩, h⟩ := h
  rcases hs : t.span with ⟨_ | p', _ | q'⟩ <;> rw [hs] at h <;> cases h
  exact ⟨p, q, rfl, rfl⟩

end Token

end Reckoner
