import Reckoner.Proofs.Grammar.Language
import Reckoner.Token.Scan

/-!
# Scanned tokens

What one lexeme may be is said once (`Lexeme.IsCut`, `isCut_of_lexeme`). It follows that the
tokens of a text are closed, its numerals hold numbers and its identifiers hold texts
(`scan_closed`, `scan_proper`), and that scanning fails without a diagnostic only if the text
has an integer literal that is too long to be read (`scan_ne_oversized`).
-/

set_option autoImplicit false

namespace Reckoner

/-- A numeral holds a number, and an identifier holds a text. -/
structure Token.Proper (t : Token) : Prop where
  number : t.is .int = true ∨ t.is .float = true → ∃ n, t.value = .number n
  name : t.is .identifier = true → ∃ s, t.value = .text s

namespace Scan

/-! ## Lexemes -/

/-- Symbols whose tokens hold nothing and stand inside a text. -/
def IsSign (k : Symbol) : Prop :=
  k ≠ .endOfText ∧ k ≠ .int ∧ k ≠ .float ∧ k ≠ .identifier

/-- What may be cut from the head of the text `c :: cs`. -/
inductive Lexeme.IsCut (c : Char) (cs : List Char) : Lexeme → Prop where
  | float {rest : List Char} (n : Number) (hcs : cs.dropWhile Char.isDigit = '.' :: rest) :
      IsCut c cs ⟨.float, .number n,
        (c :: cs.takeWhile Char.isDigit).length + (rest.takeWhile Char.isDigit).length⟩
  | int (n : Number) : IsCut c cs ⟨.int, .number n, (cs.takeWhile Char.isDigit).length⟩
  | word {k : Symbol} (s : String) (hk : k = .keyword ∨ k = .identifier) :
      IsCut c cs ⟨k, .text s, (cs.takeWhile isWordChar).length⟩
  | sign {k : Symbol} (hk : IsSign k) (hc : isWordChar c = false ∧ c ≠ '.') :
      IsCut c cs ⟨k, .blank, 0⟩
  | double {k : Symbol} {rest : List Char} (hk : IsSign k) (hcs : cs = '=' :: rest) :
      IsCut c cs ⟨k, .blank, 1⟩

theorem isCut_of_numeral {c : Char} {cs : List Char} {x : Lexeme} (h : numeral c cs = .ok x) :
    x.IsCut c cs := by
  simp only [numeral] at h
  split at h
  · next rest hcs =>
    cases h
    exact .float _ hcs
  · split at h <;> cases h
    exact .int _

theorem isCut_signOrEquals {single double : Symbol} (hs : IsSign single) (hd : IsSign double)
    {c : Char} (hc : isWordChar c = false ∧ c ≠ '.') (cs : List Char) :
    (signOrEquals single double cs).IsCut c cs := by
  unfold signOrEquals
  split
  · exact .double hd rfl
  · exact .sign hs hc

theorem isCut_of_lexeme {p : Position} {c : Char} {cs : List Char} {x : Lexeme}
    (h : lexeme p c cs = .ok x) : x.IsCut c cs := by
  unfold lexeme at h
  split at h
  · exact isCut_of_numeral h
  split at h
  · cases h
    refine .word _ ?_
    split
    · exact .inl rfl
    · exact .inr rfl
  split at h
  case h_8 | h_9 | h_10 =>
    cases h
    exact isCut_signOrEquals (by simp [IsSign]) (by simp [IsSign]) (by decide) cs
  case h_11 =>
    split at h <;> cases h
    exact .double (by simp [IsSign]) rfl
  case h_12 => cases h
  all_goals
    cases h
    exact .sign (by simp [IsSign]) (by decide)

/-! ## Tokens -/

theorem is_token {x : Lexeme} {p : Position} {k : Symbol} :
    (x.token p).is k = true ↔ x.symbol = k := by
  simp [Lexeme.token, Token.make, Token.is]

theorem token_not_end {c : Char} {cs : List Char} {x : Lexeme} (h : x.IsCut c cs) (p : Position) :
    (x.token p).is .endOfText = false := by
  rw [Bool.eq_false_iff, ne_eq, is_token]
  cases h with
  | word s hk => rcases hk with rfl | rfl <;> simp
  | sign hk | double hk => exact hk.1
  | _ => simp

theorem token_proper {c : Char} {cs : List Char} {x : Lexeme} (h : x.IsCut c cs) (p : Position) :
    (x.token p).Proper := by
  constructor
  · rw [is_token, is_token]
    intro hk
    cases h with
    | float n | int n => exact ⟨n, rfl⟩
    | word s hk' => rcases hk' with rfl | rfl <;> simp at hk
    | sign hs | double hs => exact absurd hk (by simp [hs.2.1, hs.2.2.1])
  · rw [is_token]
    intro hk
    cases h with
    | float n | int n => cases hk
    | word s => exact ⟨s, rfl⟩
    | sign hs | double hs => exact absurd hk hs.2.2.2

theorem closed_end (p : Position) : Grammar.Closed [endToken p] where
  located t ht := by
    obtain rfl := List.mem_singleton.1 ht
    exact ⟨_, rfl⟩
  ended := ⟨[], endToken p, rfl, rfl, by simp⟩

theorem closed_cons {t : Token} {ts : List Token} (hl : t.Located)
    (he : t.is .endOfText = false) (h : Grammar.Closed ts) : Grammar.Closed (t :: ts) where
  located := List.forall_mem_cons.2 ⟨hl, h.located⟩
  ended := by
    obtain ⟨body, eof, rfl, heof, hb⟩ := h.ended
    exact ⟨t :: body, eof, rfl, heof, List.forall_mem_cons.2 ⟨he, hb⟩⟩

theorem scanFrom_spec (cs : List Char) : ∀ (p : Position) (inside : Nat) (ts : List Token),
    scanFrom p inside cs = .ok ts → Grammar.Closed ts ∧ ∀ t ∈ ts, t.Proper := by
  induction cs with
  | nil =>
    intro p inside ts h
    cases h
    refine ⟨closed_end p, fun t ht => ?_⟩
    obtain rfl := List.mem_singleton.1 ht
    constructor
    · rintro (h | h)
      all_goals cases h
    · intro h
      cases h
  | cons c cs ih =>
    intro p inside ts h
    unfold scanFrom at h
    split at h
    · exact ih _ _ _ h
    split at h
    · exact ih _ _ _ h
    split at h
    · cases h
    · next x hx =>
      have hcut := isCut_of_lexeme hx
      cases hrest : scanFrom p.advance x.more cs with
      | error e => rw [hrest] at h; cases h
      | ok rest =>
        rw [hrest] at h
        cases h
        obtain ⟨hc, hp⟩ := ih _ _ _ hrest
        exact ⟨closed_cons ⟨_, rfl⟩ (token_not_end hcut p) hc,
          List.forall_mem_cons.2 ⟨token_proper hcut p, hp⟩⟩

/-! ## Long integers -/

/-- The digits stand alone in the text: they are no part of a word or of a longer numeral. -/
def IntLiteral (text digits : List Char) : Prop :=
  ∃ pre post, text = pre ++ digits ++ post ∧ digits ≠ [] ∧ (∀ c ∈ digits, c.isDigit = true) ∧
    (∀ c ∈ pre.getLast?, isWordChar c = false ∧ c ≠ '.') ∧
    ∀ c ∈ post.head?, c.isDigit = false ∧ c ≠ '.'

/-- No integer literal of the text is too long to be read. -/
def Readable (text : List Char) : Prop :=
  ∀ digits, IntLiteral text digits → digits.length ≤ Number.digitLimit

/-- Nothing in a short text is long. -/
theorem readable_of_length {text : List Char} (h : text.length ≤ Number.digitLimit) :
    Readable text := by
  rintro digits ⟨pre, post, rfl, -⟩
  rw [List.length_append, List.length_append] at h
  omega

/-- A numeral may start after `pre`, if a digit comes next. -/
def Boundary (pre post : List Char) : Prop :=
  ∀ d ∈ post.head?, d.isDigit = true → ∀ c ∈ pre.getLast?, isWordChar c = false ∧ c ≠ '.'

theorem drop_takeWhile (f : Char → Bool) (cs : List Char) :
    cs.drop (cs.takeWhile f).length = cs.dropWhile f := by
  have h : (cs.takeWhile f ++ cs.dropWhile f).drop (cs.takeWhile f).length = cs.dropWhile f :=
    List.drop_left
  rwa [List.takeWhile_append_dropWhile] at h

theorem head_dropWhile {f : Char → Bool} {cs : List Char} {d : Char}
    (h : d ∈ (cs.dropWhile f).head?) : f d = false := by
  have hd := List.head?_dropWhile_not f cs
  rw [h] at hd
  exact hd

/-- After a lexeme no numeral starts within a word or a numeral. -/
theorem boundary_of_cut {c : Char} {cs : List Char} {x : Lexeme} (h : x.IsCut c cs)
    (pre : List Char) : Boundary (pre ++ c :: cs.take x.more) (cs.drop x.more) := by
  intro d hd hdigit
  cases h with
  | @float rest n hcs =>
    have hdrop : cs.drop ((c :: cs.takeWhile Char.isDigit).length +
        (rest.takeWhile Char.isDigit).length) = rest.dropWhile Char.isDigit := by
      rw [← List.drop_drop, List.length_cons, ← List.drop_drop, drop_takeWhile, hcs]
      exact drop_takeWhile _ rest
    rw [hdrop] at hd
    exact absurd hdigit (by simp [head_dropWhile hd])
  | int n =>
    rw [drop_takeWhile] at hd
    exact absurd hdigit (by simp [head_dropWhile hd])
  | word s =>
    rw [drop_takeWhile] at hd
    have hw := head_dropWhile hd
    simp only [isWordChar, Char.isAlphanum, hdigit, Bool.or_true, Bool.true_or] at hw
    cases hw
  | sign hk hc =>
    intro c' hc'
    obtain rfl : c = c' := by simpa using hc'
    exact hc
  | double hk hcs =>
    subst hcs
    intro c' hc'
    obtain rfl : '=' = c' := by simpa using hc'
    decide

/-- Where a numeral is too long, its digits are a literal. -/
theorem literal_of_numeral {c : Char} {cs : List Char} (hc : c.isDigit = true)
    (h : numeral c cs = .error .oversizedInteger) (pre : List Char)
    (hb : Boundary pre (c :: cs)) :
    ∃ digits, IntLiteral (pre ++ c :: cs) digits ∧ Number.digitLimit < digits.length := by
  simp only [numeral] at h
  split at h
  · cases h
  · next hdot =>
    split at h
    · next hlong =>
      refine ⟨c :: cs.takeWhile Char.isDigit,
        ⟨pre, cs.dropWhile Char.isDigit, ?_, nofun, ?_, ?_, ?_⟩, hlong⟩
      · rw [List.append_assoc, List.cons_append, List.takeWhile_append_dropWhile]
      · rw [List.forall_mem_cons]
        exact ⟨hc, List.all_eq_true.1 List.all_takeWhile⟩
      · exact hb c rfl hc
      · intro d hd
        refine ⟨head_dropWhile hd, ?_⟩
        rintro rfl
        cases hrest : cs.dropWhile Char.isDigit with
        | nil => rw [hrest] at hd; cases hd
        | cons e rest =>
          rw [hrest] at hd
          cases hd
          exact hdot rest hrest
    · cases h

theorem literal_of_lexeme {p : Position} {c : Char} {cs : List Char}
    (h : lexeme p c cs = .error .oversizedInteger) (pre : List Char)
    (hb : Boundary pre (c :: cs)) :
    ∃ digits, IntLiteral (pre ++ c :: cs) digits ∧ Number.digitLimit < digits.length := by
  unfold lexeme at h
  split at h
  · next hc => exact literal_of_numeral hc h pre hb
  split at h
  · cases h
  split at h
  case h_11 => split at h <;> cases h
  all_goals cases h

theorem literal_of_scanFrom (cs : List Char) : ∀ (p : Position) (inside : Nat) (pre : List Char),
    scanFrom p inside cs = .error .oversizedInteger →
      Boundary (pre ++ cs.take inside) (cs.drop inside) →
        ∃ digits, IntLiteral (pre ++ cs) digits ∧ Number.digitLimit < digits.length := by
  induction cs with
  | nil => intro p inside pre h; cases h
  | cons c cs ih =>
    intro p inside pre h hb
    unfold scanFrom at h
    split at h
    · next more =>
      have := ih _ more (pre ++ [c]) h (by simpa using hb)
      simpa using this
    split at h
    · next hblank =>
      have := ih _ 0 (pre ++ [c]) h ?_
      · simpa using this
      · intro d _ _ c' hc'
        obtain rfl : c = c' := by simpa using hc'
        simp only [isBlank, Bool.or_eq_true, beq_iff_eq] at hblank
        rcases hblank with rfl | rfl <;> decide
    split at h
    · next e he =>
      cases h
      exact literal_of_lexeme he pre (by simpa using hb)
    · next x hx =>
      have hcut := boundary_of_cut (isCut_of_lexeme hx) pre
      cases hrest : scanFrom p.advance x.more cs with
      | ok rest => rw [hrest] at h; cases h
      | error e =>
        rw [hrest] at h
        cases h
        have := ih _ x.more (pre ++ [c]) hrest (by simpa using hcut)
        simpa using this

end Scan

theorem scan_closed {file text : String} {ts : List Token} (h : scan file text = .ok ts) :
    Grammar.Closed ts := (Scan.scanFrom_spec _ _ _ _ h).1

theorem scan_proper {file text : String} {ts : List Token} (h : scan file text = .ok ts) :
    ∀ t ∈ ts, t.Proper := (Scan.scanFrom_spec _ _ _ _ h).2

/-- A text whose integers can be read is scanned, or refused with a diagnostic. -/
theorem scan_ne_oversized {file text : String} (h : Scan.Readable text.toList) :
    scan file text ≠ .error .oversizedInteger := by
  intro hs
  obtain ⟨digits, hd, hlong⟩ := Scan.literal_of_scanFrom text.toList _ 0 [] hs (by
    intro d _ _ c hc
    cases hc)
  have := h digits hd
  omega

end Reckoner
