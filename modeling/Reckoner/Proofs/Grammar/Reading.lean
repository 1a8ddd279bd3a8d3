import Reckoner.Proofs.Grammar.Derivation

/-!
# Reading tokens

What becomes of a list of tokens that is read from left to right by the grammar: either a greedy
derivation takes tokens from its head, or reading breaks (`Breaks`) at the first token that
neither goes on nor ends what was begun. Every list with an end token comes to one of the two
(`answered`). The tokens taken before a break can always be completed (`Breaks.viable`).
-/

set_option autoImplicit false

namespace Reckoner

namespace Grammar

/-! ## Derivations one after the other -/

/-- The meanings of some items, and those of the items after them. -/
def Meanings.split {is : List Item} :
    (js : List Item) → Meanings (js ++ is) → Meanings js × Meanings is
  | [], x => ((), x)
  | _ :: js, (i, x) => ((i, (split js x).1), (split js x).2)

namespace Derivation

variable {is js : List Item}

/-- A derivation from some items, and one from the items after them. -/
def append {is js : List Item} : Derivation js → Derivation is → Derivation (js ++ is)
  | .nil, rest => rest
  | .token t h d, rest => .token t h (d.append rest)
  | .phrase q inner d, rest => .phrase q inner (d.append rest)

theorem tokens_append (d : Derivation js) (rest : Derivation is) :
    (d.append rest).tokens = d.tokens ++ rest.tokens := by
  induction d with
  | nil => rfl
  | token t h d ih => exact congrArg (t :: ·) ih
  | phrase q inner d _ ih =>
    exact (congrArg (inner.tokens ++ ·) ih).trans (List.append_assoc ..).symm

theorem split_meanings (d : Derivation js) (rest : Derivation is) :
    (d.append rest).meanings.split js = (d.meanings, rest.meanings) := by
  induction d with
  | nil => rfl
  | token t h d ih => simp [append, meanings, Meanings.split, ih]
  | phrase q inner d _ ih => simp [append, meanings, Meanings.split, ih]

theorem greedy_append {d : Derivation js} {rest : Derivation is} {after : List Token}
    (hd : d.Greedy (rest.tokens ++ after)) (hr : rest.Greedy after) :
    (d.append rest).Greedy after := by
  induction d with
  | nil => exact hr
  | token t h d ih => exact ih hd
  | phrase q inner d _ ih =>
    obtain ⟨hq, hi, hd⟩ := hd
    rw [← List.append_assoc, ← tokens_append] at hq hi
    exact ⟨hq, hi, ih hd⟩

end Derivation

/-! ## Breaks -/

/-- What a rule waits for at its start. -/
def Rule.expectation : Rule → Expectation
  | .expression => .expression
  | .condition => .condition
  | .sum | .product | .factor | .power | .atom => .atom
  | .conditional => .keyword .ifWord
  | .forLoop => .keyword .forWord
  | .whileLoop => .keyword .whileWord

/-- What is waited for in the place of a token. Numbers, opening parentheses and operators are
never waited for: they only start what they belong to. -/
def Terminal.expectation : Terminal → Expectation
  | .keyword w => .keyword w
  | .name => .identifier
  | .assign => .equals
  | .closeParen => .closeParen
  | .number | .openParen | .power | .operator _ => .atom

/-- Reading the items takes the tokens `u` and breaks at the token `bad`, which stands in the
place of `e`. -/
inductive Breaks : List Item → List Token → Token → Expectation → Prop where
  | token {k : Terminal} {is : List Item} {bad : Token} (h : k.admits bad.mark = false) :
      Breaks (.token k :: is) [] bad k.expectation
  | afterToken {k : Terminal} {is : List Item} {t bad : Token} {u : List Token} {e : Expectation}
      (h : k.admits t.mark = true) (hb : Breaks is u bad e) :
      Breaks (.token k :: is) (t :: u) bad e
  | start {r : Rule} {is : List Item} {bad : Token} (h : predict (.rule r) bad.mark = none) :
      Breaks (.rule r :: is) [] bad r.expectation
  | inside {p : Phrase} {is : List Item} {bad : Token} {u : List Token} {e : Expectation}
      {q : Production p} (hq : predict p (lookahead (u ++ [bad])) = some q)
      (hb : Breaks q.items u bad e) : Breaks (.phrase p :: is) u bad e
  | afterPhrase {p : Phrase} {is : List Item} {bad : Token} {u : List Token} {e : Expectation}
      {d : Derivation [.phrase p]} (hd : d.Greedy (u ++ [bad])) (hb : Breaks is u bad e) :
      Breaks (.phrase p :: is) (d.tokens ++ u) bad e

/-- A production is predicted by its first token, so it breaks only after that. -/
theorem Breaks.ne_nil {is : List Item} {u : List Token} {bad : Token} {e : Expectation}
    (h : Breaks is u bad e) : ∀ {p : Phrase} {q : Production p}, q.items = is →
      predict p (lookahead (u ++ [bad])) = some q → u ≠ [] := by
  induction h with
  | token hk =>
    intro p q hi hq
    have hk' := admits_of_predict hq hi
    exact absurd (hk.symm.trans hk') (by simp)
  | afterToken => intro p q _ _; simp
  | @start r _ bad hr =>
    intro p q hi hq
    have := starts_of_predict hq hi
    rw [← isSome_predict, show lookahead ([] ++ [bad]) = bad.mark from rfl, hr] at this
    cases this
  | inside hq _ ih => intro p q _ _; exact ih rfl hq
  | @afterPhrase p' _ _ _ _ d _ _ _ =>
    intro p q hi _
    cases p' with
    | part o => exact absurd hi items_ne_part
    | rule r => simp [d.rule_tokens_ne_nil]

/-- What breaks breaks also where more items follow. -/
theorem Breaks.weaken {js : List Item} {u : List Token} {bad : Token} {e : Expectation}
    (h : Breaks js u bad e) (is : List Item) : Breaks (js ++ is) u bad e := by
  induction h with
  | token hk => exact .token hk
  | afterToken hk _ ih => exact .afterToken hk ih
  | start h => exact .start h
  | inside hq hb => exact .inside hq hb
  | afterPhrase hd _ ih => exact .afterPhrase hd ih

/-- A break after a greedy derivation. -/
theorem Breaks.after {is js : List Item} {u : List Token} {bad : Token} {e : Expectation}
    (hb : Breaks is u bad e) {d : Derivation js} (hd : d.Greedy (u ++ [bad])) :
    Breaks (js ++ is) (d.tokens ++ u) bad e := by
  induction d with
  | nil => exact hb
  | token t h d ih => exact .afterToken h (ih hd)
  | phrase q inner d _ ih =>
    obtain ⟨hq, hi, hd⟩ := hd
    have hg : (Derivation.phrase q inner .nil).Greedy (d.tokens ++ u ++ [bad]) := by
      simpa [Derivation.Greedy] using ⟨hq, hi⟩
    simpa using Breaks.afterPhrase hg (ih hd)

/-! ## Completions -/

/-- The items derive some tokens, all with the property `P`. -/
def Derivable (P : Token → Prop) (is : List Item) : Prop :=
  ∃ d : Derivation is, ∀ t ∈ d.tokens, P t

namespace Derivable

variable {P : Token → Prop} {is : List Item}

theorem nil : Derivable P [] := ⟨.nil, by simp⟩

theorem token {k : Terminal} (hk : ∃ t, k.admits t.mark = true ∧ P t) (h : Derivable P is) :
    Derivable P (.token k :: is) := by
  obtain ⟨t, ht, hp⟩ := hk
  obtain ⟨d, hd⟩ := h
  exact ⟨.token t ht d, by simpa [hp] using hd⟩

theorem phrase {p : Phrase} (q : Production p) (hq : Derivable P q.items) (h : Derivable P is) :
    Derivable P (.phrase p :: is) := by
  obtain ⟨inner, hi⟩ := hq
  obtain ⟨d, hd⟩ := h
  refine ⟨.phrase q inner d, fun t ht => ?_⟩
  rcases List.mem_append.1 ht with ht | ht
  · exact hi t ht
  · exact hd t ht

/-- All items derive something, each rule a single number where it can. -/
theorem all (hP : ∀ k : Terminal, ∃ t, k.admits t.mark = true ∧ P t) :
    ∀ is : List Item, Derivable P is := by
  have part : ∀ o {is}, Derivable P is → Derivable P (.part o :: is) := fun o _ h =>
    phrase (.omitted o) nil h
  have atom : ∀ {is}, Derivable P is → Derivable P (.rule .atom :: is) := fun h =>
    phrase .number (token (hP _) nil) h
  have power : ∀ {is}, Derivable P is → Derivable P (.rule .power :: is) := fun h =>
    phrase .power (atom (part _ nil)) h
  have factor : ∀ {is}, Derivable P is → Derivable P (.rule .factor :: is) := fun h =>
    phrase .unsigned (power nil) h
  have product : ∀ {is}, Derivable P is → Derivable P (.rule .product :: is) := fun h =>
    phrase .product (factor (part _ nil)) h
  have sum : ∀ {is}, Derivable P is → Derivable P (.rule .sum :: is) := fun h =>
    phrase .sum (product (part _ nil)) h
  have condition : ∀ {is}, Derivable P is → Derivable P (.rule .condition :: is) := fun h =>
    phrase .comparison (sum (part _ nil)) h
  have expression : ∀ {is}, Derivable P is → Derivable P (.rule .expression :: is) := fun h =>
    phrase .logical (condition (part _ nil)) h
  intro is
  induction is with
  | nil => exact nil
  | cons i is ih =>
    cases i with
    | token k => exact token (hP k) ih
    | phrase p =>
      cases p with
      | part o => exact part o ih
      | rule r =>
        cases r with
        | expression => exact expression ih
        | condition => exact condition ih
        | sum => exact sum ih
        | product => exact product ih
        | factor => exact factor ih
        | power => exact power ih
        | atom => exact atom ih
        | conditional =>
          exact phrase .conditional
            (token (hP _) (expression (token (hP _) (expression (part _ nil))))) ih
        | forLoop =>
          exact phrase .forLoop
            (token (hP _) (token (hP _) (token (hP _) (expression (token (hP _) (expression
              (part _ (token (hP _) (expression nil))))))))) ih
        | whileLoop =>
          exact phrase .whileLoop (token (hP _) (expression (token (hP _) (expression nil)))) ih

end Derivable

/-- What was taken before a break can be completed, by tokens with any property that some token
of each kind has. -/
theorem Breaks.viable {P : Token → Prop} (hP : ∀ k : Terminal, ∃ t, k.admits t.mark = true ∧ P t)
    {is : List Item} {u : List Token} {bad : Token} {e : Expectation} (h : Breaks is u bad e) :
    ∃ d : Derivation is, ∃ w, d.tokens = u ++ w ∧ ∀ t ∈ w, P t := by
  induction h with
  | @token k is _ _ =>
    obtain ⟨d, hd⟩ := Derivable.all hP (.token k :: is)
    exact ⟨d, d.tokens, rfl, hd⟩
  | @afterToken k is t _ _ _ ht _ ih =>
    obtain ⟨d, w, hd, hw⟩ := ih
    exact ⟨.token t ht d, w, by simp [hd], hw⟩
  | @start r is _ _ =>
    obtain ⟨d, hd⟩ := Derivable.all hP (.rule r :: is)
    exact ⟨d, d.tokens, rfl, hd⟩
  | @inside p is _ u _ q _ _ ih =>
    obtain ⟨inner, w, hi, hw⟩ := ih
    obtain ⟨d, hd⟩ := Derivable.all hP is
    refine ⟨.phrase q inner d, w ++ d.tokens, by simp [hi], fun t ht => ?_⟩
    rcases List.mem_append.1 ht with ht | ht
    · exact hw t ht
    · exact hd t ht
  | @afterPhrase p is _ u _ d _ _ ih =>
    obtain ⟨rest, w, hr, hw⟩ := ih
    exact ⟨d.append rest, w, by simp [Derivation.tokens_append, hr], hw⟩

/-! ## Every list is answered -/

/-- There is an end token in the list. -/
def Ended (ts : List Token) : Prop := ∃ t ∈ ts, t.mark = .symbol .endOfText

theorem not_admits_end (k : Terminal) : k.admits (.symbol .endOfText) = false := by
  cases k with
  | operator l => cases l <;> rfl
  | _ => rfl

/-- No end token is ever derived. -/
theorem Derivation.mark_ne_end {is : List Item} (d : Derivation is) :
    ∀ t ∈ d.tokens, t.mark ≠ .symbol .endOfText := by
  induction d with
  | nil => simp
  | @token k _ t h rest ih =>
    intro x hx
    rcases List.mem_cons.1 hx with rfl | hx
    · intro he
      rw [he, not_admits_end] at h
      cases h
    · exact ih x hx
  | phrase q inner rest ihi ihr =>
    intro x hx
    rcases List.mem_append.1 hx with hx | hx
    · exact ihi x hx
    · exact ihr x hx

theorem Ended.after {is : List Item} {d : Derivation is} {after : List Token}
    (h : Ended (d.tokens ++ after)) : Ended after := by
  obtain ⟨t, ht, he⟩ := h
  rcases List.mem_append.1 ht with ht | ht
  · exact absurd he (d.mark_ne_end t ht)
  · exact ⟨t, ht, he⟩

/-- A greedy derivation takes tokens from the head of the list, or reading breaks. -/
def Answered (is : List Item) (ts : List Token) : Prop :=
  (∃ (d : Derivation is) (after : List Token), ts = d.tokens ++ after ∧ d.Greedy after) ∨
    ∃ u bad after e, ts = u ++ bad :: after ∧ Breaks is u bad e

theorem Answered.token {k : Terminal} {is : List Item} {t : Token} {ts : List Token}
    (hk : k.admits t.mark = true) (h : Answered is ts) : Answered (.token k :: is) (t :: ts) := by
  rcases h with ⟨d, after, rfl, hg⟩ | ⟨u, bad, after, e, rfl, hb⟩
  · exact .inl ⟨.token t hk d, after, rfl, hg⟩
  · exact .inr ⟨t :: u, bad, after, e, rfl, .afterToken hk hb⟩

theorem Answered.inside {p : Phrase} {q : Production p} {ts : List Token}
    (hq : predict p (lookahead ts) = some q) (h : Answered q.items ts) :
    Answered [.phrase p] ts := by
  rcases h with ⟨d, after, rfl, hg⟩ | ⟨u, bad, after, e, rfl, hb⟩
  · refine .inl ⟨.phrase q d .nil, after, by simp, ?_, hg, trivial⟩
    cases q with
    | omitted o => cases d; exact predict_part_omitted.1 hq
    | _ => trivial
  · refine .inr ⟨u, bad, after, e, rfl, .inside ?_ hb⟩
    cases u <;> exact hq

/-- What follows a phrase is answered after the tokens that the phrase takes. -/
theorem Answered.append {p : Phrase} {is : List Item} {ts : List Token} (he : Ended ts)
    (hp : Answered [.phrase p] ts)
    (h : ∀ (d : Derivation [.phrase p]) (after : List Token), ts = d.tokens ++ after →
      Ended after → Answered is after) : Answered (.phrase p :: is) ts := by
  rcases hp with ⟨d, after, rfl, hg⟩ | ⟨u, bad, after, e, rfl, hb⟩
  · rcases h d after rfl he.after with ⟨rest, after, rfl, hr⟩ | ⟨u, bad, after, e, rfl, hb⟩
    · refine .inl ⟨d.append rest, after, ?_, Derivation.greedy_append hg hr⟩
      simp [Derivation.tokens_append]
    · refine .inr ⟨d.tokens ++ u, bad, after, e, by simp, .afterPhrase ?_ hb⟩
      exact hg.of_append_cons []
  · exact .inr ⟨u, bad, after, e, rfl, hb.weaken is⟩

/-- Items are answered where phrases are on all lists that are no longer. -/
theorem answered_items {n : Nat}
    (H : ∀ p ts, ts.length < n → Ended ts → Answered [.phrase p] ts) :
    ∀ is ts, ts.length < n → Ended ts → Answered is ts
  | [], ts, _, _ => .inl ⟨.nil, ts, rfl, trivial⟩
  | .token k :: is, [], _, ⟨_, ht, _⟩ => by cases ht
  | .token k :: is, t :: ts, hn, he => by
    cases hk : k.admits t.mark with
    | false => exact .inr ⟨[], t, ts, _, rfl, .token hk⟩
    | true =>
      have he' : Ended ts := Ended.after (d := .token t hk .nil) he
      exact (answered_items H is ts (Nat.lt_of_succ_lt hn) he').token hk
  | .phrase p :: is, ts, hn, he => by
    refine (H p ts hn he).append he fun d after hd he' => ?_
    exact answered_items H is after (by rw [hd, List.length_append] at hn; omega) he'

/-- The production that is predicted is answered where shorter lists are, and where the phrases
of lower rank are on this list. -/
theorem answered_production {n : Nat}
    (H : ∀ p ts, ts.length < n → Ended ts → Answered [.phrase p] ts) {p : Phrase}
    {q : Production p} {t : Token} {ts : List Token} (hq : predict p t.mark = some q)
    (hn : ts.length < n) (he : Ended (t :: ts))
    (hr : ∀ r is, q.items = .rule r :: is → Answered [.rule r] (t :: ts)) :
    Answered q.items (t :: ts) := by
  cases hi : q.items with
  | nil => exact .inl ⟨.nil, t :: ts, rfl, trivial⟩
  | cons i is =>
    cases i with
    | token k =>
      have hk := admits_of_predict hq hi
      have he' : Ended ts := Ended.after (d := .token t hk .nil) he
      exact (answered_items H is ts hn he').token hk
    | phrase p' =>
      cases p' with
      | part o => exact absurd hi items_ne_part
      | rule r =>
        refine (hr r is hi).append he fun d after hd he' => ?_
        refine answered_items H is after ?_ he'
        have hl := congrArg List.length hd
        have := List.length_pos_iff.2 d.rule_tokens_ne_nil
        rw [List.length_append, List.length_cons] at hl
        omega

/-- Every phrase is answered on every list with an end: by induction on the length of the list,
and on one list by induction on the rank of rules. -/
theorem answered : ∀ (n : Nat) (p : Phrase) (ts : List Token), ts.length < n → Ended ts →
    Answered [.phrase p] ts := by
  intro n
  induction n with
  | zero => intro p ts hn; cases hn
  | succ n H =>
    have main : ∀ (p : Phrase) (ts : List Token), ts.length < n + 1 → Ended ts →
        (∀ r r', p = .rule r → r'.rank < r.rank → Answered [.rule r'] ts) →
        Answered [.phrase p] ts := by
      intro p ts hn he hr
      cases ts with
      | nil => obtain ⟨_, ht, _⟩ := he; cases ht
      | cons t ts =>
        cases hq : predict p t.mark with
        | none =>
          cases p with
          | rule r => exact .inr ⟨[], t, ts, _, rfl, .start hq⟩
          | part o => have := isSome_predict_part o t.mark; rw [hq] at this; cases this
        | some q =>
          refine .inside hq (answered_production H hq (Nat.lt_of_succ_lt_succ hn) he ?_)
          intro r is hi
          cases p with
          | rule r' => exact hr r' r rfl (rank_lt_of_items hi)
          | part o => cases q <;> cases hi
    have rules : ∀ (ts : List Token), ts.length < n + 1 → Ended ts →
        ∀ (k : Nat) (r : Rule), r.rank < k → Answered [.rule r] ts := by
      intro ts hn he k
      induction k with
      | zero => intro r hr; cases hr
      | succ k ih =>
        intro r hr
        refine main (.rule r) ts hn he fun r₁ r₂ h hlt => ?_
        cases h
        exact ih r₂ (by omega)
    intro p ts hn he
    exact main p ts hn he fun _ r _ _ => rules ts hn he _ r (Nat.lt_succ_self _)

end Grammar

end Reckoner
