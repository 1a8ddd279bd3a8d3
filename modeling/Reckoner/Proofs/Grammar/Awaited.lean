import Reckoner.Proofs.Grammar.Language

/-!
# What is awaited

What a refused token should have been is decided by the tokens consumed before it (`awaited`):
by the last one if it asks for something itself, or else by the innermost construct that still
waits for a token. An outlook keeps both while tokens are read. In every production the outlook
before an item agrees with what that item expects (`fits_items`), a phrase leaves it with a
complete operand (`Derivation.outlook`), and so it agrees at a break (`Breaks.outlook`).
-/

set_option autoImplicit false

namespace Reckoner

namespace Grammar

/-! ## What the consumed tokens ask for -/

/-- What a token asks for by itself. -/
def Mark.demand? : Mark → Option Expectation
  | .symbol .openParen | .symbol .assign => some .expression
  | .keyword .ifWord | .keyword .elifWord | .keyword .doWord | .keyword .elseWord
  | .keyword .upto | .keyword .step | .keyword .whileWord => some .expression
  | .keyword .and | .keyword .or | .keyword .not => some .condition
  | .symbol .equal | .symbol .unequal | .symbol .less | .symbol .greater | .symbol .atMost
  | .symbol .atLeast | .symbol .plus | .symbol .minus | .symbol .times | .symbol .divide
  | .symbol .power => some .atom
  | .keyword .var | .keyword .forWord => some .identifier
  | _ => none

/-- The tokens that open constructs wait for, innermost first, once one more token is read. -/
def wait (waiting : List Expectation) : Mark → List Expectation
  | .symbol .openParen => .closeParen :: waiting
  | .keyword .ifWord | .keyword .elifWord | .keyword .whileWord => .keyword .doWord :: waiting
  | .keyword .forWord => .keyword .upto :: waiting
  | .keyword .upto => .keyword .doWord :: waiting.tail
  | .symbol .closeParen | .keyword .doWord => waiting.tail
  | _ => waiting

/-- What has to come after tokens with these marks. -/
def awaited (ms : List Mark) : Expectation :=
  match ms.reverse with
  | [] => .expression
  | .symbol .identifier :: .keyword .var :: _
  | .symbol .identifier :: .keyword .forWord :: _ => .equals
  | m :: _ => m.demand?.getD ((ms.foldl wait []).headD .operator)

/-! ## Outlooks -/

/-- What has to come next, if not an operator or what a construct waits for. -/
structure Outlook where
  next : Option Expectation
  waiting : List Expectation

namespace Outlook

/-- Before the first token. -/
def start : Outlook := ⟨some .expression, []⟩

/-- After an operand. -/
abbrev settled (waiting : List Expectation) : Outlook := ⟨none, waiting⟩

def step (o : Outlook) (m : Mark) : Outlook where
  next := if m = .symbol .identifier ∧ o.next = some .identifier then some .equals else m.demand?
  waiting := wait o.waiting m

def after (o : Outlook) (ms : List Mark) : Outlook := ms.foldl step o

def expectation (o : Outlook) : Expectation := o.next.getD (o.waiting.headD .operator)

@[simp] theorem after_nil (o : Outlook) : o.after [] = o := rfl

@[simp] theorem after_cons (o : Outlook) (m : Mark) (ms : List Mark) :
    o.after (m :: ms) = (o.step m).after ms := rfl

@[simp] theorem after_append (o : Outlook) (ms ms' : List Mark) :
    o.after (ms ++ ms') = (o.after ms).after ms' := List.foldl_append

theorem waiting_after (o : Outlook) (ms : List Mark) :
    (o.after ms).waiting = ms.foldl wait o.waiting := by
  induction ms generalizing o with
  | nil => rfl
  | cons m ms ih => exact ih (o.step m)

theorem demand_eq_identifier {m : Mark} :
    m.demand? = some .identifier ↔ m = .keyword .var ∨ m = .keyword .forWord := by
  constructor
  · intro h
    unfold Mark.demand? at h
    split at h <;> simp_all
  · rintro (rfl | rfl) <;> rfl

/-- The next thing is a name after `VAR` and `FOR` only. -/
theorem next_after (ms : List Mark) (m : Mark) :
    (start.after (ms ++ [m])).next = some .identifier ↔
      m = .keyword .var ∨ m = .keyword .forWord := by
  rw [after_append, after_cons, after_nil, step, ← demand_eq_identifier]
  by_cases h : m = .symbol .identifier ∧ (start.after ms).next = some .identifier
  · simp [h, Mark.demand?]
  · rw [if_neg h]

/-- The outlook says what is awaited. -/
theorem expectation_after (ms : List Mark) : (start.after ms).expectation = awaited ms := by
  have named (before : List Mark) (m : Mark) (hm : m = .keyword .var ∨ m = .keyword .forWord) :
      (start.after (before ++ [m] ++ [.symbol .identifier])).expectation = .equals := by
    have hnext := (next_after before m).2 hm
    rw [expectation, after_append, after_cons, after_nil, step, if_pos ⟨rfl, hnext⟩]
    rfl
  unfold awaited
  split
  next h =>
    rw [List.reverse_eq_nil_iff.1 h]
    rfl
  next before h =>
    rw [List.reverse_eq_iff.1 h, List.reverse_cons, List.reverse_cons]
    exact named _ _ (.inl rfl)
  next before h =>
    rw [List.reverse_eq_iff.1 h, List.reverse_cons, List.reverse_cons]
    exact named _ _ (.inr rfl)
  next m before hvar hfor h =>
    have hms : ms = before.reverse ++ [m] := by rw [List.reverse_eq_iff.1 h, List.reverse_cons]
    have hname : ¬ (m = .symbol .identifier ∧
        (start.after before.reverse).next = some .identifier) := by
      rintro ⟨rfl, hnext⟩
      cases before with
      | nil => cases hnext
      | cons m' before =>
        rw [List.reverse_cons, next_after] at hnext
        rcases hnext with rfl | rfl
        · exact hvar before rfl rfl
        · exact hfor before rfl rfl
    rw [expectation, waiting_after, hms, after_append, after_cons, after_nil, step, if_neg hname]
    rfl

end Outlook

/-! ## Outlooks along items -/

/-- What the item expects where it breaks at once. A part is never broken at its start. -/
def Item.Meets (o : Outlook) : Item → Prop
  | .token k => k.expectation = o.expectation
  | .phrase (.rule r) => r.expectation = o.expectation
  | .phrase (.part _) => True

/-- What the first of the items expects. -/
def Meets (o : Outlook) : List Item → Prop
  | [] => True
  | i :: _ => i.Meets o

/-- A rule may start wherever no name is to come, a part only after an operand. -/
def Phrase.MayStart (o : Outlook) : Phrase → Prop
  | .rule _ => o.next ≠ some .identifier
  | .part _ => o.next = none

/-- From this outlook on, each item but the first expects what the outlook before it says, and
the outlook after all of them is that after an operand. -/
def Fits (waiting : List Expectation) : List Item → Outlook → Prop
  | [], o => o = .settled waiting
  | .token k :: is, o =>
    ∀ m, k.admits m = true → Meets (o.step m) is ∧ Fits waiting is (o.step m)
  | .phrase p :: is, o =>
    p.MayStart o ∧ Meets (.settled o.waiting) is ∧ Fits waiting is (.settled o.waiting)

/-- An operator asks for an operand of its level. -/
theorem Outlook.step_operator {l : Level} {m : Mark} (h : l.admits m = true) (o : Outlook) :
    o.step m = ⟨some l.operand.expectation, o.waiting⟩ := by
  cases l <;> simp only [Level.admits, Bool.or_eq_true, beq_iff_eq] at h
  case comparison => rcases h with ((((rfl | rfl) | rfl) | rfl) | rfl) | rfl <;> rfl
  all_goals rcases h with rfl | rfl <;> rfl

/-- An operator and its operand. -/
theorem fits_operator {l : Level} {is : List Item} {o : Outlook}
    (hm : Meets (.settled o.waiting) is) (h : Fits o.waiting is (.settled o.waiting)) :
    Fits o.waiting (.token (.operator l) :: .rule l.operand :: is) o := by
  intro m hadmits
  rw [o.step_operator hadmits]
  refine ⟨rfl, ?_, hm, h⟩
  cases l <;> simp [Phrase.MayStart, Level.operand, Rule.expectation]

/-- The items of a phrase fit where it may start, and leave waiting what was waiting before. -/
theorem fits_items {p : Phrase} (q : Production p) {o : Outlook} (ho : p.MayStart o) :
    Fits o.waiting q.items o := by
  cases q with
  | signed => exact fits_operator (l := .additive) trivial rfl
  | operation l => exact fits_operator trivial ⟨rfl, trivial, rfl⟩
  | omitted => exact congrArg (Outlook.mk · o.waiting) ho
  | _ =>
    simp only [Phrase.MayStart] at ho
    simp [Production.items, Fits, Meets, Item.Meets, Phrase.MayStart, Terminal.admits,
      Outlook.step, Outlook.expectation, Mark.demand?, wait, Rule.expectation,
      Terminal.expectation, ho]

/-! ## Outlooks along tokens -/

/-- The outlook once the tokens are read as well. -/
def Outlook.past (o : Outlook) (ts : List Token) : Outlook := o.after (ts.map Token.mark)

theorem Outlook.past_append (o : Outlook) (ts ts' : List Token) :
    o.past (ts ++ ts') = (o.past ts).past ts' := by
  simp [past]

/-- Items that fit leave the outlook after an operand. -/
theorem Derivation.past {is : List Item} (d : Derivation is) : ∀ {waiting : List Expectation}
    {o : Outlook}, Fits waiting is o → o.past d.tokens = .settled waiting := by
  induction d with
  | nil => exact fun h => h
  | token t ht rest ih => exact fun h => ih (h _ ht).2
  | phrase q inner rest ihi ihr =>
    intro waiting o h
    rw [tokens_phrase, Outlook.past_append, ihi (fits_items q h.1)]
    exact ihr h.2.2

/-- At a break the outlook says what was expected. -/
theorem Breaks.past {is : List Item} {u : List Token} {bad : Token} {e : Expectation}
    (hb : Breaks is u bad e) : ∀ {waiting : List Expectation} {o : Outlook}, Fits waiting is o →
      (u = [] → Meets o is) → (o.past u).expectation = e := by
  induction hb with
  | token | start => exact fun _ hm => (hm rfl).symm
  | afterToken ht _ ih => exact fun h _ => ih (h _ ht).2 fun _ => (h _ ht).1
  | inside hq hb ih =>
    exact fun h _ => ih (fits_items _ h.1) fun hu => absurd hu (hb.ne_nil rfl hq)
  | @afterPhrase _ _ _ _ _ d _ _ ih =>
    intro waiting o h _
    have hphrase : o.past d.tokens = .settled o.waiting := d.past ⟨h.1, trivial, rfl⟩
    rw [Outlook.past_append, hphrase]
    exact ih h.2.2 fun _ => h.2.1

theorem Refused.awaited {u : List Token} {bad : Token} {e : Expectation} (h : Refused u bad e) :
    e = awaited (u.map Token.mark) := by
  have hfits : Fits [] [.rule .expression] .start :=
    ⟨by simp [Phrase.MayStart, Outlook.start], trivial, rfl⟩
  rw [← Outlook.expectation_after, ← Outlook.past]
  cases h with
  | breaks hb => exact (hb.past hfits fun _ => rfl).symm
  | @surplus d => rw [d.past hfits]; rfl

/-- The message for a closed list that is refused is decided by the marks of the tokens that were
consumed. -/
theorem Closed.rejects_awaited {ts : List Token} (h : Closed ts) {e : Failure} {k : Nat}
    (hr : Rejects ts e k) : e.expected = awaited ((ts.take k).map Token.mark) ∧
      e.diagnostic.details = (awaited ((ts.take k).map Token.mark)).details := by
  have he : e.expected = awaited ((ts.take k).map Token.mark) := by
    rcases h.accepts_or_refused with ⟨d, -, -, ha⟩ | ⟨u, bad, after, e', start, stop, rfl, hs, hu⟩
    · exact absurd hr ha.not_rejects
    · obtain ⟨rfl, rfl⟩ := hr.unique (hu.rejects hs after)
      rw [List.take_left]
      exact hu.awaited
  exact ⟨he, congrArg Expectation.details he⟩

/-- `FOR a = ( IF a DO a ) DO`, followed by the end. -/
def withoutEnd : List Token :=
  [.keyword .forWord, .name, .assign, .openParen, .keyword .ifWord, .name, .keyword .doWord,
    .name, .closeParen, .keyword .doWord].map Terminal.sample ++ [sampleEnd]

/-- The conditional and the parentheses are over, so the loop decides. -/
theorem withoutEnd_message : Closed withoutEnd ∧
    ∃ e, Rejects withoutEnd e 9 ∧ e.diagnostic.details = "Expected 'UPTO'" := by
  have hclosed : Closed withoutEnd := closed_samples _
  have hr : ∃ e, Rejects withoutEnd e 9 := ⟨_, _, _, rfl, rfl, rfl⟩
  obtain ⟨e, hr⟩ := hr
  exact ⟨hclosed, e, hr, (hclosed.rejects_awaited hr).2⟩

end Grammar

end Reckoner
