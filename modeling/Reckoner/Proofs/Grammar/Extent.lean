import Reckoner.Proofs.Grammar.Language

/-!
# How far parsing reads

The cursor only moves forward (`derive_forward`), so that a list without an end is never parsed.
In any other list the rules stop at its first end at the latest, with as many tokens consumed as
there are before the cursor, and what comes after that end makes no difference (`parse_extent`).
-/

set_option autoImplicit false

namespace Reckoner

namespace Grammar

/-! ## Reading moves forward -/

/-- Wherever the step ends, the tokens still to be read are the last ones of the list. -/
def Forward (ts : List Token) (s : Step) : Prop :=
  ∀ r c, s = .ok (r, c) → c.tokens <:+ ts

theorem Cursor.advance_suffix (c : Cursor) : c.advance.tokens <:+ c.tokens := by
  rcases c with ⟨t, _ | ⟨t', rest⟩⟩
  · exact List.suffix_refl _
  · exact List.suffix_cons t _

section

variable {ts : List Token} {r : Report Failure Tree} {c : Cursor} {e : Expectation}

theorem forward_error {h : Halt} : Forward ts (.error h) := by
  intro r c h
  cases h

theorem forward_fail (hc : c.tokens <:+ ts) : Forward ts (fail r c e) := by
  unfold fail
  split
  · rintro _ _ ⟨⟩
    exact hc
  · exact forward_error

theorem forward_succeed {t : Tree} (hc : c.tokens <:+ ts) : Forward ts (succeed r c t) := by
  rintro _ _ ⟨⟩
  exact hc

theorem Forward.andThen {inner : Step} {next : Report Failure Tree → Cursor → Tree → Step}
    (hi : Forward ts inner) (hn : ∀ r c t, c.tokens <:+ ts → Forward ts (next r c t)) :
    Forward ts (Grammar.andThen r inner next) := by
  unfold Grammar.andThen
  split
  · exact forward_error
  · next sub c' =>
    have hc := hi sub c' rfl
    dsimp only
    split
    · rintro _ _ ⟨⟩
      exact hc
    · exact hn _ _ _ hc

theorem Forward.orExpect {inner : Step} (hi : Forward ts inner) :
    Forward ts (Grammar.orExpect r inner e) := by
  unfold Grammar.orExpect
  split
  · exact forward_error
  · next sub c' =>
    have hc := hi sub c' rfl
    dsimp only
    split
    · exact forward_fail hc
    · exact forward_succeed hc

theorem forward_expect {ok : Token → Bool} {next : Report Failure Tree → Cursor → Step}
    (hc : c.tokens <:+ ts) (hn : ∀ r c, c.tokens <:+ ts → Forward ts (next r c)) :
    Forward ts (expect r c ok e next) := by
  unfold expect
  split
  · exact hn _ _ (c.advance_suffix.trans hc)
  · exact forward_fail hc

/-! ## Parts of rules -/

/-- From every cursor of the list the reader moves forward. -/
def Forwards (ts : List Token) (g : Cursor → Step) : Prop :=
  ∀ c, c.tokens <:+ ts → Forward ts (g c)

theorem forward_chainRest {operand : Cursor → Step} (ho : Forwards ts operand)
    (isOp : Token → Bool) (depth : Nat) : ∀ (r : Report Failure Tree) (c : Cursor) (left : Tree),
      c.tokens <:+ ts → Forward ts (chainRest operand isOp depth r c left) := by
  induction depth with
  | zero => exact fun _ _ _ _ => forward_error
  | succ depth ih =>
    intro r c left hc
    unfold chainRest
    split
    · exact (ho _ (c.advance_suffix.trans hc)).andThen fun r c' right hc' => ih r c' _ hc'
    · exact forward_succeed hc

theorem forwards_chain {operand : Cursor → Step} (ho : Forwards ts operand)
    (isOp : Token → Bool) (depth : Nat) : Forwards ts (chain operand isOp depth) :=
  fun c hc => (ho c hc).andThen fun r c left hc => forward_chainRest ho isOp depth r c left hc

end

section

variable {ts : List Token} {recur : Rule → Cursor → Step} {depth : Nat}
  (hr : ∀ rule, Forwards ts (recur rule))

include hr

theorem forward_branch {r : Report Failure Tree} {c : Cursor}
    {next : Report Failure Tree → Cursor → Tree → Tree → Step} (hc : c.tokens <:+ ts)
    (hn : ∀ r c condition body, c.tokens <:+ ts → Forward ts (next r c condition body)) :
    Forward ts (branch recur r c next) := by
  refine (hr .expression c hc).andThen fun r c condition hc => ?_
  refine forward_expect hc fun r c hc => ?_
  exact (hr .expression c hc).andThen fun r c body hc => hn r c condition body hc

theorem forward_moreBranches (depth : Nat) : ∀ (r : Report Failure Tree) (c : Cursor)
    (done : List (Tree × Tree)), c.tokens <:+ ts →
      Forward ts (moreBranches recur depth r c done) := by
  induction depth with
  | zero => exact fun _ _ _ _ => forward_error
  | succ depth ih =>
    intro r c done hc
    have ha := c.advance_suffix.trans hc
    unfold moreBranches
    split
    · exact forward_branch hr ha fun r c condition body hc => ih r c _ hc
    · dsimp only
      split
      · exact (hr .expression _ ha).andThen fun r c otherwise hc => forward_succeed hc
      · exact forward_succeed hc

theorem forward_stride {r : Report Failure Tree} {c : Cursor}
    {next : Report Failure Tree → Cursor → Tree → Step} (hc : c.tokens <:+ ts)
    (hn : ∀ r c step, c.tokens <:+ ts → Forward ts (next r c step)) :
    Forward ts (stride recur r c next) := by
  unfold stride
  split
  · exact (hr .expression _ (c.advance_suffix.trans hc)).andThen hn
  · exact hn _ _ _ hc

/-! ## The rules -/

theorem forwards_expression : Forwards ts (expression recur depth) := by
  intro c hc
  unfold expression
  split
  · refine forward_expect (c.advance_suffix.trans hc) fun r c' hc' => ?_
    refine forward_expect hc' fun r c'' hc'' => ?_
    exact (hr .expression c'' hc'').andThen fun r c value hc => forward_succeed hc
  · exact (forwards_chain (hr .condition) isLogical depth c hc).orExpect

theorem forwards_condition : Forwards ts (condition recur depth) := by
  intro c hc
  unfold condition
  split
  · refine (hr .condition _ (c.advance_suffix.trans hc)).andThen fun r c operand hc => ?_
    exact forward_succeed hc
  · exact (forwards_chain (hr .sum) isComparison depth c hc).orExpect

theorem forwards_factor : Forwards ts (factor recur) := by
  intro c hc
  unfold factor
  split
  · refine (hr .factor _ (c.advance_suffix.trans hc)).andThen fun r c operand hc => ?_
    exact forward_succeed hc
  · exact hr .power c hc

theorem forwards_power : Forwards ts (power recur) := by
  intro c hc
  refine (hr .atom c hc).andThen fun r c base hc => ?_
  split
  · refine (hr .factor _ (c.advance_suffix.trans hc)).andThen fun r c exponent hc => ?_
    exact forward_succeed hc
  · exact forward_succeed hc

theorem forwards_atom : Forwards ts (atom recur) := by
  intro c hc
  have ha := c.advance_suffix.trans hc
  have hform : ∀ rule, Forward ts (form recur rule c) :=
    fun rule => (hr rule c hc).andThen fun r c t hc => forward_succeed hc
  unfold atom
  dsimp only
  split
  · exact forward_succeed ha
  split
  · exact forward_succeed ha
  split
  · refine (hr .expression _ ha).andThen fun r c inner hc => ?_
    exact forward_expect hc fun r c hc => forward_succeed hc
  split
  · exact hform .conditional
  split
  · exact hform .forLoop
  split
  · exact hform .whileLoop
  · exact forward_fail hc

theorem forwards_conditional : Forwards ts (conditional recur depth) := by
  intro c hc
  unfold conditional
  refine forward_expect hc fun r c hc => ?_
  refine forward_branch hr hc fun r c condition body hc => ?_
  exact forward_moreBranches hr depth r c _ hc

theorem forwards_forLoop : Forwards ts (forLoop recur) := by
  intro c hc
  unfold forLoop
  refine forward_expect hc fun r c hc => ?_
  refine forward_expect hc fun r c hc => ?_
  refine forward_expect hc fun r c hc => ?_
  refine (hr .expression c hc).andThen fun r c first hc => ?_
  refine forward_expect hc fun r c hc => ?_
  refine (hr .expression c hc).andThen fun r c last hc => ?_
  refine forward_stride hr hc fun r c step hc => ?_
  refine forward_expect hc fun r c hc => ?_
  exact (hr .expression c hc).andThen fun r c body hc => forward_succeed hc

theorem forwards_whileLoop : Forwards ts (whileLoop recur) := by
  intro c hc
  unfold whileLoop
  refine forward_expect hc fun r c hc => ?_
  exact forward_branch hr hc fun r c condition body hc => forward_succeed hc

theorem forwards_body (rule : Rule) : Forwards ts (body recur depth rule) := by
  cases rule with
  | expression => exact forwards_expression hr
  | condition => exact forwards_condition hr
  | sum => exact forwards_chain (hr .product) isAdditive depth
  | product => exact forwards_chain (hr .factor) isMultiplicative depth
  | factor => exact forwards_factor hr
  | power => exact forwards_power hr
  | atom => exact forwards_atom hr
  | conditional => exact forwards_conditional hr
  | forLoop => exact forwards_forLoop hr
  | whileLoop => exact forwards_whileLoop hr

end

/-- However deep the rules go, they never move back. -/
theorem derive_forward (ts : List Token) (depth : Nat) :
    ∀ rule, Forwards ts (derive depth rule) := by
  induction depth with
  | zero => exact fun _ _ _ => forward_error
  | succ depth ih => exact forwards_body ih

/-- The token at which parsing stops is one of the list. -/
theorem current_mem_of_parse {ts : List Token} {r : Report Failure Tree} {c : Cursor}
    (h : parse ts = .ok (r, c)) : c.current ∈ ts := by
  have hf : Forward ts (parse ts) := by
    cases ts with
    | nil => exact forward_error
    | cons t rest =>
      have hd := derive_forward (t :: rest) (depthFor (t :: rest)) .expression ⟨t, rest⟩
        (List.suffix_refl _)
      unfold parse
      dsimp only [Cursor.ofTokens?]
      split
      · exact forward_error
      · next r c hrc =>
        have hc := hd r c hrc
        split
        · exact forward_fail hc
        · rintro _ _ ⟨⟩
          exact hc
  exact (hf r c h).subset (.head _)

/-! ## Up to the first end -/

/-- Before an end, nothing that comes after it is read: the report is the same whatever that is,
but for its last step, and counts the tokens before the cursor. -/
theorem parse_before_end {body : List Token} {eof : Token}
    (hbody : ∀ t ∈ body, t.is .endOfText = false) (heof : eof.is .endOfText = true)
    (hl : ∀ t ∈ body ++ [eof], t.Located) :
    ∃ (error : Option Failure) (node : Option Tree) (n : Nat), n ≤ body.length ∧
      (error = none → n = body.length ∧ node.isSome = true) ∧ ∀ after, ∃ last c,
        parse (body ++ eof :: after) =
          .ok ({ error := error, node := node, lastStep := last, consumed := n }, c) ∧
        c.tokens = (body ++ eof :: after).drop n := by
  have hclosed : Closed (body ++ [eof]) := ⟨hl, body, eof, rfl, heof, hbody⟩
  -- what is taken before the first end is decided by the list that ends there
  rcases greedy_or_refused hclosed.ends with
    ⟨d, eof', rest, hts, he, hg⟩ | ⟨u, bad, rest, e, hts, hr⟩
  · obtain ⟨hd, rfl⟩ := hclosed.eq_dropLast hts he
    rw [List.dropLast_concat] at hd
    obtain rfl : eof = eof' := by simpa [hd] using hts
    refine ⟨none, some d.tree, body.length, Nat.le_refl _, fun _ => ⟨rfl, rfl⟩, fun after => ?_⟩
    have hahead : lookahead [eof] = lookahead (eof :: after) := rfl
    obtain ⟨last, hp⟩ := parse_of_greedy ((greedy_congr d hahead).1 hg) heof
    rw [hd] at hp
    exact ⟨last, _, hp, by rw [List.drop_left]; rfl⟩
  · have hlength := congrArg List.length hts
    simp only [List.length_append, List.length_cons, List.length_nil] at hlength
    obtain ⟨⟨start, stop⟩, hs⟩ := hl bad (by simp [hts])
    obtain ⟨node, hp⟩ := hr.parse hs
    refine ⟨some ⟨e, start, stop⟩, node, u.length, by omega, nofun, fun after => ?_⟩
    have hmore : body ++ eof :: after = u ++ bad :: (rest ++ after) := by
      simpa using congrArg (· ++ after) hts
    obtain ⟨last, hp⟩ := hp (rest ++ after)
    rw [hmore]
    exact ⟨last, _, hp, by rw [List.drop_left]; rfl⟩

/-- Rules that stop without an error stop at an end. -/
theorem ends_of_parse {ts : List Token} {r : Report Failure Tree} {c : Cursor}
    (h : parse ts = .ok (r, c)) (he : r.error = none) : c.current.is .endOfText = true := by
  unfold parse at h
  split at h
  · cases h
  split at h
  · cases h
  split at h
  · next r₀ c₀ _ hfail =>
    rw [Bool.and_eq_true] at hfail
    unfold fail at h
    split at h
    · cases h
      simp [Report.fail, hfail.1] at he
    · cases h
  · next hgood =>
    cases h
    simpa [he] using hgood

/-- A list of tokens with places is read up to its first end, which is its token `k`, and no
further: an answer is given, the cursor stands behind as many tokens as were consumed, these are
at most `k`, and exactly `k` if there is no error. Every list with the same tokens up to that end
is answered alike. A list without an end is never parsed. -/
theorem parse_extent (ts : List Token) :
    (∀ k, ts.findIdx? (·.is .endOfText) = some k → (∀ t ∈ ts.take (k + 1), t.Located) →
      ∃ r c, parse ts = .ok (r, c) ∧ c.tokens = ts.drop r.consumed ∧ r.consumed ≤ k ∧
        (r.error = none → r.consumed = k ∧ ∃ t, r.node = some t) ∧
        ∀ ts' : List Token, ts'.take (k + 1) = ts.take (k + 1) → ∃ r' c', parse ts' = .ok (r', c') ∧
          r'.error = r.error ∧ r'.node = r.node ∧ r'.consumed = r.consumed) ∧
    (ts.findIdx? (·.is .endOfText) = none → ∀ r c, parse ts = .ok (r, c) → r.error ≠ none) := by
  refine ⟨fun k hk hl => ?_, fun hnone r c h he => ?_⟩
  · obtain ⟨hlt, heof, hbody⟩ := List.findIdx?_eq_some_iff_getElem.1 hk
    have hbody' : ∀ t ∈ ts.take k, t.is .endOfText = false := by
      intro t ht
      obtain ⟨j, hj, rfl⟩ := List.mem_take_iff_getElem.1 ht
      exact Bool.eq_false_iff.2 (hbody j (by omega))
    rw [← List.take_append_getElem hlt] at hl
    have hlength : (ts.take k).length = k := List.length_take_of_le (by omega)
    obtain ⟨error, node, n, hn, hgood, hp⟩ := parse_before_end hbody' heof hl
    rw [hlength] at hn hgood
    have halike : ∀ ts' : List Token, ts'.take (k + 1) = ts.take (k + 1) → ∃ last c,
        parse ts' = .ok ({ error := error, node := node, lastStep := last, consumed := n }, c) ∧
        c.tokens = ts'.drop n := by
      intro ts' h
      have hts' : ts' = ts.take k ++ ts[k] :: ts'.drop (k + 1) := by
        rw [← List.singleton_append, ← List.append_assoc, List.take_append_getElem hlt, ← h,
          List.take_append_drop]
      rw [hts']
      exact hp _
    obtain ⟨last, c, hparse, hc⟩ := halike ts rfl
    refine ⟨_, c, hparse, hc, hn, fun he => ?_, fun ts' h => ?_⟩
    · exact ⟨(hgood he).1, Option.isSome_iff_exists.1 (hgood he).2⟩
    · obtain ⟨last', c', hparse', -⟩ := halike ts' h
      exact ⟨_, c', hparse', rfl, rfl, rfl⟩
  · have hc := List.findIdx?_eq_none_iff.1 hnone _ (current_mem_of_parse h)
    rw [ends_of_parse h he] at hc
    cases hc

/-- A name is read up to the end, whatever comes after that, and is refused if no end comes. -/
theorem name_extent :
    let a := Terminal.name.sample
    (∃ r c, parse [a, sampleEnd, Terminal.closeParen.sample] = .ok (r, c) ∧
      c.tokens = [sampleEnd, Terminal.closeParen.sample] ∧ r.error = none ∧ r.consumed = 1 ∧
      ∀ after, ∃ r' c', parse (a :: sampleEnd :: after) = .ok (r', c') ∧
        r'.error = none ∧ r'.node = r.node ∧ r'.consumed = 1) ∧
    (∃ r c, parse [a] = .ok (r, c)) ∧ ∀ r c, parse [a] = .ok (r, c) → r.error ≠ none := by
  intro a
  have hl : ∀ t ∈ [a, sampleEnd], t.Located :=
    List.forall_mem_cons.2 ⟨⟨_, rfl⟩, List.forall_mem_singleton.2 ⟨_, rfl⟩⟩
  have ha : Accepts [a, sampleEnd, Terminal.closeParen.sample] (.ident a) := ⟨_, _, rfl, rfl, rfl⟩
  refine ⟨?_, ⟨_, _, rfl⟩, (parse_extent [a]).2 rfl⟩
  obtain ⟨r, c, hp, hc, -, hgood, halike⟩ :=
    (parse_extent [a, sampleEnd, Terminal.closeParen.sample]).1 1 rfl hl
  obtain ⟨r₀, c₀, hp₀, he, -⟩ := ha
  cases hp₀.symm.trans hp
  have hk := (hgood he).1
  rw [hk] at hc
  refine ⟨r, c, hp, hc, he, hk, fun after => ?_⟩
  obtain ⟨r', c', hp', he', hn', hk'⟩ := halike (a :: sampleEnd :: after) rfl
  exact ⟨r', c', hp', he'.trans he, hn', hk'.trans hk⟩

end Grammar

end Reckoner
