import Reckoner.Proofs.Grammar.Attachment
import Reckoner.Proofs.Grammar.Rules

/-!
# The language that is parsed

The parser accepts exactly the expressions of the grammar, and builds the tree of the greedy
derivation. Any other list it refuses at the first token at which no expression can go on.
-/

set_option autoImplicit false

namespace Reckoner

namespace Grammar

/-- Tokens with places, the last of which is the end of the text, and no other. -/
structure Closed (ts : List Token) : Prop where
  located : ∀ t ∈ ts, t.Located
  ended : ∃ body eof, ts = body ++ [eof] ∧ eof.is .endOfText = true ∧
    ∀ t ∈ body, t.is .endOfText = false

/-- The tokens are parsed to a tree. -/
def Accepts (ts : List Token) (t : Tree) : Prop :=
  ∃ r c, parse ts = .ok (r, c) ∧ r.error = none ∧ r.node = some t

/-- The tokens are refused with an error, after `k` of them were consumed. -/
def Rejects (ts : List Token) (e : Failure) (k : Nat) : Prop :=
  ∃ r c, parse ts = .ok (r, c) ∧ r.error = some e ∧ r.consumed = k

theorem Accepts.unique {ts : List Token} {t t' : Tree} (h : Accepts ts t) (h' : Accepts ts t') :
    t = t' := by
  obtain ⟨r, c, hp, _, ht⟩ := h
  obtain ⟨r', c', hp', _, ht'⟩ := h'
  cases hp.symm.trans hp'
  exact Option.some.inj (ht.symm.trans ht')

theorem Accepts.not_rejects {ts : List Token} {t : Tree} {e : Failure} {k : Nat}
    (h : Accepts ts t) : ¬ Rejects ts e k := by
  rintro ⟨r', c', hp', he', _⟩
  obtain ⟨r, c, hp, he, _⟩ := h
  cases hp.symm.trans hp'
  cases he.symm.trans he'

theorem Rejects.unique {ts : List Token} {e e' : Failure} {k k' : Nat} (h : Rejects ts e k)
    (h' : Rejects ts e' k') : e = e' ∧ k = k' := by
  obtain ⟨r, c, hparse, herror, rfl⟩ := h
  obtain ⟨r', c', hparse', herror', rfl⟩ := h'
  cases hparse.symm.trans hparse'
  exact ⟨Option.some.inj (herror.symm.trans herror'), rfl⟩

/-! ## Lists that are parsed, and lists that are not -/

/-- The rules from the top, deep enough for all the tokens. -/
theorem parses_all (ts : List Token) :
    Parses (ts.length + 1) .expression (derive (depthFor ts) .expression) :=
  parses_derive _ _ _ (by simp only [depthFor, Rule.rank]; omega)

theorem parse_before (u : List Token) (c : Cursor) : parse (u ++ c.tokens) =
    match derive (depthFor (u ++ c.tokens)) .expression (c.before u) with
    | .error h => .error h
    | .ok (r, c) =>
      if r.error.isNone && !c.current.is .endOfText then fail r c .operator else .ok (r, c) := by
  cases u <;> rfl

section

variable {t : Token} {after : List Token}

/-- Greedily derived tokens before the end are consumed, and give the tree of the derivation. -/
theorem parse_of_greedy {d : Sentence} (hg : d.Greedy (t :: after))
    (ht : t.is .endOfText = true) : ∃ last, parse (d.tokens ++ t :: after) =
      .ok ({ node := some d.tree, lastStep := last, consumed := d.tokens.length }, ⟨t, after⟩) := by
  obtain ⟨last, hy⟩ := (parses_all (d.tokens ++ t :: after)).yields d ⟨t, after⟩
    (by rw [List.length_append]; omega) hg
  have hp := parse_before d.tokens ⟨t, after⟩
  simp only [Cursor.tokens, hy, ht] at hp
  exact ⟨last, hp⟩

theorem accepts_of_greedy {d : Sentence} (hg : d.Greedy (t :: after))
    (ht : t.is .endOfText = true) : Accepts (d.tokens ++ t :: after) d.tree := by
  obtain ⟨last, hp⟩ := parse_of_greedy hg ht
  exact ⟨_, _, hp, rfl, rfl⟩

end

/-- The tokens `u` begin an expression, or are one, and `bad` cannot come after them. -/
inductive Refused : List Token → Token → Expectation → Prop where
  | breaks {u : List Token} {bad : Token} {e : Expectation}
      (hb : Breaks [.rule .expression] u bad e) : Refused u bad e
  | surplus {d : Sentence} {bad : Token} (hg : d.Greedy [bad]) (he : bad.is .endOfText = false) :
      Refused d.tokens bad .operator

namespace Refused

variable {u : List Token} {bad : Token} {e : Expectation}

/-- Whatever comes after the bad token, what is before it is consumed, and the report is the same
but for its last step. -/
theorem parse (h : Refused u bad e) {start stop : Position}
    (hs : bad.span.ends? = some (start, stop)) :
    ∃ node : Option Tree, ∀ after, ∃ last, Grammar.parse (u ++ bad :: after) =
      .ok ({ error := some ⟨e, start, stop⟩, node := node, lastStep := last,
             consumed := u.length }, ⟨bad, after⟩) := by
  cases h with
  | breaks hb =>
    refine ⟨none, fun after => ?_⟩
    have hp := parse_before u ⟨bad, after⟩
    obtain ⟨start', stop', last, hs', hf⟩ := (parses_all (u ++ bad :: after)).fails u e
      ⟨bad, after⟩ (by rw [List.length_append]; omega) hb ⟨_, hs⟩
    cases hs.symm.trans hs'
    simp only [Cursor.tokens, hf] at hp
    exact ⟨last, hp⟩
  | @surplus d _ hg he =>
    refine ⟨some d.tree, fun after => ?_⟩
    have hp := parse_before d.tokens ⟨bad, after⟩
    obtain ⟨last, hy⟩ := (parses_all (d.tokens ++ bad :: after)).yields d ⟨bad, after⟩
      (by rw [List.length_append]; omega) (hg.of_append_cons (u := []) after)
    simp only [Cursor.tokens, hy, he, fail, hs] at hp
    exact ⟨last, hp⟩

theorem rejects (h : Refused u bad e) {start stop : Position}
    (hs : bad.span.ends? = some (start, stop)) (after : List Token) :
    Rejects (u ++ bad :: after) ⟨e, start, stop⟩ u.length := by
  obtain ⟨node, hp⟩ := h.parse hs
  obtain ⟨last, hp⟩ := hp after
  exact ⟨_, _, hp, rfl, rfl⟩

/-- What was taken can be completed to an expression. -/
theorem viable {P : Token → Prop} (hP : ∀ k : Terminal, ∃ t, k.admits t.mark = true ∧ P t)
    (h : Refused u bad e) : ∃ d : Sentence, ∃ w, d.tokens = u ++ w ∧ ∀ t ∈ w, P t := by
  cases h with
  | breaks hb => exact hb.viable hP
  | @surplus d => exact ⟨d, [], (List.append_nil _).symm, by simp⟩

end Refused

/-- A list with an end is derived greedily up to its first end, or refused. -/
theorem greedy_or_refused {ts : List Token} (h : Ended ts) :
    (∃ (d : Sentence) (eof : Token) (after : List Token), ts = d.tokens ++ eof :: after ∧
        eof.is .endOfText = true ∧ d.Greedy (eof :: after)) ∨
      ∃ u bad after e, ts = u ++ bad :: after ∧ Refused u bad e := by
  rcases answered _ (.rule .expression) ts (Nat.lt_succ_self _) h with
    ⟨d, after, rfl, hg⟩ | ⟨u, bad, after, e, rfl, hb⟩
  · cases after with
    | nil => obtain ⟨t, ht, _⟩ := h.after; cases ht
    | cons t after =>
      cases he : t.is .endOfText with
      | true => exact .inl ⟨d, t, after, rfl, he, hg⟩
      | false =>
        exact .inr ⟨d.tokens, t, after, _, rfl, .surplus (hg.of_append_cons (u := []) []) he⟩
  · exact .inr ⟨u, bad, after, e, rfl, .breaks hb⟩

/-! ## Closed lists -/

namespace Closed

variable {ts : List Token}

theorem ends (h : Closed ts) : Ended ts := by
  obtain ⟨body, eof, rfl, he, _⟩ := h.ended
  rw [Token.is_eq _ (by decide), beq_iff_eq] at he
  exact ⟨eof, by simp, he⟩

/-- The end stands after the last token but one. -/
theorem eq_append (h : Closed ts) :
    ∃ eof, ts = ts.dropLast ++ [eof] ∧ eof.is .endOfText = true := by
  obtain ⟨body, eof, rfl, he, _⟩ := h.ended
  exact ⟨eof, by simp, he⟩

/-- What stands before an end is the whole list but its last token. -/
theorem eq_dropLast (h : Closed ts) {u after : List Token} {eof : Token}
    (hu : ts = u ++ eof :: after) (he : eof.is .endOfText = true) :
    u = ts.dropLast ∧ after = [] := by
  obtain ⟨body, eof', rfl, _, hb⟩ := h.ended
  rcases List.append_eq_append_iff.1 hu with ⟨v, rfl, hv⟩ | ⟨v, rfl, hv⟩
  · cases v with
    | nil => exact ⟨by simp, by simpa using (List.cons.inj hv).2⟩
    | cons t v => simp at hv
  · cases v with
    | nil => exact ⟨by simp, by simpa using (List.cons.inj hv).2.symm⟩
    | cons t v =>
      cases hv
      rw [hb eof (by simp)] at he
      cases he

end Closed

/-- A closed list is parsed to the tree of a greedy derivation, or refused. -/
theorem Closed.accepts_or_refused {ts : List Token} (h : Closed ts) :
    (∃ d : Sentence, d.tokens = ts.dropLast ∧ d.Greedy [] ∧ Accepts ts d.tree) ∨
      ∃ u bad after e start stop, ts = u ++ bad :: after ∧
        bad.span.ends? = some (start, stop) ∧ Refused u bad e := by
  rcases greedy_or_refused h.ends with ⟨d, eof, after, hts, he, hg⟩ | ⟨u, bad, after, e, rfl, hr⟩
  · obtain ⟨hd, rfl⟩ := h.eq_dropLast hts he
    have hm : lookahead [eof] = lookahead [] := by
      rw [Token.is_eq _ (by decide), beq_iff_eq] at he
      exact he
    refine .inl ⟨d, hd, (greedy_congr d hm).1 hg, ?_⟩
    rw [hts]
    exact accepts_of_greedy hg he
  · obtain ⟨⟨start, stop⟩, hs⟩ := h.located bad (by simp)
    exact .inr ⟨u, bad, after, e, start, stop, rfl, hs, hr⟩

theorem Closed.accepts_or_rejects {ts : List Token} (h : Closed ts) :
    (∃ t, Accepts ts t) ∨ ∃ e k, Rejects ts e k := by
  rcases h.accepts_or_refused with ⟨d, -, -, ha⟩ | ⟨u, bad, after, e, start, stop, rfl, hs, hr⟩
  · exact .inl ⟨d.tree, ha⟩
  · exact .inr ⟨_, _, hr.rejects hs after⟩

/-! ## Samples -/

/-- Some token that is admitted. -/
def Terminal.sample : Terminal → Token
  | .keyword w => make .keyword (.text w.text)
  | .number => make .int (.number (.int 1))
  | .name => make .identifier (.text "a")
  | .assign => make .assign .blank
  | .openParen => make .openParen .blank
  | .closeParen => make .closeParen .blank
  | .power => make .power .blank
  | .operator .logical => make .keyword (.text Keyword.and.text)
  | .operator .comparison => make .less .blank
  | .operator .additive => make .plus .blank
  | .operator .multiplicative => make .times .blank
where
  make (k : Symbol) (value : Datum) : Token := .make k value ⟨some (.first "sample"), none⟩

def sampleEnd : Token := Terminal.sample.make .endOfText .blank

theorem Terminal.admits_sample (k : Terminal) : k.admits k.sample.mark = true := by
  cases k with
  | keyword w => cases w <;> rfl
  | operator l => cases l <;> rfl
  | _ => rfl

theorem Terminal.located_sample (k : Terminal) : k.sample.Located := by
  cases k with
  | operator l => cases l <;> exact ⟨_, rfl⟩
  | _ => exact ⟨_, rfl⟩

theorem is_end_eq_false {t : Token} (h : t.mark ≠ .symbol .endOfText) :
    t.is .endOfText = false := by
  rw [Token.is_eq _ (by decide)]
  exact beq_eq_false_iff_ne.2 h

theorem Terminal.sample_not_end (k : Terminal) : k.sample.is .endOfText = false := by
  refine is_end_eq_false fun h => ?_
  have ha := k.admits_sample
  rw [h, not_admits_end] at ha
  cases ha

theorem closed_samples (ks : List Terminal) : Closed (ks.map Terminal.sample ++ [sampleEnd]) where
  located t ht := by
    rcases List.mem_append.1 ht with ht | ht
    · obtain ⟨k, _, rfl⟩ := List.mem_map.1 ht
      exact k.located_sample
    · obtain rfl := List.mem_singleton.1 ht
      exact ⟨_, rfl⟩
  ended := by
    refine ⟨_, _, rfl, rfl, fun t ht => ?_⟩
    obtain ⟨k, _, rfl⟩ := List.mem_map.1 ht
    exact k.sample_not_end

/-! ## Acceptance -/

/-- What is derived before the end is accepted. -/
theorem exists_accepts (d : Sentence) {eof : Token} (he : eof.is .endOfText = true) :
    ∃ g : Sentence, g.tokens = d.tokens ∧ g.Greedy [eof] ∧
      Accepts (d.tokens ++ [eof]) g.tree := by
  have hm : eof.mark = .symbol .endOfText := by
    rwa [Token.is_eq _ (by decide), beq_iff_eq] at he
  obtain ⟨g, hg, hgr⟩ := exists_greedy d hm
  exact ⟨g, hg, hgr, hg ▸ accepts_of_greedy hgr he⟩

/-- A closed list of tokens is parsed if and only if what stands before the end is an expression
of the grammar; the tree is that of the one derivation which takes each optional part as far
inside as it can. -/
theorem accepts_iff_derivable {ts : List Token} (h : Closed ts) :
    ((∃ t, Accepts ts t) ↔ ∃ d : Sentence, d.tokens = ts.dropLast) ∧
      ∀ t, Accepts ts t → ∃ d : Sentence, d.tokens = ts.dropLast ∧ d.Greedy [] ∧ d.tree = t ∧
        ∀ d' : Sentence, d'.tokens = ts.dropLast → d'.Greedy [] → d' = d := by
  have tree : ∀ t, Accepts ts t → ∃ d : Sentence,
      d.tokens = ts.dropLast ∧ d.Greedy [] ∧ d.tree = t := by
    intro t ht
    rcases h.accepts_or_refused with ⟨d, hd, hg, ha⟩ | ⟨u, bad, after, e, _, _, rfl, hs, hr⟩
    · exact ⟨d, hd, hg, ha.unique ht⟩
    · exact absurd (hr.rejects hs after) ht.not_rejects
  refine ⟨⟨?_, ?_⟩, ?_⟩
  · rintro ⟨t, ht⟩
    obtain ⟨d, hd, _⟩ := tree t ht
    exact ⟨d, hd⟩
  · rintro ⟨d, hd⟩
    obtain ⟨eof, hts, he⟩ := h.eq_append
    obtain ⟨g, _, _, ha⟩ := exists_accepts d he
    rw [hd, ← hts] at ha
    exact ⟨g.tree, ha⟩
  · intro t ht
    obtain ⟨d, hd, hg, htree⟩ := tree t ht
    refine ⟨d, hd, hg, htree, fun d' hd' hg' => ?_⟩
    exact (d'.eq_of_greedy hg' hg (by rw [hd, hd'])).1

/-- Sums group to the left and powers to the right: `1 + 1 ^ 1 ^ 1 + 1`. -/
example :
    let plus := Terminal.operator .additive
    let one := Tree.literal Terminal.number.sample
    Accepts ([.number, plus, .number, .power, .number, .power, .number, plus, .number].map
        Terminal.sample ++ [sampleEnd])
      (.binary plus.sample
        (.binary plus.sample one
          (.binary Terminal.power.sample one (.binary Terminal.power.sample one one))) one) :=
  ⟨_, _, rfl, rfl, rfl⟩

/-- `IF a DO IF a DO a ELSE a`, followed by the end. -/
def danglingElse : List Token :=
  [.keyword .ifWord, .name, .keyword .doWord, .keyword .ifWord, .name, .keyword .doWord, .name,
    .keyword .elseWord, .name].map Terminal.sample ++ [sampleEnd]

/-- The `ELSE` belongs to the inner conditional. -/
theorem danglingElse_derivation :
    let a := Tree.ident Terminal.name.sample
    ∃ d : Sentence, d.tokens = danglingElse.dropLast ∧ d.Greedy [] ∧
      d.tree = .conditional (.ofList [(a, .conditional (.ofList [(a, a)]) a)]) .absent := by
  intro a
  have ha : Accepts danglingElse
      (.conditional (.ofList [(a, .conditional (.ofList [(a, a)]) a)]) .absent) :=
    ⟨_, _, rfl, rfl, rfl⟩
  obtain ⟨d, hd, hg, ht, _⟩ := (accepts_iff_derivable (closed_samples _)).2 _ ha
  exact ⟨d, hd, hg, ht⟩

/-! ## Errors -/

/-- A closed list that is not parsed is refused at its first token, the one after the `k` tokens
consumed, at which no expression can go on: the tokens before it are the start of some list that
is accepted, and no list that starts with them and it is. -/
theorem rejects_at_first_bad_token {ts : List Token} (h : Closed ts) (hf : ∀ t, ¬ Accepts ts t) :
    ∃ e k bad, Rejects ts e k ∧ k ≤ ts.dropLast.length ∧ ts[k]? = some bad ∧
      bad.span.ends? = some (e.start, e.stop) ∧
      (∃ w eof t, Closed (ts.take k ++ w ++ [eof]) ∧ Accepts (ts.take k ++ w ++ [eof]) t) ∧
      ∀ after, Rejects (ts.take (k + 1) ++ after) e k := by
  rcases h.accepts_or_refused with ⟨d, _, _, ha⟩ | ⟨u, bad, after, e, start, stop, rfl, hs, hr⟩
  · exact absurd ha (hf d.tree)
  refine ⟨⟨e, start, stop⟩, u.length, bad, hr.rejects hs after, by simp, by simp, hs, ?_, ?_⟩
  · obtain ⟨d, w, hd, hw⟩ := hr.viable (P := Token.Located)
      fun k => ⟨k.sample, k.admits_sample, k.located_sample⟩
    obtain ⟨g, _, _, ha⟩ := exists_accepts d (show sampleEnd.is .endOfText = true from rfl)
    refine ⟨w, sampleEnd, g.tree, ?_, by rw [List.take_left, ← hd]; exact ha⟩
    rw [List.take_left, ← hd]
    refine ⟨fun t ht => ?_, d.tokens, sampleEnd, rfl, rfl, fun t ht => ?_⟩
    · rw [hd, List.append_assoc, List.mem_append, List.mem_append, List.mem_singleton] at ht
      rcases ht with ht | ht | rfl
      · exact h.located t (by simp [ht])
      · exact hw t ht
      · exact ⟨_, rfl⟩
    · exact is_end_eq_false (d.mark_ne_end t ht)
  · intro after'
    have htake : (u ++ bad :: after).take (u.length + 1) = u ++ [bad] := by
      rw [← List.singleton_append, ← List.append_assoc, List.take_left' (by simp)]
    rw [htake, List.append_assoc]
    exact hr.rejects hs after'

/-- `IF a DO ( a ELSE a`, followed by the end. -/
def unclosed : List Token :=
  [.keyword .ifWord, .name, .keyword .doWord, .openParen, .name, .keyword .elseWord,
    .name].map Terminal.sample ++ [sampleEnd]

/-- The `ELSE` is refused where the parenthesis was to be closed. -/
theorem unclosed_rejects_at_else : ∃ e, Rejects unclosed e 5 ∧
    (∃ w eof t, Accepts (unclosed.take 5 ++ w ++ [eof]) t) ∧
      ∀ after, Rejects (unclosed.take 6 ++ after) e 5 := by
  have hp : ∃ r c e, parse unclosed = .ok (r, c) ∧ r.error = some e ∧ r.consumed = 5 :=
    ⟨_, _, _, rfl, rfl, rfl⟩
  obtain ⟨r, c, e₀, hp, he₀, hk⟩ := hp
  have hf : ∀ t, ¬ Accepts unclosed t := fun t h => h.not_rejects ⟨r, c, hp, he₀, rfl⟩
  obtain ⟨e, k, bad, ⟨r', c', hp', he, rfl⟩, _, _, _, ⟨w, eof, t, _, ha⟩, hafter⟩ :=
    rejects_at_first_bad_token (closed_samples _) hf
  cases hp.symm.trans hp'
  rw [hk] at ha hafter
  exact ⟨e, ⟨r, c, hp, he, hk⟩, ⟨w, eof, t, ha⟩, hafter⟩

end Grammar

end Reckoner
