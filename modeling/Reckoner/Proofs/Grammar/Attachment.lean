import Reckoner.Proofs.Grammar.Reading

/-!
# Attachment

Taking every optional part as soon as it can be taken loses nothing. What may follow a phrase is
a set `K` of token lists; it is absorbing if a list in it that starts with a token that opens some
part also splits into that part and a list in `K` again, so that the part may as well be attached
further inside. What follows a phrase in a production is absorbing whenever what follows the
production is (`absorbing_closing`). Hence, wherever some derivation leaves a list in `K`, the
greedy one does too (`Derivation.follows_of_greedy`), and reading does not break (`Breaks.refuses`).
-/

set_option autoImplicit false

namespace Reckoner

namespace Grammar

/-! ## Absorbing sets -/

/-- The lists that start with tokens derived from the items and go on in `K`. -/
def Follows (is : List Item) (K : List Token → Prop) (ts : List Token) : Prop :=
  ∃ (d : Derivation is) (after : List Token), ts = d.tokens ++ after ∧ K after

def Absorbing (K : List Token → Prop) : Prop :=
  ∀ (o : Part) (t : Token) (ts : List Token), K (t :: ts) → o.opens t.mark = true →
    ∃ (d : Derivation [.part o]) (after : List Token),
      t :: ts = d.tokens ++ after ∧ d.tokens ≠ [] ∧ K after

/-- Tokens admitted here open no part. -/
def Terminal.Closes (k : Terminal) : Prop :=
  ∀ (o : Part) (m : Mark), k.admits m = true → o.opens m = false

/-- Items that can only end an expression before them, or go on with a part of what is around
it. -/
def Closing : List Item → Prop
  | [] => True
  | .token k :: _ => k.Closes
  | .phrase (.rule _) :: _ => False
  | .phrase (.part _) :: is => Closing is

/-- After each phrase among the items stands what can close it. -/
def Separated : List Item → Prop
  | [] => True
  | .token _ :: is => Separated is
  | .phrase _ :: is => Closing is ∧ Separated is

theorem closes_of_admits {k : Terminal} {m₀ : Mark} (hk : ∀ m, k.admits m = true → m = m₀)
    (hm : m₀ = .keyword .doWord ∨ m₀ = .keyword .upto ∨ m₀ = .symbol .closeParen) : k.Closes := by
  intro o m h
  rw [hk m h]
  rcases hm with rfl | rfl | rfl <;> rcases o with l | _ | _ | _ <;>
    first | rfl | (cases l <;> rfl)

theorem doWord_closes : (Terminal.keyword .doWord).Closes :=
  closes_of_admits (fun _ h => beq_iff_eq.1 h) (.inl rfl)

theorem upto_closes : (Terminal.keyword .upto).Closes :=
  closes_of_admits (fun _ h => beq_iff_eq.1 h) (.inr (.inl rfl))

theorem closeParen_closes : Terminal.closeParen.Closes :=
  closes_of_admits (fun _ h => beq_iff_eq.1 h) (.inr (.inr rfl))

theorem separated_items {p : Phrase} (q : Production p) : Separated q.items := by
  cases q <;>
    simp [Production.items, Separated, Closing, doWord_closes, upto_closes, closeParen_closes]

/-- Derived from an optional part: nothing, or tokens of which the first opens it. -/
theorem part_tokens {o : Part} {q : Production (.part o)} (inner : Derivation q.items) :
    q = .omitted o ∨ ∃ t w, inner.tokens = t :: w ∧ o.opens t.mark = true := by
  rcases inner.omitted_or_first with ⟨hi, _⟩ | ⟨t, w, ht, hp⟩
  · cases q <;> first | exact .inl rfl | cases hi
  · cases ho : o.opens t.mark with
    | true => exact .inr ⟨t, w, ht, ho⟩
    | false =>
      rw [predict_part_omitted.2 ho] at hp
      exact .inl (Option.some.inj hp).symm

theorem absorbing_closing {K : List Token → Prop} (hK : Absorbing K) :
    ∀ {is : List Item}, Closing is → Absorbing (Follows is K)
  | [], _, o, t, ts, ⟨d, after, hd, ha⟩, ho => by
    cases d
    obtain rfl : t :: ts = after := hd
    obtain ⟨d, after, hd, hne, ha⟩ := hK o t ts ha ho
    exact ⟨d, after, hd, hne, .nil, after, rfl, ha⟩
  | .token k :: is, hc, o, t, ts, ⟨d, after, hd, _⟩, ho => by
    cases d with
    | token t' h rest =>
      simp only [Derivation.tokens_token, List.cons_append, List.cons.injEq] at hd
      obtain ⟨rfl, -⟩ := hd
      rw [hc o _ h] at ho
      cases ho
  | .phrase (.part o') :: is, hc, o, t, ts, ⟨d, after, hd, ha⟩, ho => by
    cases d with
    | phrase q inner rest =>
      rcases part_tokens inner with rfl | ⟨t', w, ht, ho'⟩
      · -- left out: the token stands in what follows
        cases inner
        have hrest : Absorbing (Follows is K) := absorbing_closing hK hc
        obtain ⟨d, after, hd, hne, rest, after, rfl, ha⟩ :=
          hrest o t ts ⟨rest, after, hd, ha⟩ ho
        exact ⟨d, _, hd, hne, .phrase (.omitted o') .nil rest, after, rfl, ha⟩
      · -- taken: it is the part itself
        have hd' : t :: ts = inner.tokens ++ (rest.tokens ++ after) := by simpa using hd
        obtain rfl : t = t' := by rw [ht] at hd'; exact (List.cons.inj hd').1
        obtain rfl := eq_of_opens ho ho'
        refine ⟨.phrase q inner .nil, rest.tokens ++ after, by simpa using hd', ?_,
          .phrase (.omitted o) .nil rest, after, rfl, ha⟩
        simp [ht]

/-! ## Greedy derivations attach all they can -/

/-- Where some derivation from a phrase leaves a list in an absorbing set, so does one by the
production that is predicted. -/
theorem exists_predicted {K : List Token → Prop} (hK : Absorbing K) {p : Phrase}
    {q : Production p} {ts : List Token} (hq : predict p (lookahead ts) = some q)
    {d : Derivation [.phrase p]} {after : List Token} (hd : ts = d.tokens ++ after)
    (ha : K after) : Follows q.items K ts := by
  cases d with
  | phrase q' inner none =>
    cases none
    simp only [Derivation.tokens_phrase, Derivation.tokens_nil, List.append_nil] at hd
    rcases inner.omitted_or_first with ⟨hi, ht⟩ | ⟨t, w, ht, hp⟩
    · obtain rfl : ts = after := by rw [hd, ht]; rfl
      cases q' with
      | omitted o =>
        cases ho : o.opens (lookahead ts) with
        | false =>
          rw [predict_part_omitted.2 ho] at hq
          cases hq
          exact ⟨inner, ts, hd, ha⟩
        | true =>
          -- left out before a token that opens the part: it can be attached here
          cases ts with
          | nil => rw [lookahead, opens_end] at ho; cases ho
          | cons t ts =>
            obtain ⟨d, after, hd, hne, ha⟩ := hK o t ts ha ho
            cases d with
            | phrase q₁ inner₁ none =>
              cases none
              simp only [Derivation.tokens_phrase, Derivation.tokens_nil, List.append_nil]
                at hd hne
              obtain rfl := inner₁.eq_of_predict hne (hd ▸ hq)
              exact ⟨inner₁, after, hd, ha⟩
      | _ => cases hi
    · obtain rfl := inner.eq_of_predict (by simp [ht]) (hd ▸ hq)
      exact ⟨inner, after, hd, ha⟩

theorem follows_phrase {K : List Token → Prop} {p : Phrase} {is : List Item} {ts : List Token}
    (h : Follows (.phrase p :: is) K ts) :
    ∃ (d : Derivation [.phrase p]) (after : List Token),
      ts = d.tokens ++ after ∧ Follows is K after := by
  obtain ⟨d, after, rfl, ha⟩ := h
  cases d with
  | phrase q inner rest =>
    exact ⟨.phrase q inner .nil, rest.tokens ++ after, by simp, rest, after, rfl, ha⟩

/-- What a greedy derivation leaves is in an absorbing set if some derivation leaves a list in
it. -/
theorem Derivation.follows_of_greedy {is : List Item} (g : Derivation is) :
    ∀ {K : List Token → Prop} {after : List Token}, Separated is → Absorbing K → g.Greedy after →
      Follows is K (g.tokens ++ after) → K after := by
  induction g with
  | nil =>
    rintro K after _ _ _ ⟨d, after', hd, ha⟩
    cases d
    obtain rfl : after = after' := hd
    exact ha
  | token t h rest ih =>
    rintro K after hc hK hg ⟨d, after', hd, ha⟩
    cases d with
    | token t' h' rest' =>
      simp only [Derivation.tokens_token, List.cons_append, List.cons.injEq] at hd
      exact ih hc hK hg ⟨rest', after', hd.2, ha⟩
  | phrase q inner rest ihi ihr =>
    intro K after hc hK hg hf
    obtain ⟨hq, hi, hr⟩ := hg
    obtain ⟨d, after', hd, ha⟩ := follows_phrase hf
    have hK' := absorbing_closing hK hc.1
    simp only [Derivation.tokens_phrase, List.append_assoc] at hd
    have hin := exists_predicted hK' (predict_of_fits inner hq) hd ha
    exact ihr hc.2 hK hr (ihi (separated_items q) hK' hi hin)

/-- Where reading breaks, no derivation leaves a list in an absorbing set. -/
theorem Breaks.refuses {is : List Item} {u : List Token} {bad : Token} {e : Expectation}
    (h : Breaks is u bad e) : ∀ {K : List Token → Prop} {after : List Token}, Separated is →
      Absorbing K → ¬ Follows is K (u ++ bad :: after) := by
  induction h with
  | token hk =>
    rintro K after _ _ ⟨d, after', hd, _⟩
    cases d with
    | token t' h' rest' =>
      simp only [List.nil_append, Derivation.tokens_token, List.cons_append, List.cons.injEq] at hd
      rw [hd.1, h'] at hk
      cases hk
  | afterToken hk _ ih =>
    rintro K after hc hK ⟨d, after', hd, ha⟩
    cases d with
    | token t' h' rest' =>
      simp only [List.cons_append, Derivation.tokens_token, List.cons.injEq] at hd
      exact ih hc hK ⟨rest', after', hd.2, ha⟩
  | @start r is bad hr =>
    rintro K after _ _ ⟨d, after', hd, _⟩
    cases d with
    | phrase q inner rest =>
      have hne : q.items ≠ [] := by cases q <;> simp [Production.items]
      obtain ⟨t, w, ht, hp⟩ := inner.first rfl hne
      simp only [List.nil_append, Derivation.tokens_phrase, ht, List.cons_append,
        List.cons.injEq] at hd
      rw [hd.1, hp] at hr
      cases hr
  | @inside p is bad u e q hq hb ih =>
    intro K after hc hK hf
    obtain ⟨d, after', hd, ha⟩ := follows_phrase hf
    have hK' := absorbing_closing hK hc.1
    refine ih (separated_items q) hK' (exists_predicted hK' (d := d) ?_ hd ha)
    cases u <;> exact hq
  | @afterPhrase p is bad u e d hg hb ih =>
    intro K after hc hK hf
    have hK' := absorbing_closing hK hc.1
    obtain ⟨d', after', hd, ha⟩ := follows_phrase hf
    have hg' := hg.of_append_cons after
    refine ih hc.2 hK (d.follows_of_greedy ⟨trivial, trivial⟩ hK' hg' ⟨d', after', ?_, ha⟩)
    simpa using hd

/-! ## Greedy derivations of whole lists -/

/-- The set of one list that is over. -/
theorem absorbing_end {eof : Token} (h : eof.mark = .symbol .endOfText) :
    Absorbing (· = [eof]) := by
  rintro o t ts hts ho
  obtain ⟨rfl, rfl⟩ : t = eof ∧ ts = [] := by simpa using hts
  rw [h, opens_end] at ho
  cases ho

/-- Tokens that some derivation derives before the end have a greedy derivation. -/
theorem exists_greedy {r : Rule} (d : Derivation [.rule r]) {eof : Token}
    (h : eof.mark = .symbol .endOfText) :
    ∃ g : Derivation [.rule r], g.tokens = d.tokens ∧ g.Greedy [eof] := by
  have hc : Separated [.rule r] := ⟨trivial, trivial⟩
  have he : Ended (d.tokens ++ [eof]) := ⟨eof, by simp, h⟩
  have hf : Follows [.rule r] (· = [eof]) (d.tokens ++ [eof]) := ⟨d, [eof], rfl, rfl⟩
  rcases answered _ (.rule r) _ (Nat.lt_succ_self _) he with
    ⟨g, after, hg, hgr⟩ | ⟨u, bad, after, e, hu, hb⟩
  · rw [hg] at hf
    obtain rfl := g.follows_of_greedy hc (absorbing_end h) hgr hf
    exact ⟨g, (List.append_cancel_right hg).symm, hgr⟩
  · rw [hu] at hf
    exact absurd hf (hb.refuses hc (absorbing_end h))

end Grammar

end Reckoner
