import Reckoner.Proofs.Grammar.Attachment

/-!
# Conformance of the parser's steps

`Conforms chosen m is f g`: the continuation `g`, run with a report in flight, reads the items
`is` as their derivations say. Before a list of fewer than `m` tokens that a greedy derivation
derives it consumes them all and yields the tree `f` of their meanings; where reading breaks it
fails at the token that breaks it, waiting for what is missing there. If `chosen`, the first
token has been looked at before, and only breaks after it count. There is one lemma for each way
in which the rules are put together, and each asks for the conformance of what comes after.
-/

set_option autoImplicit false

namespace Reckoner

namespace Grammar

/-! ## Cursors -/

namespace Cursor

def tokens (c : Cursor) : List Token := c.current :: c.rest

/-- The cursor before some more tokens. -/
def before (c : Cursor) : List Token → Cursor
  | [] => c
  | t :: u => ⟨t, u ++ c.tokens⟩

@[simp] theorem before_nil (c : Cursor) : c.before [] = c := rfl

@[simp] theorem current_before_cons (c : Cursor) (t : Token) (u : List Token) :
    (c.before (t :: u)).current = t := rfl

@[simp] theorem tokens_before (c : Cursor) (u : List Token) :
    (c.before u).tokens = u ++ c.tokens := by
  cases u <;> rfl

@[simp] theorem advance_before_cons (c : Cursor) (t : Token) (u : List Token) :
    (c.before (t :: u)).advance = c.before u := by
  cases u <;> rfl

theorem before_append (c : Cursor) (u v : List Token) :
    c.before (u ++ v) = (c.before v).before u := by
  cases u with
  | nil => rfl
  | cons t u =>
    show (⟨t, u ++ v ++ c.tokens⟩ : Cursor) = ⟨t, u ++ (c.before v).tokens⟩
    rw [tokens_before, List.append_assoc]

theorem mark_current (c : Cursor) : c.current.mark = lookahead c.tokens := rfl

end Cursor

/-! ## Outcomes of steps -/

/-- The report of a rule that has consumed `n` tokens, `last` of them in its last step. -/
def running (last n : Nat) : Report Failure Tree := { lastStep := last, consumed := n }

/-- The step consumes `n` tokens in all, up to `c`, and builds `t`. -/
def Yields (s : Step) (n : Nat) (t : Tree) (c : Cursor) : Prop :=
  ∃ last, s = .ok ({ node := some t, lastStep := last, consumed := n }, c)

/-- The step consumes `n` tokens in all and fails at the current token of `c`. -/
def FailsAt (s : Step) (n : Nat) (e : Expectation) (c : Cursor) : Prop :=
  ∃ start stop last, c.current.span.ends? = some (start, stop) ∧
    s = .ok ({ error := some ⟨e, start, stop⟩, lastStep := last, consumed := n }, c)

theorem failsAt_fail {last n : Nat} {c : Cursor} {e : Expectation} (h : c.current.Located) :
    FailsAt (fail (running last n) c e) n e c := by
  obtain ⟨⟨start, stop⟩, h⟩ := h
  exact ⟨start, stop, last, h, by simp [fail, h, Report.fail, running]⟩

section

variable {inner : Step} {last n k : Nat} {t : Tree} {c : Cursor} {e : Expectation}
  {next : Report Failure Tree → Cursor → Tree → Step}

/-- A rule goes on with the tree that an inner rule yields. -/
theorem Yields.andThen (h : Yields inner k t c) :
    Grammar.andThen (running last n) inner next = next (running k (n + k)) c t := by
  obtain ⟨l, rfl⟩ := h
  rfl

/-- A rule fails where an inner rule fails. -/
theorem FailsAt.andThen (h : FailsAt inner k e c) :
    FailsAt (Grammar.andThen (running last n) inner next) (n + k) e c := by
  obtain ⟨start, stop, l, hs, rfl⟩ := h
  exact ⟨start, stop, k, hs, rfl⟩

theorem Yields.orExpect (h : Yields inner k t c) {e : Expectation} :
    Yields (Grammar.orExpect .empty inner e) k t c := by
  obtain ⟨l, rfl⟩ := h
  exact ⟨k, by simp [Grammar.orExpect, Report.register, Report.empty, succeed, Report.succeed]⟩

/-- The error of an inner rule that consumed something stands. -/
theorem FailsAt.orExpect (h : FailsAt inner (k + 1) e c) {e' : Expectation} :
    FailsAt (Grammar.orExpect .empty inner e') (k + 1) e c := by
  obtain ⟨start, stop, l, hs, rfl⟩ := h
  refine ⟨start, stop, k + 1, hs, ?_⟩
  simp [Grammar.orExpect, Report.register, Report.empty, fail, hs, Report.fail]

/-- That of an inner rule that consumed nothing gives way. -/
theorem FailsAt.orExpect_zero (h : FailsAt inner 0 e c) {e' : Expectation} :
    FailsAt (Grammar.orExpect .empty inner e') 0 e' c := by
  obtain ⟨start, stop, l, hs, rfl⟩ := h
  refine ⟨start, stop, 0, hs, ?_⟩
  simp [Grammar.orExpect, Report.register, Report.empty, fail, hs, Report.fail]

end

/-! ## Conformance -/

structure Conforms (chosen : Prop) (m : Nat) (is : List Item) (f : Meanings is → Tree)
    (g : Report Failure Tree → Cursor → Step) : Prop where
  yields : ∀ (d : Derivation is) (last n : Nat) (c : Cursor), d.tokens.length < m →
    d.Greedy c.tokens →
    Yields (g (running last n) (c.before d.tokens)) (n + d.tokens.length) (f d.meanings) c
  fails : ∀ (u : List Token) (e : Expectation) (last n : Nat) (c : Cursor), u.length < m →
    Breaks is u c.current e → (chosen → u ≠ []) → c.current.Located →
    FailsAt (g (running last n) (c.before u)) (n + u.length) e c

/-- The same of a rule, which starts with an empty report. -/
structure Parses (m : Nat) (r : Rule) (g : Cursor → Step) : Prop where
  yields : ∀ (d : Derivation [.rule r]) (c : Cursor), d.tokens.length < m → d.Greedy c.tokens →
    Yields (g (c.before d.tokens)) d.tokens.length d.tree c
  fails : ∀ (u : List Token) (e : Expectation) (c : Cursor), u.length < m →
    Breaks [.rule r] u c.current e → c.current.Located →
    FailsAt (g (c.before u)) u.length e c

/-- The same of a production of a rule, chosen by its first token. -/
structure Produces (m : Nat) {r : Rule} (q : Production (.rule r)) (g : Cursor → Step) :
    Prop where
  yields : ∀ (d : Derivation q.items) (c : Cursor), d.tokens.length < m → d.Greedy c.tokens →
    Yields (g (c.before d.tokens)) d.tokens.length (q.build d.meanings) c
  fails : ∀ (u : List Token) (e : Expectation) (c : Cursor), u.length < m → u ≠ [] →
    Breaks q.items u c.current e → c.current.Located → FailsAt (g (c.before u)) u.length e c

section

variable {m : Nat} {is : List Item}

theorem Conforms.imp {chosen chosen' : Prop} {f : Meanings is → Tree}
    {g : Report Failure Tree → Cursor → Step} (h : Conforms chosen m is f g)
    (hc : chosen → chosen') : Conforms chosen' m is f g :=
  ⟨h.yields, fun u e last n c hu hb hne => h.fails u e last n c hu hb (hne ∘ hc)⟩

/-- Of fewer than no tokens nothing is said. -/
theorem conforms_zero {chosen : Prop} {f : Meanings is → Tree}
    {g : Report Failure Tree → Cursor → Step} : Conforms chosen 0 is f g :=
  ⟨fun _ _ _ _ h => absurd h (Nat.not_lt_zero _), fun _ _ _ _ _ h => absurd h (Nat.not_lt_zero _)⟩

theorem Conforms.produces {r : Rule} {q : Production (.rule r)}
    {g : Report Failure Tree → Cursor → Step} (h : Conforms True m q.items q.build g) :
    Produces m q (g .empty) where
  yields d c hd hg := by
    have hi := h.yields d 0 0 c hd hg
    rw [Nat.zero_add] at hi
    exact hi
  fails u e c hu hne hb hl := by
    have hi := h.fails u e 0 0 c hu hb (fun _ => hne) hl
    rw [Nat.zero_add] at hi
    exact hi

/-- The errors of a production that was chosen stand, also if its rule has one of its own. -/
theorem Produces.orExpect {r : Rule} {q : Production (.rule r)} {g : Cursor → Step}
    {e : Expectation} (h : Produces m q g) : Produces m q fun c => orExpect .empty (g c) e where
  yields d c hd hg := (h.yields d c hd hg).orExpect
  fails u e' c hu hne hb hl := by
    have hi := h.fails u e' c hu hne hb hl
    cases u with
    | nil => exact absurd rfl hne
    | cons t u => exact hi.orExpect

theorem Conforms.mono {chosen : Prop} {m' : Nat} {f : Meanings is → Tree}
    {g : Report Failure Tree → Cursor → Step} (h : Conforms chosen m is f g) (hm : m' ≤ m) :
    Conforms chosen m' is f g :=
  ⟨fun d last n c hd => h.yields d last n c (by omega),
    fun u e last n c hu => h.fails u e last n c (by omega)⟩

theorem Parses.mono {m' : Nat} {r : Rule} {g : Cursor → Step} (h : Parses m r g) (hm : m' ≤ m) :
    Parses m' r g :=
  ⟨fun d c hd => h.yields d c (by omega), fun u e c hu => h.fails u e c (by omega)⟩

/-- Nothing is left to read. -/
theorem conforms_nil {chosen : Prop} {f : Meanings [] → Tree} :
    Conforms chosen m [] f fun r c => succeed r c (f ()) where
  yields d last n c _ _ := by cases d; exact ⟨last, rfl⟩
  fails u e last n c _ hb := by cases hb

/-- A token is tested, and consumed if it is admitted. -/
theorem conforms_expect {chosen : Prop} {k : Terminal} {f : Meanings (.token k :: is) → Tree}
    {ok : Token → Bool} {next : Cursor → Report Failure Tree → Cursor → Step}
    (hok : ∀ t, ok t = k.admits t.mark)
    (h : ∀ c, Conforms False (m - 1) is (fun x => f (c.current, x)) (next c)) :
    Conforms chosen m (.token k :: is) f fun r c => expect r c ok k.expectation (next c) where
  yields d last n c hd hg := by
    cases d with
    | token t ht rest =>
      simp only [Derivation.tokens_token, List.length_cons] at hd ⊢
      have hr := (h (c.before (t :: rest.tokens))).yields rest 1 (n + 1) c (by omega) hg
      rw [Nat.add_right_comm, Nat.add_assoc] at hr
      simp only [expect, Cursor.current_before_cons, hok, ht, if_true, Cursor.advance_before_cons]
      exact hr
  fails u e last n c hu hb _ hl := by
    cases hb with
    | token hk =>
      simp only [expect, Cursor.before_nil, hok, hk]
      exact failsAt_fail hl
    | @afterToken _ _ t _ u _ hk hb =>
      simp only [List.length_cons] at hu ⊢
      have hr := (h (c.before (t :: u))).fails u e 1 (n + 1) c (by omega) hb False.elim hl
      rw [Nat.add_right_comm, Nat.add_assoc] at hr
      simp only [expect, Cursor.current_before_cons, hok, hk, if_true, Cursor.advance_before_cons]
      exact hr

/-- A token that was looked at before is consumed. -/
theorem conforms_advance {chosen : Prop} (hc : chosen) {k : Terminal}
    {f : Meanings (.token k :: is) → Tree} (next : Cursor → Report Failure Tree → Cursor → Step)
    (h : ∀ c, Conforms False (m - 1) is (fun x => f (c.current, x)) (next c)) :
    Conforms chosen m (.token k :: is) f fun r c => next c r.advance c.advance where
  yields d last n c hd hg := by
    cases d with
    | token t ht rest =>
      simp only [Derivation.tokens_token, List.length_cons] at hd ⊢
      have hr := (h (c.before (t :: rest.tokens))).yields rest 1 (n + 1) c (by omega) hg
      rw [Nat.add_right_comm, Nat.add_assoc] at hr
      simp only [Cursor.advance_before_cons]
      exact hr
  fails u e last n c hu hb hne hl := by
    cases hb with
    | token hk => exact absurd rfl (hne hc)
    | @afterToken _ _ t _ u _ hk hb =>
      simp only [List.length_cons] at hu ⊢
      have hr := (h (c.before (t :: u))).fails u e 1 (n + 1) c (by omega) hb False.elim hl
      rw [Nat.add_right_comm, Nat.add_assoc] at hr
      simp only [Cursor.advance_before_cons]
      exact hr

/-- An inner rule answers first. -/
theorem conforms_rule {chosen : Prop} {r : Rule} {f : Meanings (.rule r :: is) → Tree}
    {g : Cursor → Step} {next : Tree → Report Failure Tree → Cursor → Step} (hg : Parses m r g)
    (h : ∀ t, Conforms False (m - 1) is (fun x => f (t, x)) (next t)) :
    Conforms chosen m (.rule r :: is) f fun rep c => andThen rep (g c) fun rep c t => next t rep c
    where
  yields d last n c hd hgr := by
    cases d with
    | phrase q inner rest =>
      simp only [Derivation.tokens_phrase, List.length_append] at hd ⊢
      have hpos := List.length_pos_iff.2 (Derivation.phrase q inner .nil).rule_tokens_ne_nil
      simp only [Derivation.tokens_phrase, Derivation.tokens_nil, List.append_nil] at hpos
      have hi := hg.yields (.phrase q inner .nil) (c.before rest.tokens)
        (by simp; omega) (by simpa [Derivation.Greedy] using ⟨hgr.1, hgr.2.1⟩)
      simp only [Derivation.tokens_phrase, Derivation.tokens_nil, List.append_nil,
        ← Cursor.before_append] at hi
      rw [hi.andThen, ← Nat.add_assoc]
      exact (h _).yields rest _ _ c (by omega) hgr.2.2
  fails u e last n c hu hb _ hl := by
    cases hb with
    | start hp => exact (hg.fails [] _ c hu (.start hp) hl).andThen
    | inside hq hb => exact (hg.fails u _ c hu (.inside hq hb) hl).andThen
    | @afterPhrase _ _ _ u _ d hd hb =>
      rw [List.length_append] at hu
      have hpos := List.length_pos_iff.2 d.rule_tokens_ne_nil
      have hi := hg.yields d (c.before u) (by omega)
        (by rw [Cursor.tokens_before]; exact hd.of_append_cons c.rest)
      rw [Cursor.before_append, hi.andThen, List.length_append, ← Nat.add_assoc]
      exact (h _).fails u e _ _ c (by omega) hb False.elim hl

/-- A part is read by the production that the next token calls for, and so is what follows. -/
theorem conforms_part {chosen : Prop} {o : Part} {f : Meanings (.part o :: is) → Tree}
    {g : Report Failure Tree → Cursor → Step}
    (G : Production (.part o) → Report Failure Tree → Cursor → Step)
    (hG : ∀ q, Conforms (q.items ≠ []) m (q.items ++ is)
      (fun x => f (q.build (x.split q.items).1, (x.split q.items).2)) (G q))
    (hg : ∀ r c q, predict (.part o) c.current.mark = some q → g r c = G q r c) :
    Conforms chosen m (.part o :: is) f g where
  yields d last n c hd hgr := by
    cases d with
    | phrase q inner rest =>
      obtain ⟨hq, hi, hr⟩ := hgr
      have hp := predict_of_fits inner hq
      have hy := (hG q).yields (inner.append rest) last n c
      rw [Derivation.split_meanings, Derivation.tokens_append] at hy
      simp only [Derivation.tokens_phrase] at hd ⊢
      rw [hg _ _ q (by rw [Cursor.mark_current, Cursor.tokens_before, List.append_assoc]; exact hp)]
      exact hy hd (Derivation.greedy_append hi hr)
  fails u e last n c hu hb _ hl := by
    have hp : ∀ {q u}, predict (.part o) (lookahead (u ++ [c.current])) = some q →
        predict (.part o) (c.before u).current.mark = some q := by
      intro q u hq
      rw [Cursor.mark_current, Cursor.tokens_before]
      cases u <;> exact hq
    cases hb with
    | @inside _ _ _ _ _ q hq hb =>
      rw [hg _ _ q (hp hq)]
      exact (hG q).fails u e last n c hu (hb.weaken is) (fun _ => hb.ne_nil rfl hq) hl
    | @afterPhrase _ _ _ u _ d hd hb =>
      cases d with
      | phrase q inner none =>
        cases none
        obtain ⟨hq, hi, -⟩ := hd
        have hp' := predict_of_fits inner hq
        have htokens : (Derivation.phrase q inner .nil).tokens = inner.tokens := List.append_nil _
        rw [htokens] at hu ⊢
        rw [hg _ _ q (hp (by rw [List.append_assoc]; exact hp'))]
        refine (hG q).fails _ e last n c hu (hb.after hi) (fun hne => ?_) hl
        obtain ⟨t, w, ht, _⟩ := inner.first rfl hne
        simp [ht]

/-- A rule is read by the production that the next token calls for; where there is none it fails
at once. -/
theorem parses_of_productions {r : Rule} {g : Cursor → Step}
    (G : Production (.rule r) → Cursor → Step) (hG : ∀ q, Produces m q (G q))
    (hg : ∀ c q, predict (.rule r) c.current.mark = some q → g c = G q c)
    (hn : ∀ c, predict (.rule r) c.current.mark = none → c.current.Located → 0 < m →
      FailsAt (g c) 0 r.expectation c) : Parses m r g where
  yields d c hd hgr := by
    cases d with
    | phrase q inner none =>
      cases none
      have hp := predict_of_fits inner hgr.1
      simp only [Derivation.tokens_phrase, Derivation.tokens_nil, List.append_nil] at hd ⊢
      rw [hg _ q (by rw [Cursor.mark_current, Cursor.tokens_before]; exact hp)]
      exact (hG q).yields inner c hd hgr.2.1
  fails u e c hu hb hl := by
    cases hb with
    | start hp => exact hn c hp hl hu
    | @inside _ _ _ _ _ q hq hb =>
      have hp : predict (.rule r) (c.before u).current.mark = some q := by
        rw [Cursor.mark_current, Cursor.tokens_before]
        cases u <;> exact hq
      rw [hg _ q hp]
      exact (hG q).fails u e c hu (hb.ne_nil rfl hq) hb hl
    | afterPhrase _ hb => cases hb

/-- A rule with one production reads its items. -/
theorem parses_of_production {r : Rule} (q : Production (.rule r))
    {g : Report Failure Tree → Cursor → Step} (hq : ∀ q' : Production (.rule r), q' = q)
    (h : Conforms False m q.items q.build g)
    (hn : ∀ bad : Token, predict (.rule r) bad.mark = none → Breaks q.items [] bad r.expectation) :
    Parses m r (g .empty) := by
  refine parses_of_productions (fun _ => g .empty) (fun q' => ?_) (fun _ _ _ => rfl)
    (fun c hp hl hpos => ?_)
  · rw [hq q']
    exact (h.imp False.elim).produces
  · exact h.fails [] _ 0 0 c hpos (hn c.current hp) False.elim hl

end

end Grammar

end Reckoner
