import Reckoner.Proofs.Evaluation.Simulation
import Reckoner.Proofs.Session

/-!
# Evaluation under a budget and without one

A budget decides only where an evaluation is stopped. One that counts no more passes than the
budget allows comes to the same end as without it; any other is stopped at the first pass over
the budget, with a diagnostic about the loop that makes it (`Session.execute_budget`). The two runs
are kept side by side by a tie in which the one with the budget may stop only where the other
one counts too many passes.
-/

set_option autoImplicit false

namespace Reckoner

open Grammar

/-- Some loop of the tree reaches from `start` to `stop`. -/
def Tree.HasLoopAt (t : Tree) (start stop : Position) : Prop :=
  ∃ loop ∈ t.nodes, loop.IsLoop ∧ loop.ends? = .ok (start, stop)

namespace Eval

/-- The run under a budget of `n` passes goes with the one without until it exceeds the budget,
which the other one then does too. -/
def budgetTie (n : Int) (root : Tree) : Tie where
  states s s' := s = s' ∧ s.steps ≤ n.toNat
  exits s' :=
    { diagnosed := fun d s => n.toNat < s'.steps ∧ d.kind = .stepLimit ∧
        root.HasLoopAt d.start d.stop ∧ s.steps = n.toNat + 1
      faulted := fun _ _ => n.toNat < s'.steps ∧ Number.tooLong n = true
      unfinished := fun _ => True }

variable {n : Int} {root : Tree} {set set' : Settings}

/-- The exits only get wider as passes are counted. -/
theorem budgetTie_within {s s' : State} (h : s.steps ≤ s'.steps) :
    ((budgetTie n root).exits s).Within ((budgetTie n root).exits s') where
  diagnosed _ _ hd := ⟨Nat.lt_of_lt_of_le hd.1 h, hd.2⟩
  faulted _ _ hf := ⟨Nat.lt_of_lt_of_le hf.1 h, hf.2⟩
  unfinished _ hu := hu

theorem budgetTie_tick (hb : set.budget = .passes n) (hb' : set'.budget = .unlimited)
    {t : Tree} (ht : t ∈ root.nodes) (hl : t.IsLoop) (hr : t.Regular Token.Located) :
    (budgetTie n root).Follows (tick set t) (tick set' t) := by
  obtain ⟨p, q, hspan⟩ := hr.span fun _ => id
  obtain ⟨⟨start, stop⟩, hends⟩ := hr.ends fun _ => id
  refine ⟨?_, fun s' => ?_⟩
  · rintro s _ ⟨rfl, hs⟩
    rw [tick_unlimited hb']
    rcases Nat.lt_or_ge s.steps n.toNat with h | h
    · rw [tick_within hb t h]
      exact .inl ⟨rfl, rfl, h⟩
    · have hover : n.toNat < s.counted.steps := Nat.lt_succ_of_le h
      have hsteps : s.counted.steps = n.toNat + 1 :=
        congrArg (· + 1) (Nat.le_antisymm hs h)
      right
      rw [tick_beyond hb hspan hends h]
      cases hlong : Number.tooLong n with
      | false =>
        rw [Number.text?_int hlong]
        exact ⟨hover, rfl, ⟨t, ht, hl, hends⟩, hsteps⟩
      | true =>
        rw [Number.text?_tooLong hlong]
        exact ⟨hover, hlong⟩
  · rw [tick_unlimited hb']
    exact budgetTie_within (Nat.le_succ _)

theorem budgetTie_evaluates (hq : set.verbosity = 0) (hq' : set'.verbosity = 0)
    (hf : set.frames = set'.frames) (hb : set.budget = .passes n)
    (hb' : set'.budget = .unlimited) (hp : n.toNat + 2 ≤ set'.patience)
    (hr : root.Regular Token.Located) : (budgetTie n root).Evaluates set set' root where
  frames := hf
  passes := by simpa only [Settings.passes, hb, hb'] using hp
  givenUp _ _ _ _ := trivial
  look t _ := by
    rintro s _ ⟨rfl, -⟩
    rfl
  assign name v := by
    refine ⟨?_, fun s' => budgetTie_within (Nat.le_refl _)⟩
    rintro s _ ⟨rfl, hs⟩
    exact .inl ⟨rfl, rfl, hs⟩
  note level text hl := by
    rw [note_quiet hq hl, note_quiet hq' hl]
    exact .pure ()
  tick t ht hl := budgetTie_tick hb hb' ht hl (hr.nodes t ht)

/-- An evaluation under a budget comes to an end, whether its limit can be told or not. -/
theorem execute_ne_unfinished (hb : set.budget = .passes n) (hr : root.Regular Token.Located)
    (s : State) : (execute set root s).1 ≠ .unfinished := by
  have h := execute_counts hb (fun _ => id) hr s
  unfold Ends at h
  generalize execute set root s = x at h ⊢
  rcases x with ⟨a | d | f | _, s'⟩
  · nofun
  · nofun
  · nofun
  · exact h.elim

/-- Under the budget an evaluation comes to the same as without it, within the budget, or it is
stopped at the budget, which is exceeded without it. -/
theorem execute_budget_cases (hq : set.verbosity = 0) (hq' : set'.verbosity = 0)
    (hf : set.frames = set'.frames) (hb : set.budget = .passes n)
    (hb' : set'.budget = .unlimited) (hp : n.toNat + 2 ≤ set'.patience)
    (hr : root.Regular Token.Located) (s : State) :
    (execute set root s = execute set' root s ∧ (execute set' root s).2.steps ≤ n.toNat) ∨
      (n.toNat < (execute set' root s).2.steps ∧
        ((∃ d, (execute set root s).1 = .diagnosed d ∧ d.kind = .stepLimit ∧
            root.HasLoopAt d.start d.stop ∧ (execute set root s).2.steps = n.toNat + 1) ∨
          ((∃ f, (execute set root s).1 = .faulted f) ∧ Number.tooLong n = true))) := by
  have hfollows := (budgetTie_evaluates hq hq' hf hb hb' hp hr).tree root (fun _ h => h)
  have hagree := hfollows.agrees { s with steps := 0 } _ ⟨rfl, Nat.zero_le _⟩
  have hend := execute_ne_unfinished hb hr s
  rw [← execute_quiet hq, ← execute_quiet hq'] at hagree
  generalize execute set root s = x at hagree hend ⊢
  generalize execute set' root s = x' at hagree ⊢
  rcases hagree with ⟨ho, hs, hle⟩ | hstop
  · exact .inl ⟨Prod.ext ho hs, hs ▸ hle⟩
  · right
    rcases x with ⟨v | d | f | _, s₁⟩
    · exact hstop.elim
    · exact ⟨hstop.1, .inl ⟨d, rfl, hstop.2⟩⟩
    · exact ⟨hstop.1, .inr ⟨⟨f, rfl⟩, hstop.2⟩⟩
    · exact absurd rfl hend

end Eval

/-! ## Sessions -/

namespace Session

/-- The session with another budget. -/
def withBudget (s : Session) (b : Budget) : Session := { s with budget := b }

variable {s : Session} {t : Tree}

theorem alike_execute {s' : Session} {p p' : Nat}
    (h : Eval.execute (s.settings p) t s.start = Eval.execute (s'.settings p') t s'.start) :
    Alike (s.execute p t) (s'.execute p' t) := by
  rw [execute, execute, perform_eq, perform_eq]
  exact ⟨congrArg (·.1) h, congrArg (·.2.environment) h, congrArg (·.2.steps) h⟩

/-- An evaluation that is not given up is the same under any greater patience. -/
theorem execute_patience {p p' : Nat} (h : p ≤ p')
    (hend : (s.execute p t).1.outcome ≠ .unfinished) :
    Alike (s.execute p' t) (s.execute p t) := by
  have hp : (s.settings p).patience ≤ p' := h
  exact alike_execute ((settles_execute hp t s.start).resolve_left hend)

theorem execute_limited_cases (hv : s.verbosity = 0) (hr : t.Regular Token.Located) (n : Int)
    (q : Nat) {p : Nat} (hp : n.toNat + 2 ≤ p) :
    let free := (s.withBudget .unlimited).execute p t
    let limited := (s.withBudget (.passes n)).execute q t
    (Alike limited free ∧ free.2.steps ≤ n.toNat) ∨ (n.toNat < free.2.steps ∧
      ((∃ d, limited.1.outcome = .diagnosed d ∧ d.kind = .stepLimit ∧
          t.HasLoopAt d.start d.stop ∧ limited.2.steps = n.toNat + 1) ∨
        ((∃ f, limited.1.outcome = .faulted f) ∧ Number.tooLong n = true))) := by
  have hq : ((s.withBudget (.passes n)).settings q).verbosity = 0 := hv
  have hq' : ((s.withBudget .unlimited).settings p).verbosity = 0 := hv
  rcases Eval.execute_budget_cases hq hq' rfl rfl rfl hp hr s.start with h | h
  · exact .inl ⟨alike_execute h.1, h.2⟩
  · exact .inr h

/-- Without a budget, let an evaluation of a tree that parsing gives come to an end after `k`
passes. It comes to the same under every budget of `k` passes or more; under any smaller one it
ends with a diagnostic for that, about some loop of the tree, at the first pass over the budget.
And any value or other diagnostic under a budget is what the evaluation comes to without one. -/
theorem execute_budget {ts : List Token} (h : Closed ts) (ht : Source.treeOfTokens ts = .ok t)
    (hv : s.verbosity = 0) :
    let free := (s.withBudget .unlimited).execute
    let limited n := (s.withBudget (.passes n)).execute
    (∀ p, (free p t).1.outcome ≠ .unfinished → ∀ n q,
      (((free p t).2.steps : Int) ≤ n → Alike (limited n q t) (free p t)) ∧
      (0 ≤ n → n < (free p t).2.steps → Number.tooLong n = false →
        ∃ d, (limited n q t).1.outcome = .diagnosed d ∧ d.kind = .stepLimit ∧
          t.HasLoopAt d.start d.stop ∧ ((limited n q t).2.steps : Int) = n + 1)) ∧
    ∀ n q, ((∃ v, (limited n q t).1.outcome = .done v) ∨
        ∃ d, (limited n q t).1.outcome = .diagnosed d ∧ d.kind ≠ .stepLimit) →
      ∃ p₀, ∀ p, p₀ ≤ p → Alike (free p t) (limited n q t) := by
  intro free limited
  have hr : t.Regular Token.Located := h.regular ht h.located
  refine ⟨fun p hend n q => ?_, fun n q hend => ⟨n.toNat + 2, fun p hp => ?_⟩⟩
  · have hp : p ≤ max p (n.toNat + 2) := Nat.le_max_left _ _
    have hwait : Alike (free (max p (n.toNat + 2)) t) (free p t) := execute_patience hp hend
    rcases execute_limited_cases hv hr n q (Nat.le_max_right p (n.toNat + 2)) with
      ⟨hsame, hle⟩ | ⟨hlt, hstop⟩
    · have hle : (free p t).2.steps ≤ n.toNat := hwait.steps ▸ hle
      exact ⟨fun _ => hsame.trans hwait, fun h0 hn => by omega⟩
    · have hlt : n.toNat < (free p t).2.steps := hwait.steps ▸ hlt
      refine ⟨fun hn => by omega, fun h0 hn hlong => ?_⟩
      rcases hstop with ⟨d, hd, hk, hloop, hsteps⟩ | ⟨-, hlong'⟩
      · have hsteps : (limited n q t).2.steps = n.toNat + 1 := hsteps
        exact ⟨d, hd, hk, hloop, by omega⟩
      · rw [hlong] at hlong'
        cases hlong'
  · rcases execute_limited_cases hv hr n q hp with ⟨hsame, -⟩ | ⟨-, ⟨d, hd, hk, -⟩ | ⟨⟨f, hf⟩, -⟩⟩
    · exact hsame.symm
    · rcases hend with ⟨v, hv⟩ | ⟨d', hd', hk'⟩
      · cases hv.symm.trans hd
      · cases hd'.symm.trans hd
        exact absurd hk hk'
    · rcases hend with ⟨v, hv⟩ | ⟨d', hd', -⟩
      · cases hv.symm.trans hf
      · cases hd'.symm.trans hf

/-- `WHILE a < 1 DO VAR a = 1`, followed by the end. -/
def onePass : List Token :=
  [.keyword .whileWord, .name, .operator .comparison, .number, .keyword .doWord, .keyword .var,
    .name, .assign, .number].map Terminal.sample ++ [sampleEnd]

def onePassTree : Tree :=
  let name := Terminal.name.sample
  let one := Tree.literal Terminal.number.sample
  .whileLoop (.binary (Terminal.operator .comparison).sample (.ident name) one) (.assign name one)

/-- Where `a` is zero the loop makes one pass: under a budget of one it comes to nothing as
without a budget, and none is too few. -/
theorem onePass_budget :
    let s : Session :=
      { environment := ({} : Environment).set "a" (.datum (.number (.int 0)) .unknown) }
    let limited n := (s.withBudget (.passes n)).execute 0 onePassTree
    Alike (limited 1) ((s.withBudget .unlimited).execute 2 onePassTree) ∧
      (limited 1).1.outcome = .done .nothing ∧
      ∃ d, (limited 0).1.outcome = .diagnosed d ∧ d.kind = .stepLimit ∧
        onePassTree.HasLoopAt d.start d.stop ∧ ((limited 0).2.steps : Int) = 1 := by
  intro s
  dsimp only
  have hclosed : Closed onePass := closed_samples _
  have htree : Source.treeOfTokens onePass = .ok onePassTree := rfl
  have hsteps : ((s.withBudget .unlimited).execute 2 onePassTree).2.steps = 1 := rfl
  have hdone : ((s.withBudget .unlimited).execute 2 onePassTree).1.outcome = .done .nothing := rfl
  have hend : ((s.withBudget .unlimited).execute 2 onePassTree).1.outcome ≠ .unfinished := by
    rw [hdone]
    nofun
  have hfree := (execute_budget (s := s) hclosed htree rfl).1 2 hend
  dsimp only at hfree
  have hone := (hfree 1 0).1 (by omega)
  obtain ⟨d, hd, hk, hloop, hzero⟩ :=
    (hfree 0 0).2 (by omega) (by omega) (tooLong_eq_false (by decide))
  exact ⟨hone, hone.outcome.trans hdone, d, hd, hk, hloop, hzero.trans (Int.zero_add 1)⟩

end Session

end Reckoner
