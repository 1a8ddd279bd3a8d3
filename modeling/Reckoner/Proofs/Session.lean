import Reckoner.Proofs.Evaluation.Patience
import Reckoner.Proofs.Evaluation.Safety
import Reckoner.Proofs.Evaluation.Steps

/-!
# Sessions are safe and bounded

A run of a text in a session comes to a value or a diagnostic, and leaves a numeric environment
numeric. Once it ends, it does not depend on patience (`run_patience`). Under a budget every
evaluation comes to an end, and the passes counted tell whether it ended at the budget.
-/

set_option autoImplicit false

namespace Reckoner

open Grammar

/-! ## Whole evaluations -/

namespace Eval

variable {set : Settings} {t : Tree}

theorem note_quiet (h : set.verbosity = 0) {level : Nat} (hl : 0 < level)
    (text : Unit → Option String) : note set level text = pure () := by
  unfold note
  rw [if_neg (by omega)]

/-- Without a trace, an evaluation differs from that of the tree in the steps it starts with. -/
theorem execute_quiet (h : set.verbosity = 0) (s : State) :
    execute set t s = t.evaluate set { s with steps := 0 } := by
  unfold execute
  generalize t.evaluate set { s with steps := 0 } = x
  rcases x with ⟨v | d | f | _, s'⟩ <;> simp only [note_quiet h Nat.one_pos] <;> rfl

theorem execute_safe (hset : set.Plain) (ht : t.Regular Token.Sound) :
    (execute set t).Safe Value.Numeric := by
  intro s hs
  unfold Ends
  rw [execute_quiet hset.quiet]
  exact ht.safe hset { s with steps := 0 } hs

/-- Under a budget an evaluation comes to an end, and exceeds it by one pass at most. -/
theorem execute_counts {n : Int} (hb : set.budget = .passes n) {P : Token → Prop}
    (hP : ∀ t, P t → t.Located) (ht : t.Regular P) (s : State) :
    (execute set t).Ends (countedExits n.toNat (Number.tooLong n)) s fun _ s' =>
      s'.steps ≤ n.toNat := by
  have h := ht.counts hb hP 0 { s with steps := 0 } ⟨Nat.le_refl _, Nat.zero_le _⟩
  refine h.execute (fun text v s' hs => ?_) fun line d s' hd => ?_
  · exact (Counts.note set 1 text 0 s' ⟨Nat.zero_le _, hs.2.2⟩).mono fun _ _ h => h.2.2
  · unfold note
    split
    · exact hd
    · exact hd

theorem execute_ends {n : Int} (hb : set.budget = .passes n) (hn : Number.tooLong n = false)
    {P : Token → Prop} (hP : ∀ t, P t → t.Located) (ht : t.Regular P) (s : State) :
    (execute set t).Ends (countedExits n.toNat) s fun _ s' => s'.steps ≤ n.toNat := by
  have h := execute_counts hb hP ht s
  rwa [hn] at h

end Eval

/-- Without a trace, a text has an integer that cannot be read, or it is diagnosed before it is
evaluated, or it has a regular tree and the run is an evaluation of that. -/
theorem Eval.run_outcomes {set : Settings} (h : set.verbosity = 0) (file text : String) :
    (scan file text = .error .oversizedInteger ∧
        Eval.run set file text = faulted .oversizedInteger) ∨
      (∃ d, Eval.run set file text = diagnosed d) ∨
      ∃ t : Tree, t.Regular Token.Sound ∧ Eval.run set file text = execute set t := by
  have hrefuse : ∀ (stage : String) (e : Source.Refusal) (d : Diagnostic),
      e.diagnostic? = some d → refuse set file stage e = diagnosed d := by
    intro stage e d hd
    simp only [refuse, hd, note_quiet h Nat.one_pos]
    rfl
  unfold run
  cases hscan : scan file text with
  | error e =>
    have htokens : Source.tokens file text = .error (.scan e) := by rw [Source.tokens, hscan]; rfl
    simp only [htokens]
    cases e with
    | illegalCharacter c start stop => exact .inr (.inl ⟨_, hrefuse _ _ _ rfl⟩)
    | expectedEquals start stop => exact .inr (.inl ⟨_, hrefuse _ _ _ rfl⟩)
    | oversizedInteger => exact .inl ⟨rfl, rfl⟩
  | ok tokens =>
    have htokens : Source.tokens file text = .ok tokens := by rw [Source.tokens, hscan]; rfl
    have hsound : ∀ x ∈ tokens, x.Sound := fun x hx =>
      ⟨(scan_closed hscan).located x hx, scan_proper hscan x hx⟩
    rcases (scan_closed hscan).regular_or_refused hsound with ⟨t, htree, hreg⟩ | ⟨e, htree⟩
    · refine .inr (.inr ⟨t, hreg, ?_⟩)
      simp only [htokens, htree, note_quiet h Nat.one_pos]
      rfl
    · refine .inr (.inl ⟨e.diagnostic, ?_⟩)
      simp only [htokens, htree, note_quiet h Nat.one_pos]
      exact hrefuse "syntax" (.parse e) _ rfl

theorem Eval.run_cases {set : Settings} (h : set.verbosity = 0) (file : String) {text : String}
    (ht : Scan.Readable text.toList) : (∃ d, Eval.run set file text = diagnosed d) ∨
      ∃ t : Tree, t.Regular Token.Sound ∧ Eval.run set file text = execute set t :=
  (Eval.run_outcomes h file text).resolve_left fun ho => scan_ne_oversized ht ho.1

/-! ## Sessions -/

namespace Session

variable {s : Session}

/-- The state in which a run in the session starts. -/
def start (s : Session) : State := { environment := s.environment, steps := s.steps }

theorem perform_eq (s : Session) (patience : Nat) (m : Settings → Eval Value) :
    s.perform patience m =
      let r := m (s.settings patience) s.start
      (⟨r.1, r.2.trace⟩, { s with environment := r.2.environment, steps := r.2.steps }) := rfl

/-- Two evaluations come to the same, leave the same bindings and count as many passes. -/
structure Alike (r r' : Answer × Session) : Prop where
  outcome : r.1.outcome = r'.1.outcome
  environment : r.2.environment = r'.2.environment
  steps : r.2.steps = r'.2.steps

theorem Alike.symm {r r' : Answer × Session} (h : Alike r r') : Alike r' r :=
  ⟨h.outcome.symm, h.environment.symm, h.steps.symm⟩

theorem Alike.trans {r₁ r₂ r₃ : Answer × Session} (h : Alike r₁ r₂) (h' : Alike r₂ r₃) :
    Alike r₁ r₃ :=
  ⟨h.outcome.trans h'.outcome, h.environment.trans h'.environment, h.steps.trans h'.steps⟩

/-- A run that is not given up has the same answer under any greater patience. -/
theorem run_patience {p p' : Nat} (h : p ≤ p') (file text : String)
    (hend : (s.run p file text).1.outcome ≠ .unfinished) :
    s.run p' file text = s.run p file text := by
  have hp : (s.settings p).patience ≤ p' := h
  have hwait : s.settings p' = (s.settings p).wait p' := rfl
  rw [run, perform_eq] at hend
  rw [run, run, perform_eq, perform_eq, hwait]
  rcases settles_run hp file text s.start with hu | he
  · exact absurd hu hend
  · rw [he]

/-- A run of a text whose integers can be read ends with a number, with nothing or with a
diagnostic, unless it has no budget and does not end, and a numeric environment stays so. -/
theorem run_safe (hv : s.verbosity = 0) (hb : s.budget.Writable)
    (he : s.environment.Numeric) (patience : Nat) (file text : String)
    (ht : Scan.Readable text.toList) :
    (s.run patience file text).2.environment.Numeric ∧
      ((∃ v, (s.run patience file text).1.outcome = .done v ∧ v.Numeric) ∨
        (∃ d, (s.run patience file text).1.outcome = .diagnosed d) ∨
        ((s.run patience file text).1.outcome = .unfinished ∧ s.budget = .unlimited)) := by
  have hset : (s.settings patience).Plain := ⟨hv, hb⟩
  rw [run, perform_eq]
  rcases Eval.run_cases hset.quiet file ht with ⟨d, hd⟩ | ⟨t, hreg, htree⟩
  · rw [hd]
    exact ⟨he, .inr (.inl ⟨d, rfl⟩)⟩
  · rw [htree]
    obtain ⟨henv, hend⟩ := (Eval.execute_safe hset hreg).outcome (s := s.start) he
    refine ⟨henv, hend.imp id (Or.imp id fun hu => ⟨hu, ?_⟩)⟩
    cases hbudget : s.budget with
    | unlimited => rfl
    | passes n =>
      rw [hbudget] at hb
      have hpasses : (s.settings patience).budget = .passes n := hbudget
      have hends := Eval.execute_ends hpasses hb (fun _ => And.left) hreg s.start
      exact absurd hu hends.steps.1
    | void => rw [hbudget] at hb; exact hb.elim

theorem tooLong_eq_false {n : Int} (h : n.natAbs < 10) : Number.tooLong n = false := by
  have h0 : Int.toNat Number.digitLimit ≠ 0 := by decide
  rw [Number.tooLong, decide_eq_false_iff_not, powTen, Nat.pow_eq]
  generalize Int.toNat Number.digitLimit = k at h0 ⊢
  have hp : 10 ≤ 10 ^ k := Nat.le_self_pow h0 10
  omega

/-- An endless loop in which an unbound name is squared: the first pass ends with a diagnostic for
that name, and nothing is bound. -/
theorem run_safe_endless :
    let r := Session.run { budget := .passes 9 } 0 "<stdin>" "WHILE 1 DO VAR a = (a ^ 2) / 0"
    r.2.environment.Numeric ∧ r.2.steps = 1 ∧
      ∃ d, r.1.outcome = .diagnosed d ∧ d.kind = .undefinedVariable ∧ d.start.index = 20 := by
  have hfirst : ∃ d, (Session.run { budget := .passes 9 } 0 "<stdin>"
      "WHILE 1 DO VAR a = (a ^ 2) / 0").1.outcome = .diagnosed d ∧ d.kind = .undefinedVariable ∧
        d.start.index = 20 := ⟨_, rfl, rfl, rfl⟩
  obtain ⟨d, hd, hkind, hstart⟩ := hfirst
  obtain ⟨henv, ⟨v, hv, -⟩ | ⟨d', hd'⟩ | ⟨-, hbudget⟩⟩ := run_safe (s := { budget := .passes 9 })
    rfl (tooLong_eq_false (by decide)) Environment.numeric_empty 0 "<stdin>"
    "WHILE 1 DO VAR a = (a ^ 2) / 0" (Scan.readable_of_length (by decide))
  · cases hd.symm.trans hv
  · cases hd.symm.trans hd'
    exact ⟨henv, rfl, d, hd, hkind, hstart⟩
  · cases hbudget

/-- Under a budget every tree that parsing gives is evaluated to an end. At most one pass over
the budget is counted, and it is counted exactly if the limit is what the user is told. From
scanned tokens and a numeric environment no fault arises. -/
theorem execute_within_budget {ts : List Token} (h : Closed ts) {t : Tree}
    (ht : Source.treeOfTokens ts = .ok t) {n : Int} (hb : s.budget = .passes n) (h0 : 0 ≤ n)
    (hn : Number.tooLong n = false) (patience : Nat) :
    (s.execute patience t).1.outcome ≠ .unfinished ∧
      ((s.execute patience t).2.steps : Int) ≤ n + 1 ∧
      (((s.execute patience t).2.steps : Int) = n + 1 ↔
        ∃ d, (s.execute patience t).1.outcome = .diagnosed d ∧ d.kind = .stepLimit) ∧
      (s.verbosity = 0 → s.environment.Numeric → (∀ x ∈ ts, x.Proper) →
        ∀ f, (s.execute patience t).1.outcome ≠ .faulted f) := by
  have regular : ∀ {P : Token → Prop}, (∀ x ∈ ts, P x) → t.Regular P := by
    intro P hP
    rcases h.regular_or_refused hP with ⟨t', ht', hreg⟩ | ⟨e, he⟩
    · rw [ht] at ht'
      cases ht'
      exact hreg
    · rw [ht] at he
      cases he
  have hpasses : (s.settings patience).budget = .passes n := hb
  obtain ⟨hfinished, hle, hiff⟩ :=
    (Eval.execute_ends hpasses hn (fun _ => id) (regular h.located) s.start).steps
  rw [execute, perform_eq]
  refine ⟨hfinished, ?_, ?_, fun hv he hproper f hf => ?_⟩
  · show ((Eval.execute (s.settings patience) t s.start).2.steps : Int) ≤ n + 1
    omega
  · refine Iff.trans ?_ hiff
    show ((Eval.execute (s.settings patience) t s.start).2.steps : Int) = n + 1 ↔ _
    omega
  · have hsound : ∀ x ∈ ts, x.Sound := fun x hx => ⟨h.located x hx, hproper x hx⟩
    have hset : (s.settings patience).Plain := ⟨hv, by show s.budget.Writable; rw [hb]; exact hn⟩
    have hend := ((Eval.execute_safe hset (regular hsound)).outcome (s := s.start) he).2
    have hf : (Eval.execute (s.settings patience) t s.start).1 = .faulted f := hf
    rw [hf] at hend
    rcases hend with ⟨v, hd, -⟩ | ⟨d, hd⟩ | hd <;> cases hd

/-- `WHILE 1 DO 1`, followed by the end. -/
def endless : List Token :=
  [.keyword .whileWord, .number, .keyword .doWord, .number].map Terminal.sample ++ [sampleEnd]

/-- The tenth pass is one too many: it is counted, and the evaluation ends with the limit. -/
theorem endless_within_budget :
    let t := Tree.whileLoop (.literal Terminal.number.sample) (.literal Terminal.number.sample)
    let r := Session.execute { budget := .passes 9 } 0 t
    r.2.steps = 10 ∧ ∃ d, r.1.outcome = .diagnosed d ∧ d.kind = .stepLimit := by
  have hclosed : Closed endless := closed_samples _
  have htree : Source.treeOfTokens endless = .ok
      (.whileLoop (.literal Terminal.number.sample) (.literal Terminal.number.sample)) := rfl
  have hsteps : (Session.execute { budget := .passes 9 } 0
      (.whileLoop (.literal Terminal.number.sample) (.literal Terminal.number.sample))).2.steps =
        10 := by decide +kernel
  have h := execute_within_budget (s := { budget := .passes 9 }) (n := 9) hclosed htree rfl
    (by decide) (tooLong_eq_false (by decide)) 0
  refine ⟨hsteps, h.2.2.1.1 ?_⟩
  rw [hsteps]
  rfl

end Session

end Reckoner
