import Mathlib.Algebra.Order.Floor.Semiring
import Mathlib.Data.Rat.Floor
import Reckoner.Proofs.Evaluation.Invariant
import Reckoner.Proofs.Evaluation.Safety

/-!
# Counted loops over integers

Where the bounds of a counted loop come to integers, how often its body is evaluated and what its
variable is bound to each time is decided before the first pass (`Counted.evaluate_passes`): the
counter is kept apart from the variable, so nothing that the body binds matters to it. `Passes`
says what some passes do and `Interrupted` why the next one may not come to its end. The loop goes
on as long as passes are left (`Counted.goesOn_counter`), which carries the invariant of
`Counted.iterate_ends`.
-/

set_option autoImplicit false

namespace Reckoner

open Eval

/-! ## Comparing integers -/

namespace Number

variable (a b : ℤ)

theorem lt_int : (int a).lt (int b) = decide (a < b) := by
  rw [Bool.eq_iff_iff]
  simp [lt, compare?, compare_lt_iff_lt]

theorem gt_int : (int a).gt (int b) = decide (b < a) := by
  rw [Bool.eq_iff_iff]
  simp [gt, compare?, compare_gt_iff_gt]

theorem ge_int : (int a).ge (int b) = decide (b ≤ a) := by
  rw [Bool.eq_iff_iff]
  simp only [ge, gt, eq, compare?, Bool.or_eq_true, beq_iff_eq, Option.some.injEq,
    compare_gt_iff_gt, compare_eq_iff_eq, decide_eq_true_eq]
  omega

end Number

/-- Whether the budget allows one more pass after so many. -/
def Settings.Affords (set : Settings) (steps : ℕ) : Prop :=
  match set.budget with
  | .unlimited => True
  | .passes n => steps < n.toNat
  | .void => False

theorem Settings.Affords.mono {set : Settings} {i j : ℕ} (h : set.Affords j) (hij : i ≤ j) :
    set.Affords i := by
  unfold Affords at h ⊢
  split at h
  · trivial
  · omega
  · exact h

/-- Without patience, the budget is exceeded before a loop is given up. -/
theorem Settings.unlimited_of_affords {set : Settings} (h : ∀ i < set.passes, set.Affords i) :
    set.budget = .unlimited := by
  unfold passes Affords at h
  cases hb : set.budget with
  | unlimited => rfl
  | passes n =>
    simp only [hb] at h
    exact absurd (h (n.toNat + 1) (by omega)) (by omega)
  | void =>
    simp only [hb] at h
    exact (h 0 (by omega)).elim

namespace Eval

theorem Ends.of_done {α : Type} {m : Eval α} {E : Exits} {s s' : State} {a : α}
    {Q : α → State → Prop} (h : m s = (.done a, s')) (hQ : Q a s') : m.Ends E s Q := by
  unfold Ends
  rw [h]
  exact hQ

/-- How a step ends, case by case. -/
theorem Ends.of_outcome {α : Type} {m : Eval α} {E : Exits} {s : State} {Q : α → State → Prop}
    (done : ∀ a s', m s = (.done a, s') → Q a s')
    (diagnosed : ∀ d s', m s = (.diagnosed d, s') → E.diagnosed d s')
    (faulted : ∀ f s', m s = (.faulted f, s') → E.faulted f s')
    (unfinished : ∀ s', m s = (.unfinished, s') → E.unfinished s') : m.Ends E s Q := by
  unfold Ends
  rcases h : m s with ⟨a | d | f | _, s'⟩
  · exact done a s' h
  · exact diagnosed d s' h
  · exact faulted f s' h
  · exact unfinished s' h

/-- Whether the bounds are passed is a matter of the sign of the step. -/
theorem proceeds_int (i limit step : ℤ) :
    proceeds (.number (.int i)) (.number (.int limit)) (.number (.int step)) =
      pure (decide (if 0 ≤ step then i < limit else limit < i)) := by
  show (if Number.ge (.int step) (.int 0) then _ else _ : Eval Bool) = _
  rw [Number.ge_int]
  by_cases h : 0 ≤ step
  · simp only [h, decide_true, if_true, ← Number.lt_int]
    rfl
  · simp only [h, decide_false, if_false, Bool.false_eq_true, ← Number.gt_int]
    rfl

theorem successor_int (i step : ℤ) :
    successor (.number (.int i)) (.number (.int step)) = pure (.number (.int (i + step))) := rfl

/-! ## Counting and tracing -/

/-- A pass is counted, within the budget or over it. -/
theorem tick_cases (set : Settings) (t : Tree) (s : State) :
    (tick set t s = (.done (), s.counted) ∧ set.Affords s.steps) ∨
      (∃ d, tick set t s = (.diagnosed d, s.counted)) ∨
        ∃ f, tick set t s = (.faulted f, s.counted) := by
  unfold Settings.Affords
  cases hb : set.budget with
  | unlimited => exact .inl ⟨tick_unlimited hb t s, trivial⟩
  | void =>
    obtain ⟨budget⟩ := set
    cases hb
    exact .inr (.inr ⟨_, rfl⟩)
  | passes n =>
    rcases Nat.lt_or_ge s.steps n.toNat with h | h
    · exact .inl ⟨tick_within hb t h, h⟩
    right
    obtain ⟨budget⟩ := set
    cases hb
    unfold tick diagnose
    show (∃ d, (if n < (s.steps + 1 : Nat) then _ else _ : Eval Unit) _ = _) ∨
      ∃ f, (if n < (s.steps + 1 : Nat) then _ else _ : Eval Unit) _ = _
    rw [if_pos (by omega)]
    cases t.span? with
    | error why => exact .inr ⟨_, rfl⟩
    | ok span =>
      cases (Number.int n).text? with
      | none => exact .inr ⟨_, rfl⟩
      | some text =>
        cases t.ends? with
        | error why => exact .inr ⟨_, rfl⟩
        | ok ends => exact .inl ⟨_, rfl⟩

/-- A note leaves all but the trace alone. It is a fault only where lines are written. -/
theorem note_ends {set : Settings} {level : ℕ} {text : Unit → Option String} {E : Exits}
    {s : State} {Q : Unit → State → Prop}
    (faulted : level ≤ set.verbosity → E.faulted .oversizedInteger s)
    (done : ∀ trace, Q () { s with trace := trace }) : (note set level text).Ends E s Q := by
  unfold note
  split
  next h =>
    split
    · exact done _
    · exact faulted h
  next => exact done s.trace

end Eval

/-- Passes are never counted back. -/
theorem Tree.steps_le (set : Settings) (t : Tree) (s : State) :
    s.steps ≤ (t.evaluate set s).2.steps := by
  have hinv : Invariant (s.steps ≤ ·.steps) t :=
    ⟨fun _ _ _ _ h => h, fun _ _ h => h, fun s' h => Nat.le_succ_of_le h⟩
  have h : (t.evaluate set).Ends _ s _ := hinv.tree t (fun _ h => h) s (Nat.le_refl _)
  unfold Ends at h
  generalize t.evaluate set s = x at h ⊢
  rcases x with ⟨a | d | f | _, s'⟩
  · exact h.2
  · exact h.2
  · exact h
  · exact h

/-! ## Bounds -/

/-- A bound of a counted loop comes to an integer, and its evaluation leads from one state to
another. A bound that is left out comes to one. -/
inductive Tree.Bounds (set : Settings) : Tree → ℤ → State → State → Prop
  | omitted {s : State} : Bounds set .absent 1 s s
  | given {t : Tree} {i : ℤ} {span : Span} {s s' : State}
      (h : t.evaluate set s = (.done (.datum (.number (.int i)) span), s')) : Bounds set t i s s'

theorem Tree.Bounds.bound {set : Settings} {t : Tree} {i : ℤ} {s s' : State}
    (h : t.Bounds set i s s') :
    Eval.bound set t (t.evaluate set) s = (.done (.number (.int i)), s') := by
  cases h with
  | omitted => rfl
  | @given _ _ span _ _ h =>
    have hbound : Eval.bound set t (t.evaluate set) = t.evaluate set >>= datumOf set t := by
      cases t with
      | absent => rw [Tree.evaluate] at h; cases h
      | _ => rfl
    rw [hbound]
    show Eval.bind _ _ s = _
    rw [Eval.bind, h]
    rfl

/-! ## Counted loops -/

/-- A counted loop, and the integers that its bounds come to. -/
structure Counted where
  set : Settings
  name : Token
  first : Tree
  last : Tree
  stride : Tree
  body : Tree
  start : ℤ
  limit : ℤ
  step : ℤ

/-- From one state to another one more pass is counted, and the name is bound to an integer. -/
structure State.Enters (s : State) (name : Token) (i : ℤ) (s' : State) : Prop where
  environment : s'.environment =
    s.environment.set name.name (.datum (.number (.int i)) name.span)
  steps : s'.steps = s.steps + 1

namespace Counted

variable (L : Counted)

def loop : Tree := .forLoop L.name L.first L.last L.stride L.body

/-- The bounds are evaluated once each, and lead from one state to another. -/
def Bounds (s s' : State) : Prop :=
  ∃ s₁ s₂, L.first.Bounds L.set L.start s s₁ ∧ L.last.Bounds L.set L.limit s₁ s₂ ∧
    L.stride.Bounds L.set L.step s₂ s'

/-- The counter before pass `j`. -/
def counter (j : ℕ) : ℤ := L.start + j * L.step

/-- The counter has not reached the limit. -/
def GoesOn (i : ℤ) : Prop := if 0 ≤ L.step then i < L.limit else L.limit < i

instance (i : ℤ) : Decidable (L.GoesOn i) := inferInstanceAs (Decidable (ite _ _ _))

/-- How many passes there are. -/
def passes : ℕ := ⌈((L.limit : ℚ) - L.start) / L.step⌉₊

/-- `n` passes lead from the state `s` to another one. Each is counted and binds the name to the
counter before the body is evaluated; the bodies count `m` passes themselves. -/
inductive Passes (s : State) : ℕ → ℕ → State → Prop
  | none {s' : State} (environment : s'.environment = s.environment) (steps : s'.steps = s.steps) :
    Passes s 0 0 s'
  | next {n m k : ℕ} {s₁ s₂ s₃ : State} {v : Value} (h : Passes s n m s₁)
      (enters : s₁.Enters L.name (L.counter n) s₂)
      (body : L.body.evaluate L.set s₂ = (.done v, s₃)) (steps : s₃.steps = s₂.steps + k) :
    Passes s (n + 1) (m + k) s₃

variable {L}

theorem Passes.steps {s s' : State} {n m : ℕ} (h : L.Passes s n m s') :
    s'.steps = s.steps + n + m := by
  induction h with
  | none _ hsteps => exact hsteps
  | next _ enters _ hsteps ih =>
    rw [hsteps, enters.steps, ih]
    omega

/-- No pass changes anything. -/
theorem Passes.still {s s' : State} {m : ℕ} (h : L.Passes s 0 m s') :
    s'.environment = s.environment ∧ s'.steps = s.steps := by
  cases h with
  | none henv hsteps => exact ⟨henv, hsteps⟩

theorem counter_succ (j : ℕ) : L.counter (j + 1) = L.counter j + L.step := by
  rw [counter, counter]
  push_cast
  ring

/-- The loop goes on as long as there are passes left. -/
theorem goesOn_counter (h : L.step ≠ 0) (j : ℕ) : L.GoesOn (L.counter j) ↔ j < L.passes := by
  rw [passes, Nat.lt_ceil, GoesOn, counter]
  rcases lt_or_gt_of_ne h with hneg | hpos
  · have hneg' : (L.step : ℚ) < 0 := by exact_mod_cast hneg
    rw [if_neg (by omega), lt_div_iff_of_neg hneg', sub_lt_iff_lt_add']
    exact_mod_cast Iff.rfl
  · have hpos' : (0 : ℚ) < L.step := by exact_mod_cast hpos
    rw [if_pos hpos.le, lt_div_iff₀ hpos', lt_sub_iff_add_lt']
    exact_mod_cast Iff.rfl

/-! ## One pass -/

variable (L) in
/-- What is done with the counter in one pass, and whether there is another one. -/
def pass (i : Datum) : Eval (Option Datum) := do
  if ← proceeds i (.number (.int L.limit)) (.number (.int L.step)) then
    tick L.set L.loop
    Eval.assign L.name.name (.datum i L.name.span)
    note L.set 3 fun _ => do
      return "for iteration " ++ (← L.name.name.text?) ++ " = " ++ (← i.display?)
    let next ← successor i (.number (.int L.step))
    let _ ← L.body.evaluate L.set
    pure (some next)
  else pure none

theorem proceeds_counter (i : ℤ) : proceeds (.number (.int i)) (.number (.int L.limit))
    (.number (.int L.step)) = pure (decide (L.GoesOn i)) :=
  proceeds_int i L.limit L.step

theorem pass_over {i : ℤ} (h : ¬ L.GoesOn i) (s : State) :
    L.pass (.number (.int i)) s = (.done none, s) := by
  rw [pass, proceeds_counter, decide_eq_false h]
  rfl

/-- A pass that is made ends where counting it, writing a line or the body ends, or goes on with
the next counter. -/
theorem pass_ends {i : ℤ} (hi : L.GoesOn i) {s : State} {E : Exits}
    {Q : Option Datum → State → Prop}
    (diagnosed : ∀ d s', tick L.set L.loop s = (.diagnosed d, s') → E.diagnosed d s')
    (faulted : ∀ f s', tick L.set L.loop s = (.faulted f, s') → E.faulted f s')
    (mute : ∀ s', 3 ≤ L.set.verbosity → E.faulted .oversizedInteger s')
    (body : ∀ s', L.set.Affords s.steps → s.Enters L.name i s' →
      (L.body.evaluate L.set).Ends E s' fun _ s'' => Q (some (.number (.int (i + L.step)))) s'') :
    (L.pass (.number (.int i))).Ends E s Q := by
  rw [pass, proceeds_counter, decide_eq_true hi]
  refine Ends.bind (.of_done rfl ?_)
  rw [if_pos rfl]
  refine Ends.bind ?_
  rcases tick_cases L.set L.loop s with ⟨htick, hbudget⟩ | ⟨d, htick⟩ | ⟨f, htick⟩
  · refine .of_done htick ?_
    refine Ends.bind (.of_done rfl ?_)
    refine Ends.bind (note_ends (mute _) fun trace => ?_)
    rw [successor_int]
    refine Ends.bind (.of_done rfl ?_)
    refine Ends.bind ?_
    exact (body _ hbudget ⟨rfl, rfl⟩).mono fun _ _ h => .of_done rfl h
  · unfold Ends
    rw [htick]
    exact diagnosed d _ htick
  · unfold Ends
    rw [htick]
    exact faulted f _ htick

/-! ## The whole loop -/

/-- Once the bounds are evaluated, the passes decide how the loop ends. -/
theorem evaluate_ends {s₀ s : State} (h : L.Bounds s₀ s) {E : Exits} {Q : Value → State → Prop}
    (mute : ∀ s', 2 ≤ L.set.verbosity → E.faulted .oversizedInteger s')
    (passes : ∀ s', s'.environment = s.environment → s'.steps = s.steps →
      (iterate L.set.passes L.pass (.number (.int L.start))).Ends E s' fun _ s'' =>
        Q .nothing s'') : (L.loop.evaluate L.set).Ends E s₀ Q := by
  obtain ⟨s₁, s₂, hfirst, hlast, hstride⟩ := h
  rw [loop, Tree.evaluate]
  refine Ends.bind (.of_done hfirst.bound ?_)
  refine Ends.bind (.of_done hlast.bound ?_)
  refine Ends.bind (.of_done hstride.bound ?_)
  refine Ends.bind (note_ends (mute _) fun trace => ?_)
  refine Ends.bind ?_
  exact (passes { s with trace := trace } rfl rfl).mono fun _ _ hQ => Ends.of_done rfl hQ

/-- One of the passes before pass `n` does not come to its end. -/
inductive Interrupted (L : Counted) (s : State) (n : ℕ) : Outcome Value → Prop
  /-- the pass exceeds the budget -/
  | exceeds {j m : ℕ} {s₁ : State} {d : Diagnostic} (hj : j < n) (h : L.Passes s j m s₁)
      (tick : (tick L.set L.loop s₁).1 = .diagnosed d) : Interrupted L s n (.diagnosed d)
  /-- the pass exceeds the budget, and that cannot be told -/
  | exceedsMute {j m : ℕ} {s₁ : State} {f : Fault} (hj : j < n) (h : L.Passes s j m s₁)
      (tick : (tick L.set L.loop s₁).1 = .faulted f) : Interrupted L s n (.faulted f)
  /-- a line of the trace cannot be written -/
  | line (h : 2 ≤ L.set.verbosity) : Interrupted L s n (.faulted .oversizedInteger)
  /-- the body comes to no result -/
  | body {j m : ℕ} {s₁ s₂ : State} {o : Outcome Value} (hj : j < n) (h : L.Passes s j m s₁)
      (enters : s₁.Enters L.name (L.counter j) s₂) (body : (L.body.evaluate L.set s₂).1 = o)
      (ho : ∀ v, o ≠ .done v) : Interrupted L s n o

def interrupts (L : Counted) (s : State) (n : ℕ) : Exits where
  diagnosed d _ := L.Interrupted s n (.diagnosed d)
  faulted f _ := L.Interrupted s n (.faulted f)
  unfinished _ := L.Interrupted s n .unfinished

/-- The loop makes all its passes unless one of them is interrupted: each pass but the last leaves
fewer to be made, and the budget is exceeded before the loop is given up. -/
theorem iterate_ends {s : State} {n : ℕ} (hn : ∀ j, L.GoesOn (L.counter j) ↔ j < n)
    (hp : L.set.budget = .unlimited → n < L.set.patience) {s' : State}
    (henv : s'.environment = s.environment) (hsteps : s'.steps = s.steps) :
    (iterate L.set.passes L.pass (.number (.int L.start))).Ends (L.interrupts s n) s'
      fun _ s'' => ∃ m, L.Passes s n m s'' := by
  refine Ends.iterate (I := fun left i s'' => ∃ j m, i = .number (.int (L.counter j)) ∧
      L.Passes s j m s'' ∧ j ≤ n ∧ j + left = L.set.passes ∧ ∀ i < j, L.set.Affords i)
    (fun left i s₁ hi => ?_) (fun i s₁ hi => ?_) _ _ _ ?_
  · obtain ⟨j, m, rfl, hpasses, hj, hleft, hafforded⟩ := hi
    by_cases hlt : j < n
    · refine pass_ends ((hn j).2 hlt) (fun d _ ht => .exceeds hlt hpasses (by rw [ht]))
        (fun f _ ht => .exceedsMute hlt hpasses (by rw [ht])) (fun _ hv => .line (by omega))
        fun s₂ hbudget henters => ?_
      refine .of_outcome (fun v s₃ hbody => ?_)
        (fun d _ hbody => .body hlt hpasses henters (by rw [hbody]) (by simp))
        (fun f _ hbody => .body hlt hpasses henters (by rw [hbody]) (by simp))
        (fun _ hbody => .body hlt hpasses henters (by rw [hbody]) (by simp))
      have hle := L.body.steps_le L.set s₂
      rw [hbody] at hle
      obtain ⟨k, hk⟩ := Nat.exists_eq_add_of_le hle
      refine ⟨j + 1, m + k, by rw [counter_succ], hpasses.next henters hbody hk, hlt, by omega,
        fun i hij => hbudget.mono ?_⟩
      have := hpasses.steps
      omega
    · obtain rfl : j = n := by omega
      exact .of_done (pass_over (fun h => hlt ((hn j).1 h)) s₁) ⟨m, hpasses⟩
  · obtain ⟨j, m, rfl, hpasses, hj, hleft, hafforded⟩ := hi
    obtain rfl : j = L.set.passes := hleft
    have hb := Settings.unlimited_of_affords hafforded
    rw [Settings.passes, hb] at hj
    exact absurd (hp hb) (Nat.not_lt.2 hj)
  · refine ⟨0, 0, by simp [counter], .none henv hsteps, Nat.zero_le _, Nat.zero_add _, ?_⟩
    exact fun i hi => absurd hi (Nat.not_lt_zero i)

/-- The same of the whole evaluation. -/
theorem evaluate_cases {s₀ s : State} (h : L.Bounds s₀ s) {n : ℕ}
    (hn : ∀ j, L.GoesOn (L.counter j) ↔ j < n)
    (hp : L.set.budget = .unlimited → n < L.set.patience) :
    (∃ s' m, L.loop.evaluate L.set s₀ = (.done .nothing, s') ∧ L.Passes s n m s') ∨
      L.Interrupted s n (L.loop.evaluate L.set s₀).1 := by
  have hends : (L.loop.evaluate L.set).Ends (L.interrupts s n) s₀
      fun v s' => v = .nothing ∧ ∃ m, L.Passes s n m s' := by
    refine evaluate_ends h (fun _ hv => .line hv) fun s' henv hsteps => ?_
    exact (iterate_ends hn hp henv hsteps).mono fun _ _ hm => ⟨rfl, hm⟩
  unfold Ends at hends
  generalize L.loop.evaluate L.set s₀ = x at hends ⊢
  rcases x with ⟨v | d | f | _, s'⟩
  · obtain ⟨rfl, m, hm⟩ := hends
    exact .inl ⟨s', m, rfl, hm⟩
  · exact .inr hends
  · exact .inr hends
  · exact .inr hends

/-- A loop that comes no nearer to its limit never comes to a result. -/
theorem evaluate_endless {s₀ s : State} (h : L.Bounds s₀ s) (hstep : L.step = 0)
    (hi : L.GoesOn L.start) (v : Value) : (L.loop.evaluate L.set s₀).1 ≠ .done v := by
  have hends : (L.loop.evaluate L.set).Ends ⟨fun _ _ => True, fun _ _ => True, fun _ => True⟩ s₀
      fun _ _ => False := by
    refine evaluate_ends h (fun _ _ => trivial) fun s' _ _ => ?_
    refine Ends.iterate (I := fun _ i _ => i = .number (.int L.start)) (fun _ _ s hs => ?_)
      (fun _ _ _ => trivial) _ _ s' rfl
    subst hs
    refine pass_ends hi (fun _ _ _ => trivial) (fun _ _ _ => trivial) (fun _ _ => trivial)
      fun s' _ _ => ?_
    refine .of_outcome (fun v s'' _ => ?_) (fun _ _ _ => trivial) (fun _ _ _ => trivial)
      fun _ _ => trivial
    rw [hstep, add_zero]
  intro hv
  unfold Ends at hends
  generalize L.loop.evaluate L.set s₀ = x at hends hv
  rcases x with ⟨v' | d | f | _, s'⟩
  · exact hends
  all_goals cases hv

/-- Let the bounds of a counted loop come to integers, the step not to zero. Unless one of them is
interrupted, the loop makes as many passes as the distance needs and comes to nothing; it counts
one for each, and leaves the environment alone if there are none. With a step of zero it makes no
pass where the limit is reached from the start, and never comes to a result where it is not. -/
theorem evaluate_passes (L : Counted) {s₀ s : State} (h : L.Bounds s₀ s) :
    (L.step ≠ 0 → (L.set.budget = .unlimited → L.passes < L.set.patience) →
      (∃ s' m, L.loop.evaluate L.set s₀ = (.done .nothing, s') ∧ L.Passes s L.passes m s' ∧
        s'.steps = s.steps + L.passes + m ∧
        (L.passes = 0 → s'.environment = s.environment)) ∨
      L.Interrupted s L.passes (L.loop.evaluate L.set s₀).1) ∧
    (L.step = 0 → L.limit ≤ L.start → (L.set.budget = .unlimited → 0 < L.set.patience) →
      (∃ s', L.loop.evaluate L.set s₀ = (.done .nothing, s') ∧ s'.environment = s.environment ∧
        s'.steps = s.steps) ∨
      2 ≤ L.set.verbosity ∧ (L.loop.evaluate L.set s₀).1 = .faulted .oversizedInteger) ∧
    (L.step = 0 → L.start < L.limit →
      (∀ v, (L.loop.evaluate L.set s₀).1 ≠ .done v) ∧
      (L.set.Plain → L.loop.Regular Token.Sound → s₀.environment.Numeric →
        (∃ d, (L.loop.evaluate L.set s₀).1 = .diagnosed d) ∨
          (L.loop.evaluate L.set s₀).1 = .unfinished)) := by
  refine ⟨fun hstep hp => ?_, fun hstep hle hp => ?_, fun hstep hlt => ?_⟩
  · refine (evaluate_cases h (goesOn_counter hstep) hp).imp_left fun ⟨s', m, hdone, hm⟩ => ?_
    refine ⟨s', m, hdone, hm, hm.steps, fun hzero => ?_⟩
    rw [hzero] at hm
    exact hm.still.1
  · have hover : ∀ j, L.GoesOn (L.counter j) ↔ j < 0 := by
      intro j
      rw [GoesOn, counter, hstep]
      simp [hle]
    rcases evaluate_cases h hover hp with ⟨s', m, hdone, hm⟩ | hinterrupted
    · exact .inl ⟨s', hdone, hm.still⟩
    · refine .inr ?_
      generalize (L.loop.evaluate L.set s₀).1 = o at hinterrupted ⊢
      cases hinterrupted with
      | line hv => exact ⟨hv, rfl⟩
      | exceeds hj | exceedsMute hj | body hj => exact absurd hj (Nat.not_lt_zero _)
  · have hgoes : L.GoesOn L.start := by rw [GoesOn, hstep, if_pos le_rfl]; exact hlt
    have hnever := evaluate_endless h hstep hgoes
    refine ⟨hnever, fun hset hregular henv => ?_⟩
    obtain ⟨-, ⟨v, hv, -⟩ | hd | hu⟩ := (hregular.safe hset).outcome henv
    · exact absurd hv (hnever v)
    · exact .inl hd
    · exact .inr hu

/-- `FOR a = 1 UPTO (VAR b = 4) STEP 2 DO VAR a = VAR b = 0` -/
def rebinding : Counted :=
  let b := Grammar.Terminal.sample.make .identifier (.text "b")
  let literal (i : ℤ) : Tree := .literal (Grammar.Terminal.sample.make .int (.number (.int i)))
  { set := { patience := 3 }
    name := Grammar.Terminal.name.sample
    first := literal 1
    last := .assign b (literal 4)
    stride := literal 2
    body := .assign Grammar.Terminal.name.sample (.assign b (literal 0))
    start := 1
    limit := 4
    step := 2 }

/-- Two passes, with the counter at one and at three, whatever the body binds. -/
theorem rebinding_passes : ∃ s s' m, rebinding.Bounds {} s ∧
    rebinding.loop.evaluate rebinding.set {} = (.done .nothing, s') ∧
      rebinding.Passes s 2 m s' ∧ s'.steps = s.steps + 2 + m := by
  have hpasses : rebinding.passes = 2 := by
    rw [passes, Nat.ceil_eq_iff (by decide)]
    norm_num [rebinding]
  have hbounds : ∃ s, rebinding.Bounds {} s := ⟨_, _, _, .given rfl, .given rfl, .given rfl⟩
  obtain ⟨s, hbounds⟩ := hbounds
  have hdone : (rebinding.loop.evaluate rebinding.set {}).1 = .done .nothing := rfl
  rcases (evaluate_passes rebinding hbounds).1 (by decide) (fun _ => by rw [hpasses]; decide) with
    ⟨s', m, h, hm, hsteps, -⟩ | hinterrupted
  · rw [hpasses] at hm hsteps
    exact ⟨s, s', m, hbounds, h, hm, hsteps⟩
  · rw [hdone] at hinterrupted
    cases hinterrupted with
    | body _ _ _ _ ho => exact absurd rfl (ho _)

end Counted

end Reckoner
