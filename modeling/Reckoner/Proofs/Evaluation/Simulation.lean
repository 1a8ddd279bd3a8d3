import Reckoner.Evaluation.Program
import Reckoner.Proofs.Evaluation.Steps
import Reckoner.Tree.Walk

/-!
# Two evaluations side by side

A tie says how two runs are held together: what stays true of their two states, and where the
first run may stop while the second goes on. `T.Follows m m'` says that `m` comes to the same end
as `m'` unless it stops so. The steps in which two ways of evaluating can differ are listed once
(`Tie.Evaluates`); where each of these follows its counterpart, so does the evaluation of every
tree (`Tie.Evaluates.tree`), and a whole run does if the tie bears it that the passes are counted
anew (`Tie.Evaluates.run`).
-/

set_option autoImplicit false

namespace Reckoner

/-- The trees whose passes are counted. -/
def Tree.IsLoop : Tree → Prop
  | .forLoop .. | .whileLoop .. => True
  | _ => False

namespace Exits

/-- The end is one without a result, and it is allowed. -/
def Allows {α : Type} (E : Exits) : Outcome α × State → Prop
  | (.done _, _) => False
  | (.diagnosed d, s) => E.diagnosed d s
  | (.faulted f, s) => E.faulted f s
  | (.unfinished, s) => E.unfinished s

/-- No end without a result is allowed. -/
def never : Exits := ⟨fun _ _ => False, fun _ _ => False, fun _ => False⟩

theorem not_never_allows {α : Type} (x : Outcome α × State) : ¬ never.Allows x := by
  rcases x with ⟨a | d | f | _, s⟩ <;> exact id

/-- Where one allows an end, so does the other. -/
structure Within (E E' : Exits) : Prop where
  diagnosed : ∀ d s, E.diagnosed d s → E'.diagnosed d s
  faulted : ∀ f s, E.faulted f s → E'.faulted f s
  unfinished : ∀ s, E.unfinished s → E'.unfinished s

theorem Within.refl (E : Exits) : E.Within E :=
  ⟨fun _ _ h => h, fun _ _ h => h, fun _ h => h⟩

theorem Within.trans {E₁ E₂ E₃ : Exits} (h : E₁.Within E₂) (h' : E₂.Within E₃) :
    E₁.Within E₃ where
  diagnosed d s hd := h'.diagnosed d s (h.diagnosed d s hd)
  faulted f s hf := h'.faulted f s (h.faulted f s hf)
  unfinished s hu := h'.unfinished s (h.unfinished s hu)

theorem Within.allows {α : Type} {E E' : Exits} (h : E.Within E') {x : Outcome α × State}
    (hx : E.Allows x) : E'.Allows x := by
  rcases x with ⟨a | d | f | _, s⟩
  · exact hx.elim
  · exact h.diagnosed d s hx
  · exact h.faulted f s hx
  · exact h.unfinished s hx

end Exits

namespace Eval

variable {α β σ : Type}

/-! ## Steps that leave the state alone -/

/-- The step looks at no state and changes none. -/
def Still (m : Eval α) : Prop := ∃ o, ∀ s, m s = (o, s)

theorem Still.pure (a : α) : Still (Pure.pure a : Eval α) := ⟨.done a, fun _ => rfl⟩

theorem Still.diagnosed (d : Diagnostic) : Still (Eval.diagnosed d : Eval α) :=
  ⟨.diagnosed d, fun _ => rfl⟩

theorem Still.faulted (f : Fault) : Still (Eval.faulted f : Eval α) :=
  ⟨.faulted f, fun _ => rfl⟩

theorem Still.bind {m : Eval α} {f : α → Eval β} (hm : Still m) (hf : ∀ a, Still (f a)) :
    Still (m >>= f) := by
  obtain ⟨o, ho⟩ := hm
  have hbind : ∀ s, (m >>= f) s = Eval.bind m f s := fun _ => rfl
  cases o with
  | done a =>
    obtain ⟨o', ho'⟩ := hf a
    exact ⟨o', fun s => by rw [hbind, Eval.bind, ho s]; exact ho' s⟩
  | diagnosed d => exact ⟨.diagnosed d, fun s => by rw [hbind, Eval.bind, ho s]⟩
  | faulted e => exact ⟨.faulted e, fun s => by rw [hbind, Eval.bind, ho s]⟩
  | unfinished => exact ⟨.unfinished, fun s => by rw [hbind, Eval.bind, ho s]⟩

theorem Still.orFault (f : Fault) (o : Option α) : Still (Eval.orFault f o) := by
  cases o with
  | none => exact .faulted f
  | some a => exact .pure a

theorem Still.placed (r : Except Unplaced α) : Still (Eval.placed r) := by
  cases r with
  | ok a => exact .pure a
  | error why => exact .faulted _

theorem Still.diagnose (set : Settings) (kind : Diagnostic.Kind) (t : Tree) (details : String) :
    Still (Eval.diagnose set kind t details : Eval α) :=
  .bind (.placed _) fun _ => .diagnosed _

theorem still_datumOf (set : Settings) (t : Tree) (v : Value) : Still (datumOf set t v) := by
  cases v with
  | datum d span => exact .pure d
  | nothing => exact .diagnose set _ t _

theorem still_binary (set : Settings) (key x y : Datum) (right : Tree) :
    Still (Eval.binary set key x y right) := by
  refine .bind (.orFault _ _) fun op => ?_
  split
  · exact .pure _
  · exact .diagnose set _ right _
  · exact .faulted _

theorem still_proceeds (i limit step : Datum) : Still (proceeds i limit step) := by
  refine .bind (.orFault _ _) fun b => ?_
  split
  · exact .orFault _ _
  · exact .orFault _ _

theorem still_successor (i step : Datum) : Still (successor i step) := by
  unfold successor
  split
  · exact .pure _
  · exact .faulted _

/-! ## Loops -/

/-- What a pass of a loop says decides whether there is another one. -/
theorem iterate_succ (n : Nat) (pass : σ → Eval (Option σ)) (i : σ) :
    Eval.iterate (n + 1) pass i = pass i >>= fun o =>
      match o with
      | some i => Eval.iterate n pass i
      | none => Pure.pure () := by
  rw [Eval.iterate]
  funext s
  show _ = Eval.bind (pass i) _ s
  unfold Eval.bind
  generalize pass i s = x
  rcases x with ⟨(_ | i) | d | f | _, s₁⟩ <;> rfl

/-! ## Identifiers -/

/-- What is said of an identifier that is bound to nothing. -/
def unbound (set : Settings) (t : Token) : Eval Value := do
  let name ← orFault .oversizedInteger t.name.text?
  diagnose set .undefinedVariable (.ident t) ("'" ++ name ++ "' is not defined")

theorem evaluate_ident (set : Settings) (t : Token) (s : State) :
    (Tree.ident t).evaluate set s =
      (match (s.environment.get? t.name).map (·.withSpan t.span) with
        | some v => Pure.pure v
        | none => unbound set t : Eval Value) s := by
  rw [Tree.evaluate]
  show Eval.bind environment _ s = _
  unfold Eval.bind environment
  dsimp only
  cases s.environment.get? t.name <;> rfl

theorem still_unbound (set : Settings) (t : Token) : Still (unbound set t) :=
  .bind (.orFault _ _) fun _ => .diagnose _ _ _ _

/-! ## Settings -/

section

variable {set set' : Settings}

theorem diagnose_frames (h : set.frames = set'.frames) (kind : Diagnostic.Kind) (t : Tree)
    (details : String) :
    (diagnose set kind t details : Eval α) = diagnose set' kind t details := by
  rw [diagnose, diagnose, h]

theorem datumOf_frames (h : set.frames = set'.frames) (t : Tree) (v : Value) :
    datumOf set t v = datumOf set' t v := by
  cases v with
  | datum d span => rfl
  | nothing => exact diagnose_frames h _ _ _

theorem binary_frames (h : set.frames = set'.frames) (key x y : Datum) (right : Tree) :
    Eval.binary set key x y right = Eval.binary set' key x y right := by
  simp only [Eval.binary, diagnose_frames h]

theorem tick_settings (h : set.frames = set'.frames) (hb : set.budget = set'.budget) (t : Tree) :
    tick set t = tick set' t := by
  simp only [tick, hb, diagnose_frames h]

end

/-! ## Ties -/

/-- What holds two runs together: a relation of their states, and where the first may stop, given
the state in which the second ends. -/
structure Tie where
  states : State → State → Prop
  exits : State → Exits

namespace Tie

/-- Two ends are the same in tied states, or the first one is where it may stop. -/
def Agrees (T : Tie) (x x' : Outcome α × State) : Prop :=
  (x.1 = x'.1 ∧ T.states x.2 x'.2) ∨ (T.exits x'.2).Allows x

/-- From tied states, `m` ends in agreement with `m'`. An end that is allowed stays so however
the second run goes on. -/
structure Follows (T : Tie) (m m' : Eval α) : Prop where
  agrees : ∀ s s', T.states s s' → T.Agrees (m s) (m' s')
  onward : ∀ s', (T.exits s').Within (T.exits (m' s').2)

variable {T : Tie}

theorem Follows.still {m : Eval α} (h : Still m) : T.Follows m m := by
  obtain ⟨o, ho⟩ := h
  refine ⟨fun s s' hs => .inl ?_, fun s' => ?_⟩
  · rw [ho s, ho s']
    exact ⟨rfl, hs⟩
  · rw [ho s']
    exact .refl _

theorem Follows.pure (a : α) : T.Follows (Pure.pure a) (Pure.pure a) := .still (.pure a)

theorem Follows.bind {m m' : Eval α} {f f' : α → Eval β} (hm : T.Follows m m')
    (hf : ∀ a, T.Follows (f a) (f' a)) : T.Follows (m >>= f) (m' >>= f') := by
  have later : ∀ s', (T.exits (m' s').2).Within (T.exits ((m' >>= f') s').2) := by
    intro s'
    show (T.exits (m' s').2).Within (T.exits (Eval.bind m' f' s').2)
    unfold Eval.bind
    generalize m' s' = x'
    rcases x' with ⟨a | d | e | _, s₁⟩
    · exact (hf a).onward s₁
    all_goals exact .refl _
  refine ⟨fun s s' hs => ?_, fun s' => (hm.onward s').trans (later s')⟩
  have hlater := later s'
  have h := hm.agrees s s' hs
  show T.Agrees (Eval.bind m f s) ((m' >>= f') s')
  unfold Eval.bind
  generalize m s = x at h ⊢
  rcases h with ⟨ho, hs₁⟩ | hstop
  · show T.Agrees _ (Eval.bind m' f' s')
    unfold Eval.bind
    generalize m' s' = x' at ho hs₁ ⊢
    obtain ⟨o, s₁⟩ := x
    obtain ⟨o', s₁'⟩ := x'
    obtain rfl : o = o' := ho
    cases o with
    | done a => exact (hf a).agrees s₁ s₁' hs₁
    | _ => exact .inl ⟨rfl, hs₁⟩
  · right
    rcases x with ⟨a | d | e | _, s₁⟩
    · exact hstop.elim
    all_goals exact hlater.allows hstop

/-- A loop that is followed for fewer passes may be given up before the other one. -/
theorem Follows.iterate {pass pass' : σ → Eval (Option σ)}
    (hp : ∀ i, T.Follows (pass i) (pass' i)) {n n' : Nat} (hn : n ≤ n')
    (hu : n < n' → ∀ s s', T.states s s' → (T.exits s').unfinished s) (i : σ) :
    T.Follows (Eval.iterate n pass i) (Eval.iterate n' pass' i) := by
  have step : ∀ n n', (∀ i, T.Follows (Eval.iterate n pass i) (Eval.iterate n' pass' i)) →
      ∀ i, T.Follows (Eval.iterate (n + 1) pass i) (Eval.iterate (n' + 1) pass' i) := by
    intro n n' ih i
    rw [iterate_succ, iterate_succ]
    refine .bind (hp i) fun o => ?_
    cases o with
    | some i => exact ih i
    | none => exact .pure ()
  have equal : ∀ n i, T.Follows (Eval.iterate n pass i) (Eval.iterate n pass' i) := by
    intro n
    induction n with
    | zero => exact fun _ => .still ⟨.unfinished, fun _ => rfl⟩
    | succ n ih => exact step n n ih
  induction n generalizing n' i with
  | zero =>
    rcases Nat.eq_zero_or_pos n' with rfl | hpos
    · exact equal 0 i
    · refine ⟨fun s s' hs => .inr ?_, (equal n' i).onward⟩
      exact ((equal n' i).onward s').unfinished s (hu hpos s s' hs)
  | succ n ih =>
    obtain ⟨k, rfl⟩ : ∃ k, n' = k + 1 := ⟨n' - 1, by omega⟩
    exact step n k (fun i => ih (by omega) (fun h => hu (by omega)) i) i

/-- A pass is counted in both runs if the tie bears it. -/
theorem Follows.tick
    (hs : ∀ s s', T.states s s' → s.steps = s'.steps ∧ T.states s.counted s'.counted)
    (he : ∀ s', (T.exits s').Within (T.exits s'.counted)) (set : Settings) (t : Tree) :
    T.Follows (Eval.tick set t) (Eval.tick set t) := by
  unfold Eval.tick
  refine .bind ⟨fun s s' h => .inl ?_, he⟩ fun steps => .still ?_
  · obtain ⟨hsteps, hcounted⟩ := hs s s' h
    exact ⟨congrArg (fun n => Outcome.done (n + 1)) hsteps, hcounted⟩
  · cases set.budget with
    | unlimited => exact .pure ()
    | void => exact .faulted _
    | passes limit =>
      dsimp only
      split
      · exact .bind (.placed _) fun _ => .bind (.orFault _ _) fun _ => .diagnose _ _ _ _
      · exact .pure ()

/-! ## Trees -/

/-- The steps in which two ways of evaluating `root` can differ. -/
structure Evaluates (T : Tie) (set set' : Settings) (root : Tree) : Prop where
  frames : set.frames = set'.frames
  passes : set.passes ≤ set'.passes
  givenUp : set.passes < set'.passes → ∀ s s', T.states s s' → (T.exits s').unfinished s
  look : ∀ t, Tree.ident t ∈ root.nodes → ∀ s s', T.states s s' →
    (s.environment.get? t.name).map (·.withSpan t.span) =
      (s'.environment.get? t.name).map (·.withSpan t.span)
  assign : ∀ name v, T.Follows (Eval.assign name v) (Eval.assign name v)
  note : ∀ level text, 0 < level → T.Follows (Eval.note set level text) (Eval.note set' level text)
  tick : ∀ t ∈ root.nodes, t.IsLoop → T.Follows (Eval.tick set t) (Eval.tick set' t)

section

variable {set set' : Settings} {root : Tree}

theorem Evaluates.datumOf (h : T.Evaluates set set' root) (t : Tree) (v : Value) :
    T.Follows (Eval.datumOf set t v) (Eval.datumOf set' t v) := by
  rw [datumOf_frames h.frames]
  exact .still (still_datumOf _ t v)

theorem Evaluates.bound (h : T.Evaluates set set' root) (t : Tree) {value value' : Eval Value}
    (hv : T.Follows value value') :
    T.Follows (Eval.bound set t value) (Eval.bound set' t value') := by
  cases t with
  | absent => exact .pure _
  | _ => exact .bind hv fun v => h.datumOf _ v

/-- An identifier reads the same value in both runs, up to the span that is replaced. -/
theorem Evaluates.ident (h : T.Evaluates set set' root) {t : Token}
    (ht : Tree.ident t ∈ root.nodes) :
    T.Follows ((Tree.ident t).evaluate set) ((Tree.ident t).evaluate set') := by
  have hunbound : unbound set t = unbound set' t := by
    unfold unbound
    simp only [diagnose_frames h.frames]
  have follows : ∀ o : Option Value, T.Follows
      (match o with | some v => Pure.pure v | none => unbound set t : Eval Value)
      (match o with | some v => Pure.pure v | none => unbound set' t : Eval Value) := by
    intro o
    cases o with
    | some v => exact .pure v
    | none => exact hunbound ▸ .still (still_unbound set t)
  refine ⟨fun s s' hs => ?_, fun s' => ?_⟩
  · rw [evaluate_ident, evaluate_ident, h.look t ht s s' hs]
    exact (follows _).agrees s s' hs
  · rw [evaluate_ident]
    exact (follows _).onward s'

mutual

theorem Evaluates.tree (h : T.Evaluates set set' root) :
    ∀ t : Tree, t.nodes ⊆ root.nodes → T.Follows (t.evaluate set) (t.evaluate set')
  | .absent, _ => .still (.faulted _)
  | .literal t, _ => .pure _
  | .ident t, hn => h.ident (hn (.head _))
  | .assign name value, hn => by
    rw [Tree.nodes, List.cons_subset] at hn
    rw [Tree.evaluate, Tree.evaluate]
    refine .bind (h.tree value hn.2) fun v => .bind (h.assign _ v) fun _ => ?_
    exact .bind (h.note 2 _ (by decide)) fun _ => .pure v
  | .unary op operand, hn => by
    rw [Tree.nodes, List.cons_subset] at hn
    rw [Tree.evaluate, Tree.evaluate]
    refine .bind (h.tree operand hn.2) fun v => .bind (h.datumOf operand v) fun x => ?_
    exact .bind (.still (.orFault _ _)) fun _ => .bind (.still (.placed _)) fun _ => .pure _
  | .binary op left right, hn => by
    rw [Tree.nodes, List.cons_subset, List.append_subset] at hn
    rw [Tree.evaluate, Tree.evaluate]
    refine .bind (h.tree left hn.2.1) fun x => .bind (h.tree right hn.2.2) fun y => ?_
    refine .bind (h.datumOf left x) fun x => .bind (h.datumOf right y) fun y => ?_
    rw [binary_frames h.frames]
    refine .bind (.still (still_binary _ _ _ _ _)) fun _ => ?_
    exact .bind (.still (.placed _)) fun _ => .pure _
  | .conditional branches otherwise, hn => by
    rw [Tree.nodes, List.cons_subset, List.append_subset] at hn
    unfold Tree.evaluate
    refine .bind (h.branches branches hn.2.1) fun o => ?_
    cases o with
    | some v => exact .pure v
    | none =>
      cases otherwise with
      | absent => exact .pure _
      | _ => exact h.tree _ hn.2.2
  | .forLoop name first last stride body, hn => by
    have hloop := hn (.head _)
    rw [Tree.nodes, List.cons_subset, List.append_subset, List.append_subset,
      List.append_subset] at hn
    obtain ⟨-, ⟨⟨hf, hl⟩, hs⟩, hb⟩ := hn
    rw [Tree.evaluate, Tree.evaluate]
    refine .bind (h.bound first (h.tree first hf)) fun i => ?_
    refine .bind (h.bound last (h.tree last hl)) fun limit => ?_
    refine .bind (h.bound stride (h.tree stride hs)) fun step => ?_
    refine .bind (h.note 2 _ (by decide)) fun _ => ?_
    refine .bind (.iterate (fun i => ?_) h.passes h.givenUp i) fun _ => .pure _
    refine .bind (.still (still_proceeds i limit step)) fun b => ?_
    split
    · refine .bind (h.tick _ hloop trivial) fun _ => .bind (h.assign _ _) fun _ => ?_
      refine .bind (h.note 3 _ (by decide)) fun _ => ?_
      refine .bind (.still (still_successor i step)) fun next => ?_
      exact .bind (h.tree body hb) fun _ => .pure _
    · exact .pure none
  | .whileLoop condition body, hn => by
    have hloop := hn (.head _)
    rw [Tree.nodes, List.cons_subset, List.append_subset] at hn
    rw [Tree.evaluate, Tree.evaluate]
    refine .bind (.iterate (fun _ => ?_) h.passes h.givenUp ()) fun _ => .pure _
    refine .bind (h.tree condition hn.2.1) fun v => .bind (h.note 3 _ (by decide)) fun _ => ?_
    split
    · refine .bind (h.tick _ hloop trivial) fun _ => ?_
      exact .bind (h.tree body hn.2.2) fun _ => .pure _
    · exact .pure none

theorem Evaluates.branches (h : T.Evaluates set set' root) :
    ∀ b : Branches, b.nodes ⊆ root.nodes → T.Follows (b.evaluate set) (b.evaluate set')
  | .nil, _ => .pure none
  | .cons condition body rest, hn => by
    rw [Branches.nodes, List.append_subset, List.append_subset] at hn
    rw [Branches.evaluate, Branches.evaluate]
    refine .bind (h.tree condition hn.1.1) fun v => .bind (h.note 3 _ (by decide)) fun _ => ?_
    split
    · exact .bind (h.tree body hn.1.2) fun _ => .pure _
    · exact h.branches rest hn.2

end

end

/-! ## Runs -/

/-- The tie is kept where the passes are counted anew, and what it allows depends on no state and
is never a diagnostic. -/
structure Restarts (T : Tie) : Prop where
  states : ∀ s s', T.states s s' → T.states { s with steps := 0 } { s' with steps := 0 }
  exits : ∀ s s', T.exits s = T.exits s'
  diagnosed : ∀ s' d s, ¬ (T.exits s').diagnosed d s

section

variable {set set' : Settings}

theorem Evaluates.execute {t : Tree} (h : T.Evaluates set set' t) (hT : T.Restarts) :
    T.Follows (Eval.execute set t) (Eval.execute set' t) := by
  have hnote : ∀ text, T.Follows (Eval.note set 1 text) (Eval.note set' 1 text) :=
    fun text => h.note 1 text (by decide)
  refine ⟨fun s s' hs => ?_, fun s' => hT.exits s' (Eval.execute set' t s').2 ▸ .refl _⟩
  have htree := (h.tree t fun _ h => h).agrees _ _ (hT.states s s' hs)
  unfold Eval.execute
  generalize t.evaluate set { s with steps := 0 } = x at htree ⊢
  generalize t.evaluate set' { s' with steps := 0 } = x' at htree ⊢
  rcases htree with ⟨ho, hs₁⟩ | hstop
  · obtain ⟨o, s₁⟩ := x
    obtain ⟨o', s₁'⟩ := x'
    obtain rfl : o = o' := ho
    cases o with
    | done v => exact ((hnote _).bind fun _ => .pure v).agrees s₁ s₁' hs₁
    | diagnosed d => exact ((hnote _).bind fun _ => .still (.diagnosed d)).agrees s₁ s₁' hs₁
    | _ => exact .inl ⟨rfl, hs₁⟩
  · right
    rw [hT.exits _ x'.2]
    rcases x with ⟨v | d | f | _, s₁⟩
    · exact hstop.elim
    · exact absurd hstop (hT.diagnosed _ _ _)
    all_goals exact hstop

theorem Evaluates.run (h : ∀ t, T.Evaluates set set' t) (hT : T.Restarts) (file text : String) :
    T.Follows (Eval.run set file text) (Eval.run set' file text) := by
  have hnote : ∀ text, T.Follows (Eval.note set 1 text) (Eval.note set' 1 text) :=
    fun text => (h .absent).note 1 text (by decide)
  have hrefuse : ∀ stage e,
      T.Follows (Eval.refuse set file stage e) (Eval.refuse set' file stage e) := by
    intro stage e
    unfold Eval.refuse
    cases e.diagnostic? with
    | some d => exact (hnote _).bind fun _ => .still (.diagnosed d)
    | none => exact .still (.faulted _)
  unfold Eval.run
  cases Source.tokens file text with
  | error e => exact hrefuse "lexer" e
  | ok tokens =>
    refine (hnote _).bind fun _ => ?_
    cases Source.treeOfTokens tokens with
    | error e => exact hrefuse "syntax" e
    | ok t => exact (hnote _).bind fun _ => (h t).execute hT

end

end Tie

end Eval

end Reckoner
