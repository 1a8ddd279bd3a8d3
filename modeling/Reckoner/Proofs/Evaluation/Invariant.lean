import Reckoner.Proofs.Evaluation.Logic
import Reckoner.Proofs.Evaluation.Simulation

/-!
# Invariants of evaluation

What an evaluation does to its state and how it can end is said once, for every tree
(`Invariant.tree`): it binds names that the tree binds, writes notes, counts passes, and stops
with a fault, given up, or with a diagnostic about a part of the tree that is responsible for it
(`Tree.Responsible`). Whatever these steps keep, an evaluation keeps, and so does a whole run.
Neither the tree nor the environment need be one that a program can have.
-/

set_option autoImplicit false

namespace Reckoner

/-! ## What a tree binds, and what it is blamed for -/

/-- The name that a tree binds itself: the target of an assignment, the variable of a loop. -/
def Tree.target? : Tree → Option Name
  | .assign name _ => some name.name
  | .forLoop name _ _ _ _ => some name.name
  | _ => none

/-- The names that a tree binds in some part of it. -/
def Tree.targets (t : Tree) : List Name := t.nodes.filterMap Tree.target?

/-- The operators that can divide by zero, a power where its exponent is negative. -/
def Token.Divides (op : Token) : Prop :=
  op.operatorKey = .text Symbol.divide.label ∨ op.operatorKey = .text Symbol.power.label

/-- A diagnostic of this kind is about the part `u` of the tree. -/
inductive Tree.Responsible (root : Tree) : Diagnostic.Kind → Tree → Prop where
  | divisor {op : Token} {left u : Tree} (h : .binary op left u ∈ root.nodes)
      (hop : op.Divides) : Responsible root .divisionByZero u
  | unbound {t : Token} (h : .ident t ∈ root.nodes) :
      Responsible root .undefinedVariable (.ident t)
  | operand {op : Token} {u : Tree} (h : .unary op u ∈ root.nodes) :
      Responsible root .illegalOperation u
  | left {op : Token} {u right : Tree} (h : .binary op u right ∈ root.nodes) :
      Responsible root .illegalOperation u
  | right {op : Token} {left u : Tree} (h : .binary op left u ∈ root.nodes) :
      Responsible root .illegalOperation u
  | bound {name : Token} {first last stride body u : Tree}
      (h : .forLoop name first last stride body ∈ root.nodes) (hu : u ∈ [first, last, stride]) :
      Responsible root .illegalOperation u
  | loop {u : Tree} (h : u ∈ root.nodes) (hl : u.IsLoop) : Responsible root .stepLimit u

/-- The diagnostic reaches from one end to the other of the part it is about. -/
def Tree.Blames (root : Tree) (d : Diagnostic) : Prop :=
  ∃ u, root.Responsible d.kind u ∧ u.ends? = .ok (d.start, d.stop)

theorem Tree.Responsible.isRuntime {root u : Tree} {kind : Diagnostic.Kind}
    (h : root.Responsible kind u) : kind.isRuntime = true := by
  cases h <;> rfl

/-! ## Divisions -/

theorem Number.divides_of_operate? {op : Operation} {a b : Number} (h : operate? op a b = none) :
    op = .div ∨ op = .pow := by
  cases op with
  | div => exact .inl rfl
  | pow => exact .inr rfl
  | _ => cases a <;> cases b <;> cases h

theorem Datum.divides_of_arithmetic {op : Number.Operation} {x y : Datum}
    (h : arithmetic op x y = .error .divisionByZero) : op = .div ∨ op = .pow := by
  unfold arithmetic at h
  split at h
  · split at h
    · cases h
    · next hnone => exact Number.divides_of_operate? hnone
  · cases h
  · unfold textTimes repeatText at h
    repeat' split at h
    all_goals cases h
  · unfold timesText repeatText at h
    repeat' split at h
    all_goals cases h
  · exact .inl rfl
  · cases h

/-- Nothing but a quotient or a power divides by zero. -/
theorem Token.divides_of_apply {t : Token} {op : Operator} {x y : Datum}
    (hop : Operator.ofKey? t.operatorKey = some op)
    (h : op.apply x y = .error .divisionByZero) : t.Divides := by
  have hdiv : op = .arithmetic .div ∨ op = .arithmetic .pow := by
    cases op with
    | arithmetic op => exact (Datum.divides_of_arithmetic h).imp (congrArg _) (congrArg _)
    | relation r =>
      unfold Operator.apply at h
      dsimp only at h
      split at h <;> cases h
    | and | or => cases h
  cases hkey : t.operatorKey with
  | text s =>
    rw [hkey] at hop
    obtain ⟨before, after, htable, -⟩ := List.lookup_eq_some_iff.1 hop
    have hmem : (s, op) ∈ Operator.table := htable ▸ List.mem_append_right _ (.head _)
    rcases hdiv with rfl | rfl
    · exact .inl (by simpa [Operator.table, hkey] using hmem)
    · exact .inr (by simpa [Operator.table, hkey] using hmem)
  | _ => rw [hkey] at hop; cases hop

/-! ## Invariants -/

namespace Eval

/-- The steps in which evaluating `root` can change the state keep `I`. -/
structure Invariant (I : State → Prop) (root : Tree) : Prop where
  binds : ∀ name ∈ root.targets, ∀ v s, I s → I { s with environment := s.environment.set name v }
  notes : ∀ n s, I s → I { s with trace := s.trace.push n }
  counts : ∀ s, I s → I s.counted

/-- Every end is allowed where `I` holds, a diagnostic only if it is about a part of `root` and
arose in these frames. -/
def blaming (root : Tree) (frames : List Frame) (I : State → Prop) : Exits where
  diagnosed d s := (root.Blames d ∧ d.frames = frames) ∧ I s
  faulted _ s := I s
  unfinished s := I s

/-- The step keeps `I`, with each of its ends, and is diagnosed only for a part of `root`. -/
def KeepsIn {α : Type} (root : Tree) (frames : List Frame) (I : State → Prop) (m : Eval α)
    (A : α → Prop := fun _ => True) : Prop :=
  m.Keeps I (blaming root frames I) A

section

variable {I : State → Prop} {root u : Tree} {set : Settings} {frames : List Frame} {α : Type}

theorem keepsIn_faulted (f : Fault) {A : α → Prop} :
    KeepsIn root frames I (Eval.faulted f : Eval α) A :=
  .faulted fun _ hs => hs

theorem keepsIn_orFault (f : Fault) (o : Option α) :
    KeepsIn root frames I (orFault f o) fun a => o = some a := by
  cases o with
  | none => exact keepsIn_faulted f
  | some a => exact .pure rfl

theorem keepsIn_placed (r : Except Unplaced α) :
    KeepsIn root frames I (placed r) fun a => r = .ok a := by
  cases r with
  | error why => exact keepsIn_faulted _
  | ok a => exact .pure rfl

theorem keepsIn_diagnose {kind : Diagnostic.Kind} (h : root.Responsible kind u)
    (details : String) {A : α → Prop} :
    KeepsIn root set.frames I (diagnose set kind u details : Eval α) A :=
  .bind (keepsIn_placed _) fun _ hends => .diagnosed fun _ hs => ⟨⟨⟨u, h, hends⟩, rfl⟩, hs⟩

/-! ## Operands -/

theorem keepsIn_datumOf (h : root.Responsible .illegalOperation u) (v : Value) :
    KeepsIn root set.frames I (datumOf set u v) := by
  cases v with
  | datum d span => exact .pure trivial
  | nothing => exact keepsIn_diagnose h _

theorem keepsIn_binary {op : Token} {left right : Tree} (h : .binary op left right ∈ root.nodes)
    (x y : Datum) : KeepsIn root set.frames I (Eval.binary set op.operatorKey x y right) := by
  unfold Eval.binary
  refine .bind (keepsIn_orFault _ _) fun o ho => ?_
  split
  · exact .pure trivial
  · next hzero => exact keepsIn_diagnose (.divisor h (Token.divides_of_apply ho hzero)) _
  · exact keepsIn_faulted _

theorem keepsIn_bound (h : root.Responsible .illegalOperation u) {value : Eval Value}
    (hv : KeepsIn root set.frames I value) : KeepsIn root set.frames I (bound set u value) := by
  unfold bound
  split
  · exact .pure trivial
  · exact .bind hv fun v _ => keepsIn_datumOf h v

theorem keepsIn_relation (r : Datum.Relation) (x y : Datum) :
    KeepsIn root frames I (relation r x y) :=
  fun s hs => (keepsIn_orFault _ _ s hs).mono fun _ _ h => ⟨trivial, h.2⟩

theorem keepsIn_proceeds (i limit step : Datum) :
    KeepsIn root frames I (proceeds i limit step) := by
  unfold proceeds
  refine .bind (keepsIn_relation _ _ _) fun up _ => ?_
  split
  · exact keepsIn_relation _ _ _
  · exact keepsIn_relation _ _ _

theorem keepsIn_successor (i step : Datum) : KeepsIn root frames I (successor i step) := by
  unfold successor
  split
  · exact .pure trivial
  · exact keepsIn_faulted _

end

namespace Invariant

variable {I : State → Prop} {root : Tree} {set : Settings} {frames : List Frame}

/-! ## Changes of the state -/

theorem note (h : Invariant I root) (level : Nat) (text : Unit → Option String) :
    KeepsIn root frames I (Eval.note set level text) := by
  unfold Eval.note
  split
  · split
    · exact fun s hs => ⟨trivial, h.notes _ s hs⟩
    · exact keepsIn_faulted _
  · exact .pure trivial

theorem assign (h : Invariant I root) {u : Tree} (hu : u ∈ root.nodes) {name : Name}
    (hname : u.target? = some name) (v : Value) : KeepsIn root frames I (Eval.assign name v) :=
  fun s hs => ⟨trivial, h.binds name (List.mem_filterMap.2 ⟨u, hu, hname⟩) v s hs⟩

theorem tick (h : Invariant I root) {u : Tree} (hu : u ∈ root.nodes) (hl : u.IsLoop) :
    KeepsIn root set.frames I (Eval.tick set u) := by
  unfold Eval.tick
  refine .bind (A := fun _ => True) (fun s hs => ⟨trivial, h.counts s hs⟩) fun steps _ => ?_
  split
  · exact .pure trivial
  · exact keepsIn_faulted _
  · next limit _ =>
    -- whether the limit has a text is of no concern, and would be costly to compute
    generalize (Number.int limit).text? = text
    split
    · refine .bind (keepsIn_placed _) fun _ _ => .bind (keepsIn_orFault _ text) fun _ _ => ?_
      exact keepsIn_diagnose (.loop hu hl) _
    · exact .pure trivial

/-! ## Trees -/

mutual

theorem tree (h : Invariant I root) :
    ∀ t : Tree, t.nodes ⊆ root.nodes → KeepsIn root set.frames I (t.evaluate set)
  | .absent, _ => keepsIn_faulted _
  | .literal t, _ => .pure trivial
  | .ident t, hn => by
    have hself := hn (.head _)
    rw [Tree.evaluate]
    refine .bind (A := fun _ => True) (fun s hs => ⟨trivial, hs⟩) fun e _ => ?_
    split
    · exact .pure trivial
    · exact .bind (keepsIn_orFault _ _) fun _ _ => keepsIn_diagnose (.unbound hself) _
  | .assign name value, hn => by
    have hself := hn (.head _)
    rw [Tree.nodes, List.cons_subset] at hn
    rw [Tree.evaluate]
    refine .bind (h.tree value hn.2) fun v _ => .bind (h.assign hself rfl v) fun _ _ => ?_
    exact .bind (h.note _ _) fun _ _ => .pure trivial
  | .unary op operand, hn => by
    have hself := hn (.head _)
    rw [Tree.nodes, List.cons_subset] at hn
    rw [Tree.evaluate]
    refine .bind (h.tree operand hn.2) fun v _ => ?_
    refine .bind (keepsIn_datumOf (.operand hself) v) fun x _ => ?_
    exact .bind (keepsIn_orFault _ _) fun d _ => .bind (keepsIn_placed _) fun _ _ => .pure trivial
  | .binary op left right, hn => by
    have hself := hn (.head _)
    rw [Tree.nodes, List.cons_subset, List.append_subset] at hn
    rw [Tree.evaluate]
    refine .bind (h.tree left hn.2.1) fun x _ => .bind (h.tree right hn.2.2) fun y _ => ?_
    refine .bind (keepsIn_datumOf (.left hself) x) fun x _ => ?_
    refine .bind (keepsIn_datumOf (.right hself) y) fun y _ => ?_
    refine .bind (keepsIn_binary hself x y) fun d _ => ?_
    exact .bind (keepsIn_placed _) fun _ _ => .pure trivial
  | .conditional branches otherwise, hn => by
    rw [Tree.nodes, List.cons_subset, List.append_subset] at hn
    unfold Tree.evaluate
    refine .bind (h.branches branches hn.2.1) fun o _ => ?_
    cases o with
    | some v => exact .pure trivial
    | none =>
      cases otherwise with
      | absent => exact .pure trivial
      | _ => exact h.tree _ hn.2.2
  | .forLoop name first last stride body, hn => by
    have hself := hn (.head _)
    have hbound : ∀ u ∈ [first, last, stride], root.Responsible .illegalOperation u :=
      fun u hu => .bound hself hu
    rw [Tree.nodes, List.cons_subset, List.append_subset, List.append_subset,
      List.append_subset] at hn
    obtain ⟨-, ⟨⟨hf, hl⟩, hs⟩, hb⟩ := hn
    rw [Tree.evaluate]
    refine .bind (keepsIn_bound (hbound first (by simp)) (h.tree first hf)) fun i _ => ?_
    refine .bind (keepsIn_bound (hbound last (by simp)) (h.tree last hl)) fun limit _ => ?_
    refine .bind (keepsIn_bound (hbound stride (by simp)) (h.tree stride hs)) fun step _ => ?_
    refine .bind (h.note _ _) fun _ _ => ?_
    refine .bind (.iterate (C := fun _ => True) trivial (fun i _ => ?_) fun _ hs => hs)
      fun _ _ => .pure trivial
    refine .bind (keepsIn_proceeds i limit step) fun b _ => ?_
    split
    · refine .bind (h.tick hself trivial) fun _ _ => .bind (h.assign hself rfl _) fun _ _ => ?_
      refine .bind (h.note _ _) fun _ _ => .bind (keepsIn_successor i step) fun next _ => ?_
      exact .bind (h.tree body hb) fun _ _ => .pure fun _ _ => trivial
    · exact .pure fun _ _ => trivial
  | .whileLoop condition body, hn => by
    have hself := hn (.head _)
    rw [Tree.nodes, List.cons_subset, List.append_subset] at hn
    rw [Tree.evaluate]
    refine .bind (.iterate (C := fun _ => True) trivial (fun _ _ => ?_) fun _ hs => hs)
      fun _ _ => .pure trivial
    refine .bind (h.tree condition hn.2.1) fun v _ => .bind (h.note _ _) fun _ _ => ?_
    split
    · refine .bind (h.tick hself trivial) fun _ _ => ?_
      exact .bind (h.tree body hn.2.2) fun _ _ => .pure fun _ _ => trivial
    · exact .pure fun _ _ => trivial

theorem branches (h : Invariant I root) :
    ∀ b : Branches, b.nodes ⊆ root.nodes → KeepsIn root set.frames I (b.evaluate set)
  | .nil, _ => .pure trivial
  | .cons condition body rest, hn => by
    rw [Branches.nodes, List.append_subset, List.append_subset] at hn
    rw [Branches.evaluate]
    refine .bind (h.tree condition hn.1.1) fun v _ => .bind (h.note _ _) fun _ _ => ?_
    split
    · exact .bind (h.tree body hn.1.2) fun _ _ => .pure trivial
    · exact h.branches rest hn.2

end

/-- However a whole evaluation ends, `I` holds if it did once the passes were counted from zero,
and a diagnostic is about a part of the tree and arose in the frames of the evaluation. -/
theorem execute_ends (h : Invariant I root) (set : Settings) {s : State}
    (hs : I { s with steps := 0 }) :
    I (Eval.execute set root s).2 ∧
      ∀ d, (Eval.execute set root s).1 = .diagnosed d → root.Blames d ∧ d.frames = set.frames := by
  have hkeeps : KeepsIn root set.frames I (root.evaluate set) := h.tree root fun _ hu => hu
  have hends : (Eval.execute set root).Ends (blaming root set.frames I) s fun _ s => I s := by
    refine (hkeeps _ hs).execute (fun text v s₁ hs₁ => ?_) fun line d s₁ hd => ?_
    · exact (h.note 1 text s₁ hs₁.2).mono fun _ _ hs₂ => hs₂.2
    · exact (h.note 1 _ s₁ hd.2).mono fun _ _ hs₂ => ⟨hd.1, hs₂.2⟩
  unfold Ends at hends
  generalize Eval.execute set root s = x at hends ⊢
  rcases x with ⟨v | d | f | _, s₁⟩
  · exact ⟨hends, fun _ hd => by cases hd⟩
  · obtain ⟨hblames, hs₁⟩ := hends
    exact ⟨hs₁, fun _ hd => Outcome.diagnosed.inj hd ▸ hblames⟩
  · exact ⟨hends, fun _ hd => by cases hd⟩
  · exact ⟨hends, fun _ hd => by cases hd⟩

theorem execute (h : Invariant I root) (set : Settings) {s : State} (hs : I { s with steps := 0 }) :
    I (Eval.execute set root s).2 ∧
      ∀ d, (Eval.execute set root s).1 = .diagnosed d → root.Blames d :=
  (h.execute_ends set hs).imp_right fun hd d hdiagnosed => (hd d hdiagnosed).1

end Invariant

end Eval

end Reckoner
