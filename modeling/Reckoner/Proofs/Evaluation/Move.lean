import Reckoner.Proofs.Evaluation.Lookup
import Reckoner.Proofs.Tree.Move

/-!
# Evaluating moved trees

No decision of the evaluator looks at a position. In environments with the same bindings, a tree
that is moved to other places comes to what the tree comes to, moved along, with the same
bindings and passes (`Tree.carries_move`). The environments need not agree on where their values
came from, nor on the order of their bindings.
-/

set_option autoImplicit false

namespace Reckoner

/-! ## The same bindings -/

/-- What the names are bound to in a scope, wherever the values came from. -/
def Bindings.view (b : Bindings) (name : Name) : Option Value := (b.get? name).map Value.bare

namespace Environment

/-- What the names are bound to in each scope, from the inside out. -/
def views (e : Environment) : List (Name → Option Value) := e.scopes.map Bindings.view

theorem look_eq_views (e : Environment) (name : Name) :
    e.look name = e.views.findSome? (· name) := by
  rw [look, get?, views, List.findSome?_map]
  induction e.scopes with
  | nil => rfl
  | cons b rest ih =>
    have hview : ((· name) ∘ Bindings.view) b = (b.get? name).map Value.bare := rfl
    rw [List.findSome?_cons, List.findSome?_cons, hview]
    cases b.get? name with
    | some v => rfl
    | none => exact ih

theorem views_set {e e' : Environment} (h : e.views = e'.views) (name : Name) {v v' : Value}
    (hv : v.bare = v'.bare) : (e.set name v).views = (e'.set name v').views := by
  obtain ⟨hcurrent, henclosing⟩ := List.cons.inj h
  refine List.cons_eq_cons.2 ⟨funext fun other => ?_, henclosing⟩
  have hother := congrFun hcurrent other
  show ((e.current.set name v).get? other).map _ = ((e'.current.set name v').get? other).map _
  rw [Bindings.get?_set, Bindings.get?_set]
  split
  · exact congrArg some hv
  · exact hother

end Environment

/-- The same bindings and passes; the traces may differ. -/
structure State.Same (s s' : State) : Prop where
  views : s.environment.views = s'.environment.views
  steps : s.steps = s'.steps

/-! ## Moved results -/

def Value.move (f : Position → Position) : Value → Value
  | .datum d span => .datum d (span.move f)
  | .nothing => .nothing

def Diagnostic.move (f : Position → Position) (d : Diagnostic) : Diagnostic :=
  { d with start := f d.start, stop := f d.stop }

section

variable (f : Position → Position) (v : Value)

@[simp] theorem Value.bare_move : (v.move f).bare = v.bare := by cases v <;> rfl

@[simp] theorem Value.isTrue_move : (v.move f).isTrue = v.isTrue := by cases v <;> rfl

@[simp] theorem Value.text?_move : (v.move f).text? = v.text? := by cases v <;> rfl

theorem Value.withSpan_move {v v' : Value} (h : v.bare = v'.bare) (span : Span) :
    v'.withSpan (span.move f) = (v.withSpan span).move f := by
  cases v <;> cases v' <;> cases h <;> rfl

end

/-- The second outcome is the first one, moved along: results in the relation, and a diagnostic at
other places. -/
inductive Outcome.Moved {α β : Type} (f : Position → Position) (R : α → β → Prop) :
    Outcome α → Outcome β → Prop where
  | done {a : α} {b : β} (h : R a b) : Moved f R (.done a) (.done b)
  | diagnosed (d : Diagnostic) : Moved f R (.diagnosed d) (.diagnosed (d.move f))
  | faulted (e : Fault) : Moved f R (.faulted e) (.faulted e)
  | unfinished : Moved f R .unfinished .unfinished

namespace Eval

variable {f : Position → Position} {set : Settings}

/-- From the same bindings and passes, `m'` comes to what `m` comes to, moved along, and to the
same bindings and passes. -/
def Carries {α β : Type} (f : Position → Position) (R : α → β → Prop) (m : Eval α)
    (m' : Eval β) : Prop :=
  ∀ s s', s.Same s' → (m s).1.Moved f R (m' s').1 ∧ (m s).2.Same (m' s').2

section

variable {α β γ δ σ : Type} {R : α → β → Prop} {S : γ → δ → Prop}

theorem Carries.pure {a : α} {b : β} (h : R a b) :
    Carries f R (Pure.pure a) (Pure.pure b) :=
  fun _ _ hs => ⟨.done h, hs⟩

theorem Carries.faulted (e : Fault) : Carries f R (Eval.faulted e) (Eval.faulted e) :=
  fun _ _ hs => ⟨.faulted e, hs⟩

theorem Carries.bind {m : Eval α} {m' : Eval β} {k : α → Eval γ} {k' : β → Eval δ}
    (hm : Carries f R m m') (hk : ∀ a b, R a b → Carries f S (k a) (k' b)) :
    Carries f S (m >>= k) (m' >>= k') := by
  intro s s' hs
  obtain ⟨ho, hs₁⟩ := hm s s' hs
  show (Eval.bind m k s).1.Moved f S (Eval.bind m' k' s').1 ∧
    (Eval.bind m k s).2.Same (Eval.bind m' k' s').2
  unfold Eval.bind
  generalize m s = x at ho hs₁ ⊢
  generalize m' s' = x' at ho hs₁ ⊢
  obtain ⟨o, s₁⟩ := x
  obtain ⟨o', s₁'⟩ := x'
  cases ho with
  | done h => exact hk _ _ h s₁ s₁' hs₁
  | diagnosed d => exact ⟨.diagnosed d, hs₁⟩
  | faulted e => exact ⟨.faulted e, hs₁⟩
  | unfinished => exact ⟨.unfinished, hs₁⟩

theorem Carries.orFault (e : Fault) (o : Option α) :
    Carries f Eq (Eval.orFault e o) (Eval.orFault e o) := by
  cases o with
  | none => exact .faulted e
  | some a => exact .pure rfl

theorem Carries.placed {r : Except Unplaced α} {r' : Except Unplaced β} {g : α → β}
    (h : r' = r.map g) : Carries f (fun a b => b = g a) (Eval.placed r) (Eval.placed r') := by
  subst h
  cases r with
  | error why => exact .faulted _
  | ok a => exact .pure rfl

theorem Carries.note (level : Nat) {text text' : Unit → Option String}
    (h : text' () = text ()) :
    Carries f Eq (Eval.note set level text) (Eval.note set level text') := by
  unfold Eval.note
  rw [h]
  split
  · split
    · exact fun s s' hs => ⟨.done rfl, hs.views, hs.steps⟩
    · exact .faulted _
  · exact .pure rfl

theorem Carries.assign (name : Name) {v v' : Value} (h : v.bare = v'.bare) :
    Carries f Eq (Eval.assign name v) (Eval.assign name v') :=
  fun _ _ hs => ⟨.done rfl, Environment.views_set hs.views name h, hs.steps⟩

theorem Carries.diagnose (kind : Diagnostic.Kind) (t : Tree) (details : String) :
    Carries f R (Eval.diagnose set kind t details) (Eval.diagnose set kind (t.move f) details) := by
  refine .bind (.placed (t.ends?_move f)) fun ends ends' h => ?_
  subst h
  exact fun s s' hs => ⟨.diagnosed _, hs⟩

theorem Carries.tick (t : Tree) : Carries f Eq (Eval.tick set t) (Eval.tick set (t.move f)) := by
  refine .bind (R := Eq) (fun s s' hs => ⟨?_, hs.views, congrArg (· + 1) hs.steps⟩) ?_
  · rw [hs.steps]
    exact .done rfl
  · rintro steps _ rfl
    cases set.budget with
    | unlimited => exact .pure rfl
    | void => exact .faulted _
    | passes limit =>
      dsimp only
      split
      · refine .bind (.placed (t.span?_move f)) fun _ _ _ => ?_
        refine .bind (.orFault _ _) fun text _ h => ?_
        subst h
        exact .diagnose _ _ _
      · exact .pure rfl

theorem Carries.iterate {pass pass' : σ → Eval (Option σ)}
    (h : ∀ i, Carries f Eq (pass i) (pass' i)) (n : Nat) :
    ∀ i, Carries f Eq (Eval.iterate n pass i) (Eval.iterate n pass' i) := by
  induction n with
  | zero => exact fun _ _ _ hs => ⟨.unfinished, hs⟩
  | succ n ih =>
    intro i
    rw [iterate_succ, iterate_succ]
    refine .bind (h i) fun o _ ho => ?_
    subst ho
    cases o with
    | some i => exact ih i
    | none => exact .pure rfl

end

/-! ## Operands -/

theorem Carries.datumOf (t : Tree) {v v' : Value} (h : v' = v.move f) :
    Carries f Eq (Eval.datumOf set t v) (Eval.datumOf set (t.move f) v') := by
  subst h
  cases v with
  | datum d span => exact .pure rfl
  | nothing => exact .diagnose _ t _

theorem Carries.binary (key x y : Datum) (right : Tree) :
    Carries f Eq (Eval.binary set key x y right) (Eval.binary set key x y (right.move f)) := by
  refine .bind (.orFault _ _) fun op _ h => ?_
  subst h
  split
  · exact .pure rfl
  · exact .diagnose _ right _
  · exact .faulted _

theorem Carries.unbound {R : Value → Value → Prop} (t : Token) :
    Carries f R (Eval.unbound set t) (Eval.unbound set (t.move f)) :=
  .bind (.orFault _ _) fun _ _ h => h ▸ .diagnose _ (.ident t) _

theorem Carries.bound (t : Tree) {value value' : Eval Value}
    (h : Carries f (fun v v' => v' = v.move f) value value') :
    Carries f Eq (Eval.bound set t value) (Eval.bound set (t.move f) value') := by
  cases t with
  | absent => exact .pure rfl
  | _ => exact .bind h fun v v' hv => .datumOf _ hv

theorem Carries.proceeds (i limit step : Datum) :
    Carries f Eq (Eval.proceeds i limit step) (Eval.proceeds i limit step) := by
  refine .bind (.orFault _ _) fun up _ h => ?_
  subst h
  split
  · exact .orFault _ _
  · exact .orFault _ _

theorem Carries.successor (i step : Datum) :
    Carries f Eq (Eval.successor i step) (Eval.successor i step) := by
  unfold Eval.successor
  split
  · exact .pure rfl
  · exact .faulted _

end Eval

/-! ## Trees -/

open Eval

section

variable {f : Position → Position} {set : Settings}

mutual

theorem Tree.carries_move : ∀ t : Tree,
    Carries f (fun v v' => v' = v.move f) (t.evaluate set) ((t.move f).evaluate set)
  | .absent => .faulted _
  | .literal t => .pure rfl
  | .ident t => by
    intro s s' hs
    have hlook : s.environment.look t.name = s'.environment.look t.name := by
      rw [Environment.look_eq_views, Environment.look_eq_views, hs.views]
    have hname : (t.move f).name = t.name := rfl
    rw [Tree.move, evaluate_ident, evaluate_ident, hname]
    unfold Environment.look at hlook
    cases hv : s.environment.get? t.name with
    | none =>
      rw [hv] at hlook
      rw [Option.map_eq_none_iff.1 hlook.symm]
      exact Carries.unbound t s s' hs
    | some v =>
      rw [hv] at hlook
      obtain ⟨v', hv', hbare⟩ := Option.map_eq_some_iff.1 hlook.symm
      rw [hv']
      exact ⟨.done (Value.withSpan_move f hbare.symm t.span), hs⟩
  | .assign name value => by
    rw [Tree.evaluate, Tree.move, Tree.evaluate]
    refine .bind value.carries_move fun v _ hv => ?_
    subst hv
    refine .bind (.assign _ (v.bare_move f).symm) fun _ _ _ => ?_
    refine .bind (.note 2 ?_) fun _ _ _ => .pure rfl
    simp only [Value.text?_move]
    rfl
  | .unary op operand => by
    rw [Tree.evaluate, Tree.move, Tree.evaluate]
    refine .bind operand.carries_move fun v v' hv => .bind (.datumOf operand hv) fun x _ hx => ?_
    subst hx
    refine .bind (.orFault _ _) fun d _ hd => ?_
    subst hd
    refine .bind (.placed ((Tree.unary op operand).span?_move f)) fun span _ hspan => ?_
    subst hspan
    exact .pure rfl
  | .binary op left right => by
    rw [Tree.evaluate, Tree.move, Tree.evaluate]
    refine .bind left.carries_move fun x x' hx => .bind right.carries_move fun y y' hy => ?_
    refine .bind (.datumOf left hx) fun x _ hx => .bind (.datumOf right hy) fun y _ hy => ?_
    subst hx hy
    refine .bind (.binary _ x y right) fun d _ hd => ?_
    subst hd
    refine .bind (.placed ((Tree.binary op left right).span?_move f)) fun span _ hspan => ?_
    subst hspan
    exact .pure rfl
  | .conditional branches otherwise => by
    have hotherwise := otherwise.carries_move
    unfold Tree.move Tree.evaluate
    refine .bind branches.carries_move fun o _ ho => ?_
    subst ho
    cases o with
    | some v => exact .pure rfl
    | none =>
      cases otherwise with
      | absent => exact .pure rfl
      | _ => exact hotherwise
  | .forLoop name first last stride body => by
    rw [Tree.evaluate, Tree.move, Tree.evaluate]
    refine .bind (.bound first first.carries_move) fun i _ hi => ?_
    refine .bind (.bound last last.carries_move) fun limit _ hlimit => ?_
    refine .bind (.bound stride stride.carries_move) fun step _ hstep => ?_
    subst hi hlimit hstep
    refine .bind (.note 2 rfl) fun _ _ _ => ?_
    refine .bind (.iterate (fun i => ?_) _ i) fun _ _ _ => .pure rfl
    refine .bind (.proceeds i limit step) fun b _ hb => ?_
    subst hb
    split
    · refine .bind (.tick (.forLoop name first last stride body)) fun _ _ _ => ?_
      refine .bind (.assign _ rfl) fun _ _ _ => .bind (.note 3 rfl) fun _ _ _ => ?_
      refine .bind (.successor i step) fun next _ hnext => ?_
      subst hnext
      exact .bind body.carries_move fun _ _ _ => .pure rfl
    · exact .pure rfl
  | .whileLoop condition body => by
    rw [Tree.evaluate, Tree.move, Tree.evaluate]
    refine .bind (.iterate (fun _ => ?_) _ ()) fun _ _ _ => .pure rfl
    refine .bind condition.carries_move fun v _ hv => ?_
    subst hv
    refine .bind (.note 3 ?_) fun _ _ _ => ?_
    · simp only [conditionText, Value.text?_move, Value.isTrue_move]
    rw [Value.isTrue_move]
    split
    · refine .bind (.tick (.whileLoop condition body)) fun _ _ _ => ?_
      exact .bind body.carries_move fun _ _ _ => .pure rfl
    · exact .pure rfl

theorem Branches.carries_move : ∀ b : Branches,
    Carries f (fun o o' => o' = o.map (Value.move f)) (b.evaluate set) ((b.move f).evaluate set)
  | .nil => .pure rfl
  | .cons condition body rest => by
    rw [Branches.evaluate, Branches.move, Branches.evaluate]
    refine .bind condition.carries_move fun v _ hv => ?_
    subst hv
    refine .bind (.note 3 ?_) fun _ _ _ => ?_
    · simp only [conditionText, Value.text?_move, Value.isTrue_move]
    rw [Value.isTrue_move]
    split
    · refine .bind body.carries_move fun w _ hw => ?_
      subst hw
      exact .pure rfl
    · exact rest.carries_move

end

end

end Reckoner
