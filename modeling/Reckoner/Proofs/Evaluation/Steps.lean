import Reckoner.Proofs.Evaluation.Logic
import Reckoner.Proofs.Evaluation.Numeric
import Reckoner.Proofs.Tree.Regular

/-!
# Counting loop passes

Under a budget, an evaluation makes at most so many passes as the budget allows, all loops
together, and is diagnosed at the first one over it (`Tree.Regular.counts`). A loop ends because
each of its passes but the last is counted (`Advances`): what is left of the budget bounds the
passes left.
-/

set_option autoImplicit false

namespace Reckoner

/-- The state with one more pass counted. -/
def State.counted (s : State) : State := { s with steps := s.steps + 1 }

namespace Eval

/-- Where a step ends without a result, one pass over the budget was counted if it was
diagnosed for that, and none over it otherwise, unless there is no way to tell the limit. No loop
is given up. -/
def countedExits (limit : Nat) (mute : Bool := false) : Exits where
  diagnosed d s := if d.kind = .stepLimit then s.steps = limit + 1 else s.steps ≤ limit
  faulted _ s := mute = true ∨ s.steps ≤ limit
  unfinished _ := False

/-- At least `k` passes were made, and the budget is not exceeded. -/
def Within (k limit : Nat) (s : State) : Prop := k ≤ s.steps ∧ s.steps ≤ limit

/-- The step keeps to a budget of `n` passes, and counts nothing back. -/
def Counts {α : Type} (n : Int) (m : Eval α) : Prop :=
  ∀ k, m.Keeps (Within k n.toNat) (countedExits n.toNat (Number.tooLong n)) fun _ => True

/-- The same of a pass of a loop, which counts something unless it is the last. -/
def Advances {σ : Type} (n : Int) (m : Eval (Option σ)) : Prop :=
  ∀ s, s.steps ≤ n.toNat → m.Ends (countedExits n.toNat (Number.tooLong n)) s fun o s' =>
    Within s.steps n.toNat s' ∧ (o.isSome = true → s.steps < s'.steps)

/-- What the number of passes says of how the step ended. -/
theorem Ends.steps {α : Type} {limit : Nat} {m : Eval α} {s : State}
    (h : m.Ends (countedExits limit) s fun _ s' => s'.steps ≤ limit) :
    (m s).1 ≠ .unfinished ∧ (m s).2.steps ≤ limit + 1 ∧
      ((m s).2.steps = limit + 1 ↔ ∃ d, (m s).1 = .diagnosed d ∧ d.kind = .stepLimit) := by
  have kept : ∀ (o : Outcome α) (k : Nat), k ≤ limit → o ≠ .unfinished →
      (∀ d, o = .diagnosed d → d.kind ≠ .stepLimit) →
      o ≠ .unfinished ∧ k ≤ limit + 1 ∧
        (k = limit + 1 ↔ ∃ d, o = .diagnosed d ∧ d.kind = .stepLimit) := by
    intro o k hk ho hd
    refine ⟨ho, by omega, by omega, ?_⟩
    rintro ⟨d, hod, hkind⟩
    exact absurd hkind (hd d hod)
  unfold Ends at h
  generalize m s = x at h ⊢
  rcases x with ⟨a | d | f | _, s'⟩
  · exact kept _ _ h (by simp) (by simp)
  · have hs : if d.kind = .stepLimit then s'.steps = limit + 1 else s'.steps ≤ limit := h
    split at hs
    next hk => exact ⟨by simp, Nat.le_of_eq hs, fun _ => ⟨d, rfl, hk⟩, fun _ => hs⟩
    next hk => exact kept _ _ hs (by simp) fun d' hd' => by cases hd'; exact hk
  · exact kept _ _ (h.resolve_left nofun) (by simp) (by simp)
  · exact h.elim

section

variable {α β σ : Type} {n : Int}

theorem Counts.pure (a : α) : Counts n (Pure.pure a : Eval α) := fun _ => .pure trivial

theorem Counts.bind {m : Eval α} {f : α → Eval β} (hm : Counts n m)
    (hf : ∀ a, Counts n (f a)) : Counts n (m >>= f) :=
  fun k => .bind (hm k) fun a _ => hf a k

theorem Counts.faulted (f : Fault) : Counts n (Eval.faulted f : Eval α) :=
  fun _ => .faulted fun _ h => .inr h.2

theorem Counts.orFault (f : Fault) (o : Option α) : Counts n (Eval.orFault f o) := by
  cases o with
  | none => exact .faulted f
  | some a => exact .pure a

theorem Counts.placed (r : Except Unplaced α) : Counts n (Eval.placed r) := by
  cases r with
  | ok a => exact .pure a
  | error why => exact .faulted _

theorem Counts.note (set : Settings) (level : Nat) (text : Unit → Option String) :
    Counts n (Eval.note set level text) := by
  unfold Eval.note
  split
  · split
    · exact fun k s hs => ⟨trivial, hs⟩
    · exact .faulted _
  · exact .pure ()

theorem Counts.assign (name : Name) (v : Value) : Counts n (Eval.assign name v) :=
  fun _ _ hs => ⟨trivial, hs⟩

theorem Counts.diagnosed {d : Diagnostic} (h : d.kind ≠ .stepLimit) :
    Counts n (Eval.diagnosed d : Eval α) := by
  refine fun k => .diagnosed fun s hs => ?_
  simp only [countedExits, if_neg h]
  exact hs.2

theorem Counts.diagnose (set : Settings) {kind : Diagnostic.Kind} (t : Tree) (details : String)
    (h : kind ≠ .stepLimit) : Counts n (Eval.diagnose set kind t details : Eval α) :=
  .bind (.placed _) fun _ => .diagnosed h

/-! ## Loops -/

theorem Advances.last : Advances n (Pure.pure none : Eval (Option σ)) :=
  fun _ hs => ⟨⟨Nat.le_refl _, hs⟩, nofun⟩

theorem Advances.bind {m : Eval α} {f : α → Eval (Option σ)} (hm : Counts n m)
    (hf : ∀ a, Advances n (f a)) : Advances n (m >>= f) := by
  intro s hs
  refine Ends.bind ((hm s.steps s ⟨Nat.le_refl _, hs⟩).mono fun a s₁ h₁ => ?_)
  obtain ⟨-, hle, hlimit⟩ := h₁
  refine (hf a s₁ hlimit).mono fun o s₂ h₂ => ?_
  obtain ⟨⟨hle', hlimit'⟩, hsome⟩ := h₂
  exact ⟨⟨by omega, hlimit'⟩, fun ho => by have := hsome ho; omega⟩

theorem tick_unlimited {set : Settings} (hb : set.budget = .unlimited) (t : Tree) (s : State) :
    tick set t s = (.done (), s.counted) := by
  obtain ⟨budget⟩ := set
  cases hb
  rfl

theorem tick_within {set : Settings} (hb : set.budget = .passes n) (t : Tree) {s : State}
    (h : s.steps < n.toNat) : tick set t s = (.done (), s.counted) := by
  obtain ⟨budget⟩ := set
  cases hb
  show (if n < (s.steps + 1 : Nat) then _ else _ : Eval Unit) _ = _
  rw [if_neg (by omega)]
  rfl

/-- The pass that exceeds the budget is counted too. The limit is told if it can be written. -/
theorem tick_beyond {set : Settings} (hb : set.budget = .passes n) {t : Tree} {span : Span}
    (hspan : t.span? = .ok span) {start stop : Position} (hends : t.ends? = .ok (start, stop))
    {s : State} (h : n.toNat ≤ s.steps) :
    tick set t s = (match (Number.int n).text? with
      | some limit => .diagnosed
          ⟨.stepLimit, start, stop, "Step limit of " ++ limit ++ " exceeded", set.frames⟩
      | none => .faulted .oversizedInteger, s.counted) := by
  obtain ⟨budget⟩ := set
  cases hb
  show (if n < (s.steps + 1 : Nat) then _ else _ : Eval Unit) _ = _
  rw [if_pos (by omega), hspan]
  cases (Number.int n).text? with
  | none => rfl
  | some limit =>
    unfold diagnose
    rw [hends]
    rfl

/-- Counting a pass exceeds the budget by one, or leaves it. -/
theorem tick_ends {set : Settings} (hb : set.budget = .passes n) {t : Tree} {span : Span}
    (hspan : t.span? = .ok span) {ends : Position × Position} (hends : t.ends? = .ok ends)
    {s : State} (hs : s.steps ≤ n.toNat) :
    (tick set t).Ends (countedExits n.toNat (Number.tooLong n)) s fun _ s' =>
      s.steps < s'.steps ∧ s'.steps ≤ n.toNat := by
  unfold Ends
  rcases Nat.lt_or_ge s.steps n.toNat with h | h
  · rw [tick_within hb t h]
    exact ⟨Nat.lt_succ_self _, h⟩
  · rw [tick_beyond hb hspan hends h]
    cases hlong : Number.tooLong n with
    | false =>
      rw [Number.text?_int hlong]
      show s.steps + 1 = n.toNat + 1
      omega
    | true =>
      rw [Number.text?_tooLong hlong]
      exact .inl rfl

/-- A pass that is counted before anything else advances. -/
theorem Advances.tick {set : Settings} (hb : set.budget = .passes n) {P : Token → Prop}
    (hP : ∀ t, P t → t.Located) {t : Tree} (ht : t.Regular P) {f : Unit → Eval (Option σ)}
    (hf : ∀ a, Counts n (f a)) :
    Advances n (tick set t >>= f) := by
  obtain ⟨p, q, hspan⟩ := ht.span hP
  obtain ⟨ends, hends⟩ := ht.ends hP
  intro s hs
  refine Ends.bind ((tick_ends hb hspan hends hs).mono fun a s₁ h₁ => ?_)
  obtain ⟨hlt, hlimit⟩ := h₁
  refine (hf a s₁.steps s₁ ⟨Nat.le_refl _, hlimit⟩).mono fun o s₂ h₂ => ?_
  obtain ⟨-, hle, hlimit'⟩ := h₂
  exact ⟨⟨by omega, hlimit'⟩, fun _ => by omega⟩

/-- The passes counted and those left exceed the budget by two, so the loop is never given up. -/
theorem Counts.iterate {set : Settings} (hb : set.budget = .passes n)
    {pass : σ → Eval (Option σ)} (h : ∀ i, Advances n (pass i)) (i : σ) :
    Counts n (Eval.iterate set.passes pass i) := by
  intro k s hs
  have hpasses : set.passes = n.toNat + 2 := by rw [Settings.passes, hb]
  rw [hpasses]
  refine Ends.iterate (I := fun left _ s => Within k n.toNat s ∧ n.toNat + 2 ≤ s.steps + left)
    (fun left i s hi => ?_) (fun i s hi => ?_) _ i s ⟨hs, by omega⟩
  · obtain ⟨⟨hk, hlimit⟩, hleft⟩ := hi
    refine (h i s hlimit).mono fun o s' h' => ?_
    obtain ⟨⟨hle, hlimit'⟩, hsome⟩ := h'
    cases o with
    | none => exact ⟨trivial, by omega, hlimit'⟩
    | some i =>
      have := hsome rfl
      exact ⟨⟨by omega, hlimit'⟩, by omega⟩
  · obtain ⟨⟨hk, hlimit⟩, hleft⟩ := hi
    omega

end

/-! ## Steps of trees -/

section

variable {n : Int}

theorem counts_datumOf (set : Settings) (t : Tree) (v : Value) :
    Counts n (datumOf set t v) := by
  cases v with
  | datum d span => exact .pure d
  | nothing => exact .diagnose set t _ (by decide)

theorem counts_binary (set : Settings) (key x y : Datum) (right : Tree) :
    Counts n (Eval.binary set key x y right) := by
  refine .bind (.orFault _ _) fun op => ?_
  split
  · exact .pure _
  · exact .diagnose set right _ (by decide)
  · exact .faulted _

theorem counts_bound {set : Settings} {t : Tree} {value : Eval Value}
    (h : t = .absent ∨ Counts n value) : Counts n (bound set t value) := by
  rcases h with rfl | h
  · exact .pure _
  · unfold bound
    split
    · exact .pure _
    · exact .bind h fun v => counts_datumOf set t v

theorem counts_proceeds (i limit' step : Datum) : Counts n (proceeds i limit' step) := by
  refine .bind (.orFault _ _) fun b => ?_
  split
  · exact .orFault _ _
  · exact .orFault _ _

theorem counts_successor (i step : Datum) : Counts n (successor i step) := by
  unfold successor
  split
  · exact .pure _
  · exact .faulted _

end

end Eval

open Eval

section

variable {set : Settings} {n : Int} {P : Token → Prop}

mutual

/-- The passes of all loops in a tree are counted together. -/
theorem Tree.Regular.counts (hb : set.budget = .passes n)
    (hP : ∀ t, P t → t.Located) :
    ∀ {t : Tree}, t.Regular P → Counts n (t.evaluate set)
  | .literal t, _ => by
    rw [Tree.evaluate]
    exact .pure _
  | .ident t, _ => by
    rw [Tree.evaluate]
    refine .bind (fun _ _ hs => ⟨trivial, hs⟩) fun e => ?_
    split
    · exact .pure _
    · exact .bind (.orFault _ _) fun _ => .diagnose set _ _ (by decide)
  | .assign name value, h => by
    rw [Tree.evaluate]
    refine .bind (Tree.Regular.counts hb hP (t := value) h.2) fun v => ?_
    exact .bind (.assign _ _) fun _ => .bind (.note _ _ _) fun _ => .pure _
  | .unary op operand, h => by
    rw [Tree.evaluate]
    refine .bind (Tree.Regular.counts hb hP (t := operand) h.2) fun v => ?_
    refine .bind (counts_datumOf set operand v) fun x => ?_
    exact .bind (.orFault _ _) fun _ => .bind (.placed _) fun _ => .pure _
  | .binary op left right, h => by
    rw [Tree.evaluate]
    refine .bind (Tree.Regular.counts hb hP (t := left) h.2.1) fun x => ?_
    refine .bind (Tree.Regular.counts hb hP (t := right) h.2.2) fun y => ?_
    refine .bind (counts_datumOf set left x) fun x => ?_
    refine .bind (counts_datumOf set right y) fun y => ?_
    exact .bind (counts_binary set _ x y right) fun _ => .bind (.placed _) fun _ => .pure _
  | .conditional branches otherwise, h => by
    have hbranches := Branches.Regular.counts hb hP (b := branches) h.1.2
    rcases h.2 with rfl | ho
    · rw [Tree.evaluate]
      refine .bind hbranches fun o => ?_
      cases o with
      | some v => exact .pure v
      | none => exact .pure _
    · rw [Tree.evaluate]
      · refine .bind hbranches fun o => ?_
        cases o with
        | some v => exact .pure v
        | none => exact Tree.Regular.counts hb hP (t := otherwise) ho
      · rintro rfl
        cases ho
  | .forLoop name first last stride body, h => by
    rw [Tree.evaluate]
    have ⟨_, ⟨hf, hl⟩, hs, hbody⟩ := h
    refine .bind (counts_bound (.inr (Tree.Regular.counts hb hP (t := first) hf))) fun i => ?_
    refine .bind (counts_bound (.inr (Tree.Regular.counts hb hP (t := last) hl))) fun limit => ?_
    refine .bind (counts_bound (hs.imp id (Tree.Regular.counts hb hP (t := stride))))
      fun step => ?_
    refine .bind (.note _ _ _) fun _ => ?_
    refine .bind (.iterate hb (fun i => ?_) i) fun _ => .pure _
    refine .bind (counts_proceeds i limit step) fun b => ?_
    split
    · refine .tick hb hP h fun _ => ?_
      refine .bind (.assign _ _) fun _ => ?_
      refine .bind (.note _ _ _) fun _ => ?_
      refine .bind (counts_successor i step) fun next => ?_
      exact .bind (Tree.Regular.counts hb hP (t := body) hbody) fun _ => .pure _
    · exact .last
  | .whileLoop condition body, h => by
    rw [Tree.evaluate]
    refine .bind (.iterate hb (fun _ => ?_) ()) fun _ => .pure _
    refine .bind (Tree.Regular.counts hb hP (t := condition) h.1) fun v => ?_
    refine .bind (.note _ _ _) fun _ => ?_
    split
    · refine .tick hb hP (t := .whileLoop condition body) h fun _ => ?_
      exact .bind (Tree.Regular.counts hb hP (t := body) h.2) fun _ => .pure _
    · exact .last

theorem Branches.Regular.counts (hb : set.budget = .passes n)
    (hP : ∀ t, P t → t.Located) :
    ∀ {b : Branches}, b.Regular P → Counts n (b.evaluate set)
  | .nil, _ => by
    rw [Branches.evaluate]
    exact .pure _
  | .cons condition body rest, h => by
    rw [Branches.evaluate]
    refine .bind (Tree.Regular.counts hb hP (t := condition) h.1.1) fun v => ?_
    refine .bind (.note _ _ _) fun _ => ?_
    split
    · exact .bind (Tree.Regular.counts hb hP (t := body) h.1.2) fun _ => .pure _
    · exact Branches.Regular.counts hb hP (b := rest) h.2

end

end

end Reckoner
