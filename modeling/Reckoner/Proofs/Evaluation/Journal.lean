import Reckoner.Proofs.Evaluation.Origin
import Reckoner.Proofs.Session

/-!
# The bindings of an evaluation

`Tree.writes` lists what an evaluation binds, in order, those bindings included that later ones
replace and those of an evaluation that does not come to a result. The environment at its end is
the one at its start with these bindings made (`Tree.records_writes`), and each of them is that of
an assignment or a pass of a counted loop (`Tree.made_of_mem_writes`). So the span of a datum that
is bound is known from the tree (`Session.execute_spans`).
-/

set_option autoImplicit false

namespace Reckoner

open Eval

/-! ## Journals -/

/-- A binding that an evaluation makes. -/
structure Write where
  /-- the assignment or the counted loop that makes it -/
  site : Tree
  /-- the state from which the assignment is evaluated, or in which the variable is bound -/
  before : State
  name : Name
  value : Value

/-- The bindings that an evaluation makes, in order, by the state that it is started in. -/
def Journal : Type := State → List Write

/-- The environment after some bindings. -/
def Environment.replay (e : Environment) (ws : List Write) : Environment :=
  ws.foldl (fun e w => e.set w.name w.value) e

theorem Environment.replay_append (e : Environment) (ws ws' : List Write) :
    e.replay (ws ++ ws') = (e.replay ws).replay ws' :=
  List.foldl_append

namespace Eval

variable {α β σ : Type}

/-- The journal of a step that binds nothing. -/
def silent : Journal := fun _ => []

/-- The journal of what comes after a step that binds nothing. -/
def after (m : Eval α) (k : α → Journal) : Journal := fun s =>
  match m s with
  | (.done a, s) => k a s
  | _ => []

/-- The journal of a step that has the journal `j`, and of what comes after it. -/
def andAfter (j : Journal) (m : Eval α) (k : α → Journal) : Journal := fun s => j s ++ m.after k s

/-- The journal of a loop whose passes have these journals. -/
def eachPass : Nat → (σ → Eval (Option σ)) → (σ → Journal) → σ → Journal
  | 0, _, _, _ => silent
  | n + 1, pass, j, i => andAfter (j i) (pass i) fun o => o.elim silent (eachPass n pass j)

end Eval

/-! ## Passes of loops -/

section

variable (set : Settings)

/-- What a counted loop writes to the trace before its first pass. -/
def Eval.announce (name : Token) (i limit step : Datum) : Eval Unit :=
  note set 2 fun _ => do
    return "for " ++ (← name.name.text?) ++ " = " ++ (← i.display?) ++ " upto " ++
      (← limit.display?) ++ " step " ++ (← step.display?)

/-- What a pass of a counted loop does between the tick and the body. -/
def Eval.enter (name : Token) (i step : Datum) : Eval Datum := do
  Eval.assign name.name (.datum i name.span)
  note set 3 fun _ => do
    return "for iteration " ++ (← name.name.text?) ++ " = " ++ (← i.display?)
  successor i step

/-- One pass of the counted loop `t`. -/
def Tree.forPass (t : Tree) (name : Token) (body : Tree) (limit step : Datum) :
    Datum → Eval (Option Datum) := fun i => do
  if ← proceeds i limit step then
    tick set t
    Eval.assign name.name (.datum i name.span)
    note set 3 fun _ => do
      return "for iteration " ++ (← name.name.text?) ++ " = " ++ (← i.display?)
    let next ← successor i step
    let _ ← body.evaluate set
    pure (some next)
  else pure none

theorem Tree.forPass_eq (t : Tree) (name : Token) (body : Tree) (limit step i : Datum) :
    forPass set t name body limit step i = (do
      if ← proceeds i limit step then
        tick set t
        let next ← enter set name i step
        let _ ← body.evaluate set
        pure (some next)
      else pure none) := by
  simp only [forPass, enter, bind_assoc]

/-- One pass of a conditional loop. -/
def Tree.whilePass (condition body : Tree) (_ : Unit) : Eval (Option Unit) := do
  let v ← condition.evaluate set
  note set 3 fun _ => conditionText "while" v
  if v.isTrue then
    tick set (.whileLoop condition body)
    let _ ← body.evaluate set
    pure (some ())
  else pure none

theorem Tree.evaluate_forLoop (name : Token) (first last stride body : Tree) :
    (forLoop name first last stride body).evaluate set = (do
      let i ← bound set first (first.evaluate set)
      let limit ← bound set last (last.evaluate set)
      let step ← bound set stride (stride.evaluate set)
      announce set name i limit step
      iterate set.passes (forPass set (.forLoop name first last stride body) name body limit step) i
      pure .nothing) := by
  rw [evaluate]
  rfl

theorem Tree.evaluate_whileLoop (condition body : Tree) :
    (whileLoop condition body).evaluate set = (do
      iterate set.passes (whilePass set condition body) ()
      pure .nothing) := by
  rw [evaluate]
  rfl

/-! ## The journal of a tree -/

/-- The journal of a pass of the counted loop `t`, given that of the body. -/
def Tree.forWrites (t : Tree) (name : Token) (body : Journal) (limit step i : Datum) : Journal :=
  (proceeds i limit step).after fun goesOn =>
    if goesOn then (tick set t).after fun _ =>
      andAfter (fun s => [⟨t, s, name.name, .datum i name.span⟩]) (enter set name i step)
        fun _ => body
    else silent

mutual

/-- What evaluating the tree binds. The steps are those of `Tree.evaluate`, and each has its journal
from the state in which it is taken there. -/
def Tree.writes : Tree → Journal
  | .absent | .literal _ | .ident _ => silent
  | .assign name value => fun s =>
    andAfter value.writes (value.evaluate set) (fun v _ => [⟨.assign name value, s, name.name, v⟩]) s
  | .unary _ operand => operand.writes
  | .binary _ left right => andAfter left.writes (left.evaluate set) fun _ => right.writes
  | .conditional branches otherwise =>
    andAfter branches.writes (branches.evaluate set) fun o =>
      o.elim otherwise.writes fun _ => silent
  | .forLoop name first last stride body =>
    andAfter first.writes (bound set first (first.evaluate set)) fun i =>
      andAfter last.writes (bound set last (last.evaluate set)) fun limit =>
        andAfter stride.writes (bound set stride (stride.evaluate set)) fun step =>
          (announce set name i limit step).after fun _ =>
            let loop : Tree := .forLoop name first last stride body
            eachPass set.passes (Tree.forPass set loop name body limit step)
              (Tree.forWrites set loop name body.writes limit step) i
  | .whileLoop condition body =>
    eachPass set.passes (Tree.whilePass set condition body) (fun _ =>
      andAfter condition.writes (condition.evaluate set) fun v =>
        (note set 3 fun _ => conditionText "while" v).after fun _ =>
          if v.isTrue then (tick set (.whileLoop condition body)).after fun _ => body.writes
          else silent) ()

def Branches.writes : Branches → Journal
  | .nil => silent
  | .cons condition body rest =>
    andAfter condition.writes (condition.evaluate set) fun v =>
      (note set 3 fun _ => conditionText "if" v).after fun _ =>
        if v.isTrue then body.writes else rest.writes

end

end

/-! ## Replaying a journal -/

namespace Eval

variable {α β σ : Type} {set : Settings} {s : State}

/-- The environment at the end of the step, however it ends, is the one at its start with these
bindings made. -/
def Records (m : Eval α) (s : State) (ws : List Write) : Prop :=
  (m s).2.environment = s.environment.replay ws

theorem Records.bind {m : Eval α} {f : α → Eval β} {j : Journal} {k : α → Journal}
    (hm : m.Records s (j s)) (hf : ∀ a s', (f a).Records s' (k a s')) :
    (m >>= f).Records s (andAfter j m k s) := by
  show (Eval.bind m f s).2.environment = s.environment.replay (j s ++ m.after k s)
  rw [Environment.replay_append, ← show _ = s.environment.replay (j s) from hm]
  unfold Eval.bind after
  rcases m s with ⟨a | _ | _ | _, s₁⟩
  · exact hf a s₁
  all_goals rfl

theorem Records.after {m : Eval α} {f : α → Eval β} {k : α → Journal} (hm : m.Records s [])
    (hf : ∀ a s', (f a).Records s' (k a s')) : (m >>= f).Records s (m.after k s) :=
  Records.bind (j := silent) hm hf

theorem Records.still {m : Eval α} (h : Still m) : m.Records s [] := by
  obtain ⟨o, ho⟩ := h
  rw [Records, ho s]
  rfl

/-- What comes after a step but binds nothing does not matter. -/
theorem Records.andThen {m : Eval α} {f : α → Eval β} {ws : List Write} (hm : m.Records s ws)
    (hf : ∀ a s', (f a).Records s' []) : (m >>= f).Records s ws := by
  show (Eval.bind m f s).2.environment = s.environment.replay ws
  rw [← show _ = s.environment.replay ws from hm]
  unfold Eval.bind
  rcases m s with ⟨a | _ | _ | _, s₁⟩
  · exact hf a s₁
  all_goals rfl

theorem records_note (level : Nat) (text : Unit → Option String) (s : State) :
    (note set level text).Records s [] := by
  unfold note
  split
  · split <;> rfl
  · rfl

theorem records_tick (t : Tree) (s : State) : (tick set t).Records s [] := by
  unfold tick
  refine .andThen rfl fun steps s₁ => ?_
  split
  · rfl
  · rfl
  · next limit _ =>
    -- whether the limit has a text is of no concern, and would be costly to compute
    generalize (Number.int limit).text? = text
    split
    · exact .still (.bind (.placed _) fun _ => .bind (.orFault _ text) fun _ => .diagnose _ _ _ _)
    · rfl

theorem records_iterate {pass : σ → Eval (Option σ)} {j : σ → Journal}
    (h : ∀ i s, (pass i).Records s (j i s)) (n : Nat) :
    ∀ i s, (iterate n pass i).Records s (eachPass n pass j i s) := by
  induction n with
  | zero => exact fun _ _ => rfl
  | succ n ih =>
    intro i s
    rw [iterate_succ]
    refine .bind (h i s) fun o s₁ => ?_
    cases o with
    | none => rfl
    | some i => exact ih i s₁

theorem records_bound {value : Eval Value} {ws : List Write} (t : Tree)
    (h : value.Records s ws) (ht : t = .absent → ws = []) :
    (bound set t value).Records s ws := by
  -- a bound that is left out is not evaluated, and its journal is empty all the same
  by_cases hpresent : t = .absent
  · subst hpresent
    rw [ht rfl]
    rfl
  · rw [bound_of_present hpresent]
    exact h.andThen fun v _ => .still (still_datumOf set t v)

theorem records_enter (t : Tree) (name : Token) (i step : Datum) (s : State) :
    (enter set name i step).Records s [⟨t, s, name.name, .datum i name.span⟩] := by
  refine Records.andThen (m := Eval.assign _ _) rfl fun _ s₁ => ?_
  exact (records_note _ _ s₁).andThen fun _ _ => .still (still_successor i step)

theorem records_forPass {t : Tree} {name : Token} {body : Tree} {j : Journal}
    (h : ∀ s, (body.evaluate set).Records s (j s)) (limit step i : Datum) (s : State) :
    (Tree.forPass set t name body limit step i).Records s
      (Tree.forWrites set t name j limit step i s) := by
  rw [Tree.forPass_eq]
  refine .after (.still (still_proceeds i limit step)) fun goesOn s₁ => ?_
  cases goesOn with
  | false => rfl
  | true =>
    refine .after (records_tick t s₁) fun _ s₂ => ?_
    refine .bind (records_enter t name i step s₂) fun next s₃ => ?_
    exact (h s₃).andThen fun _ _ => rfl

end Eval

section

variable {set : Settings}

mutual

/-- However an evaluation ends, the environment is the one it started with and the bindings of its
journal made. -/
theorem Tree.records_writes : ∀ (t : Tree) (s : State),
    (t.evaluate set).Records s (t.writes set s)
  | .absent, _ | .literal _, _ => rfl
  | .ident t, s => by
    rw [Records, evaluate_ident]
    cases (s.environment.get? t.name).map (·.withSpan t.span) with
    | some v => rfl
    | none => exact Records.still (still_unbound set t)
  | .assign name value, s => by
    rw [Tree.evaluate]
    refine .bind (value.records_writes s) fun v s₁ => ?_
    refine Records.andThen (m := Eval.assign _ _) rfl fun _ s₂ => ?_
    exact (records_note _ _ s₂).andThen fun _ _ => rfl
  | .unary op operand, s => by
    rw [Tree.evaluate]
    refine (operand.records_writes s).andThen fun v _ => .still ?_
    refine .bind (still_datumOf set operand v) fun x => .bind (.orFault _ _) fun d => ?_
    exact .bind (.placed _) fun _ => .pure _
  | .binary op left right, s => by
    rw [Tree.evaluate]
    refine .bind (left.records_writes s) fun x s₁ => ?_
    refine (right.records_writes s₁).andThen fun y _ => .still ?_
    refine .bind (still_datumOf set left x) fun x => .bind (still_datumOf set right y) fun y => ?_
    refine .bind (still_binary set op.operatorKey x y right) fun d => ?_
    exact .bind (.placed _) fun _ => .pure _
  | .conditional branches otherwise, s => by
    rw [Tree.evaluate_conditional]
    refine .bind (branches.records_writes s) fun o s₁ => ?_
    cases o with
    | some v => rfl
    | none =>
      have ho := otherwise.records_writes s₁
      by_cases h : otherwise = .absent
      · rw [h]
        rfl
      · rw [← Tree.evaluateElse_of_present set h] at ho
        exact ho
  | .forLoop name first last stride body, s => by
    rw [Tree.evaluate_forLoop]
    refine .bind (records_bound first (first.records_writes s) (· ▸ rfl)) fun i s₁ => ?_
    refine .bind (records_bound last (last.records_writes s₁) (· ▸ rfl)) fun limit s₂ => ?_
    refine .bind (records_bound stride (stride.records_writes s₂) (· ▸ rfl)) fun step s₃ => ?_
    refine .after (records_note _ _ s₃) fun _ s₄ => ?_
    refine .andThen ?_ fun _ _ => rfl
    exact records_iterate (records_forPass body.records_writes limit step) set.passes i s₄
  | .whileLoop condition body, s => by
    rw [Tree.evaluate_whileLoop]
    refine .andThen (records_iterate (fun _ s => ?_) set.passes () s) fun _ _ => rfl
    refine .bind (condition.records_writes s) fun v s₁ => ?_
    refine .after (records_note _ _ s₁) fun _ s₂ => ?_
    by_cases hv : v.isTrue = true
    · rw [if_pos hv, if_pos hv]
      refine .after (records_tick _ s₂) fun _ s₃ => ?_
      exact (body.records_writes s₃).andThen fun _ _ => rfl
    · rw [if_neg hv, if_neg hv]
      rfl

theorem Branches.records_writes : ∀ (b : Branches) (s : State),
    (b.evaluate set).Records s (b.writes set s)
  | .nil, _ => rfl
  | .cons condition body rest, s => by
    rw [Branches.evaluate]
    refine .bind (condition.records_writes s) fun v s₁ => ?_
    refine .after (records_note _ _ s₁) fun _ s₂ => ?_
    by_cases hv : v.isTrue = true
    · rw [if_pos hv, if_pos hv]
      exact (body.records_writes s₂).andThen fun _ _ => rfl
    · rw [if_neg hv, if_neg hv]
      exact rest.records_writes s₂

end

end

/-! ## Who makes a binding -/

/-- The binding is that of a part of the tree `root`: of an assignment, whose value came of
evaluating what is assigned, or of a pass of a counted loop. -/
inductive Write.Made (set : Settings) (root : Tree) : Write → Prop where
  | assigned {name : Token} {value : Tree} {s s' : State} {v : Value}
      (h : .assign name value ∈ root.nodes) (hv : value.evaluate set s = (.done v, s')) :
      Made set root ⟨.assign name value, s, name.name, v⟩
  | counted {name : Token} {first last stride body : Tree}
      (h : .forLoop name first last stride body ∈ root.nodes) (s : State) (i : Datum) :
      Made set root ⟨.forLoop name first last stride body, s, name.name, .datum i name.span⟩

namespace Journal

variable {α β σ : Type} {P : Write → Prop}

/-- Every binding that the journal lists is one of these. -/
def All (P : Write → Prop) (j : Journal) : Prop := ∀ s, ∀ w ∈ j s, P w

theorem all_silent : All P silent := fun _ => List.forall_mem_nil _

theorem all_after {m : Eval α} {k : α → Journal} (hk : ∀ a, (k a).All P) : (m.after k).All P := by
  intro s
  unfold after
  rcases m s with ⟨a | _ | _ | _, s₁⟩
  · exact hk a s₁
  all_goals exact List.forall_mem_nil _

theorem all_andAfter {j : Journal} {m : Eval α} {k : α → Journal} (hj : j.All P)
    (hk : ∀ a, (k a).All P) : (andAfter j m k).All P := by
  intro s
  unfold andAfter
  rw [List.forall_mem_append]
  exact ⟨hj s, all_after hk s⟩

theorem all_eachPass {pass : σ → Eval (Option σ)} {j : σ → Journal} (h : ∀ i, (j i).All P)
    (n : Nat) : ∀ i, (eachPass n pass j i).All P := by
  induction n with
  | zero => exact fun _ => all_silent
  | succ n ih =>
    refine fun i => all_andAfter (h i) fun o => ?_
    cases o with
    | none => exact all_silent
    | some i => exact ih i

theorem all_ite {c : Prop} [Decidable c] {j k : Journal} (hj : j.All P) (hk : k.All P) :
    (if c then j else k).All P := by
  split
  · exact hj
  · exact hk

end Journal

open Journal

section

variable {set : Settings} {root : Tree}

theorem made_assign {name : Token} {value : Tree} (h : .assign name value ∈ root.nodes)
    (hv : (value.writes set).All (Write.Made set root)) :
    ((Tree.assign name value).writes set).All (Write.Made set root) := by
  intro s
  unfold Tree.writes andAfter after
  rw [List.forall_mem_append]
  refine ⟨hv s, ?_⟩
  cases hval : value.evaluate set s with
  | mk o s₁ =>
    cases o with
    | done v => exact List.forall_mem_singleton.2 (.assigned h hval)
    | _ => exact List.forall_mem_nil _

mutual

/-- Each binding of a journal is made by an assignment or a counted loop of the tree. -/
theorem Tree.made_writes : ∀ t : Tree, t.nodes ⊆ root.nodes →
    (t.writes set).All (Write.Made set root)
  | .absent, _ | .literal _, _ | .ident _, _ => all_silent
  | .assign name value, hn => by
    have hself := hn (.head _)
    rw [Tree.nodes, List.cons_subset] at hn
    exact made_assign hself (value.made_writes hn.2)
  | .unary op operand, hn => by
    rw [Tree.nodes, List.cons_subset] at hn
    exact operand.made_writes hn.2
  | .binary op left right, hn => by
    rw [Tree.nodes, List.cons_subset, List.append_subset] at hn
    exact all_andAfter (left.made_writes hn.2.1) fun _ => right.made_writes hn.2.2
  | .conditional branches otherwise, hn => by
    rw [Tree.nodes, List.cons_subset, List.append_subset] at hn
    refine all_andAfter (branches.made_writes hn.2.1) fun o => ?_
    cases o with
    | none => exact otherwise.made_writes hn.2.2
    | some v => exact all_silent
  | .forLoop name first last stride body, hn => by
    have hself := hn (.head _)
    rw [Tree.nodes, List.cons_subset, List.append_subset, List.append_subset,
      List.append_subset] at hn
    obtain ⟨-, ⟨⟨hf, hl⟩, hs⟩, hb⟩ := hn
    refine all_andAfter (first.made_writes hf) fun i => ?_
    refine all_andAfter (last.made_writes hl) fun limit => ?_
    refine all_andAfter (stride.made_writes hs) fun step => all_after fun _ => ?_
    refine all_eachPass (fun i => all_after fun goesOn => ?_) set.passes i
    refine all_ite (all_after fun _ => all_andAfter (fun s => ?_) fun _ => body.made_writes hb)
      all_silent
    exact List.forall_mem_singleton.2 (.counted hself s i)
  | .whileLoop condition body, hn => by
    rw [Tree.nodes, List.cons_subset, List.append_subset] at hn
    refine all_eachPass (fun _ => ?_) set.passes ()
    refine all_andAfter (condition.made_writes hn.2.1) fun v => all_after fun _ => ?_
    exact all_ite (all_after fun _ => body.made_writes hn.2.2) all_silent

theorem Branches.made_writes : ∀ b : Branches, b.nodes ⊆ root.nodes →
    (b.writes set).All (Write.Made set root)
  | .nil, _ => all_silent
  | .cons condition body rest, hn => by
    rw [Branches.nodes, List.append_subset, List.append_subset] at hn
    refine all_andAfter (condition.made_writes hn.1.1) fun v => all_after fun _ => ?_
    exact all_ite (body.made_writes hn.1.2) (rest.made_writes hn.2)

end

end

/-! ## Whole evaluations -/

namespace Eval

variable {set : Settings} {t : Tree} {s : State}

theorem execute_done {v : Value} (h : (execute set t s).1 = .done v) :
    ∃ s', t.evaluate set { s with steps := 0 } = (.done v, s') := by
  unfold execute at h
  rcases ht : t.evaluate set { s with steps := 0 } with ⟨w | _ | _ | _, s₁⟩ <;> rw [ht] at h
  · obtain ⟨_, s₂, -, hw⟩ := bind_eq_done.1 (Prod.ext h rfl)
    exact ⟨s₁, by rw [(pure_eq_done.1 hw).1]⟩
  · obtain ⟨_, s₂, -, hw⟩ := bind_eq_done.1 (Prod.ext h rfl)
    cases hw
  · cases h
  · cases h

theorem records_execute (set : Settings) (t : Tree) (s : State) :
    (execute set t s).2.environment =
      s.environment.replay (t.writes set { s with steps := 0 }) := by
  have h : (t.evaluate set).Records { s with steps := 0 } _ := t.records_writes _
  rw [← show _ = s.environment.replay _ from h]
  unfold execute
  rcases t.evaluate set { s with steps := 0 } with ⟨w | d | _ | _, s₁⟩
  · exact (records_note _ _ s₁).andThen fun _ _ => rfl
  · exact (records_note _ _ s₁).andThen fun _ _ => rfl
  · rfl
  · rfl

end Eval

namespace Session

/-- The state from which the session evaluates a tree. -/
def outset (s : Session) : State := { environment := s.environment }

/-- Whatever spans the values in the environment have, the datum that an evaluation comes to has
the span of the part of the tree that it comes from. However the evaluation ends, it leaves the
environment with the bindings of its journal made. Each of them is made by an assignment in the
tree, and its datum has the span of the part of what is assigned that it comes from, or by a
counted loop, and its datum has the span of the variable. -/
theorem execute_spans (s : Session) (patience : Nat) (t : Tree) :
    (∀ d span, (s.execute patience t).1.outcome = .done (.datum d span) →
        t.Places (s.settings patience) s.outset span) ∧
      (s.execute patience t).2.environment =
        s.environment.replay (t.writes (s.settings patience) s.outset) ∧
      ∀ w ∈ t.writes (s.settings patience) s.outset, w.site ∈ t.nodes ∧
        ∀ d span, w.value = .datum d span →
          (∃ name value, w.site = .assign name value ∧ w.name = name.name ∧
              (value.evaluate (s.settings patience) w.before).1 = .done w.value ∧
              value.Places (s.settings patience) w.before span) ∨
            ∃ name first last stride body, w.site = .forLoop name first last stride body ∧
              w.name = name.name ∧ span = name.span := by
  refine ⟨fun d span h => ?_, records_execute _ t s.start, fun w hw => ?_⟩
  · obtain ⟨s', h⟩ := execute_done (s := s.start) h
    exact Tree.places_evaluate h
  · cases Tree.made_writes t (fun _ h => h) s.outset w hw with
    | assigned hsite hv =>
      refine ⟨hsite, fun d span hd => .inl ⟨_, _, rfl, rfl, by rw [hv], ?_⟩⟩
      cases hd
      exact Tree.places_evaluate hv
    | counted hsite s i =>
      refine ⟨hsite, fun d span hd => .inr ⟨_, _, _, _, _, rfl, rfl, ?_⟩⟩
      cases hd
      rfl

/-- `IF a DO VAR b = a` -/
def rereading : Tree :=
  let token (name : String) (i : Int) : Token :=
    ⟨.known .identifier, .text name, ⟨some ⟨i, 0, i, "here"⟩, some ⟨i + 1, 0, i + 1, "here"⟩⟩, rfl⟩
  .conditional (.cons (.ident (token "a" 3)) (.assign (token "b" 14) (.ident (token "a" 18))) .nil)
    .absent

/-- What another text bound to `a` has the span of the second `a` here, and so has `b`. -/
theorem rereading_spans :
    let stale := Value.datum (.number (.int 5)) ⟨some (.first "there"), some (.first "there")⟩
    let s : Session := { environment := ({} : Environment).set "a" stale }
    let span : Span := ⟨some ⟨18, 0, 18, "here"⟩, some ⟨19, 0, 19, "here"⟩⟩
    (s.execute 0 rereading).1.outcome = .done (.datum (.number (.int 5)) span) ∧
      rereading.Places (s.settings 0) s.outset span ∧
      (s.execute 0 rereading).2.environment.get? "b" = some (.datum (.number (.int 5)) span) := by
  refine ⟨by decide +kernel, (execute_spans _ 0 rereading).1 (.number (.int 5)) _ ?_,
    by decide +kernel⟩
  decide +kernel

end Session

end Reckoner
