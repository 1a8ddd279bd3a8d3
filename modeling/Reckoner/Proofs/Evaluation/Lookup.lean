import Reckoner.Proofs.Evaluation.Invariant
import Reckoner.Proofs.Session

/-!
# What an evaluation sees of its environment

An evaluation depends on its environment only by what the names in the tree are looked up to,
the spans of the values left aside; and it changes two environments that look alike in the same
way (`Session.execute_lookups`). How the bindings are spread over scopes does not show: an
environment behaves as one flat scope with all that is visible in it (`Environment.flat`).
-/

set_option autoImplicit false

namespace Reckoner

/-! ## Looking up -/

/-- The value without the place that it came from. -/
def Value.bare (v : Value) : Value := v.withSpan .unknown

@[simp] theorem Value.withSpan_bare (v : Value) (span : Span) :
    v.bare.withSpan span = v.withSpan span := by
  cases v <;> rfl

namespace Environment

/-- What a name is bound to, the place of the value left aside. -/
def look (e : Environment) (name : Name) : Option Value := (e.get? name).map Value.bare

theorem look_set (e : Environment) (name other : Name) (v : Value) :
    (e.set name v).look other = if other == name then some v.bare else e.look other := by
  simp only [look, get?_set]
  split <;> rfl

/-- One scope with all bindings that are visible in an environment. -/
def flat (e : Environment) : Environment :=
  { current := (e.scopes.flatMap Bindings.entries).foldr (fun x b => b.set x.1 x.2) {} }

theorem get?_flat (e : Environment) (name : Name) : e.flat.get? name = e.get? name := by
  have hfold : ∀ entries : List (Name × Value),
      (entries.foldr (fun x b => b.set x.1 x.2) ({} : Bindings)).get? name =
        entries.lookup name := by
    intro entries
    induction entries with
    | nil => rfl
    | cons x rest ih =>
      rw [List.foldr_cons, Bindings.get?_set, ih, List.lookup_cons]
      cases name == x.1 <;> rfl
  have hscopes : ∀ scopes : List Bindings,
      (scopes.flatMap Bindings.entries).lookup name = scopes.findSome? (·.get? name) := by
    intro scopes
    induction scopes with
    | nil => rfl
    | cons b rest ih =>
      rw [List.flatMap_cons, List.lookup_append, ih, List.findSome?_cons]
      show (b.get? name).or _ = _
      cases b.get? name <;> rfl
  show (e.flat.scopes.findSome? fun b => b.get? name) = _
  rw [flat, scopes, List.findSome?_cons, hfold, hscopes]
  show _ = e.get? name
  rw [get?]
  cases e.scopes.findSome? fun b => b.get? name <;> rfl

theorem look_flat (e : Environment) (name : Name) : e.flat.look name = e.look name := by
  rw [look, get?_flat, look]

end Environment

/-! ## The names in a tree -/

/-- The name that a tree mentions itself, as an identifier or to bind it. -/
def Tree.mention? : Tree → Option Name
  | .ident t => some t.name
  | t => t.target?

/-- The names that a tree mentions in some part of it. -/
def Tree.names (t : Tree) : List Name := t.nodes.filterMap Tree.mention?

namespace Eval

/-! ## Two runs that look alike -/

/-- Two runs are the same but for what they cannot see of their environments. -/
def lookTie (names : List Name) : Tie where
  states s s' := (∀ name ∈ names, s.environment.look name = s'.environment.look name) ∧
    s.steps = s'.steps ∧ s.trace = s'.trace
  exits _ := .never

theorem lookTie_note (names : List Name) (set : Settings) (level : Nat)
    (text : Unit → Option String) :
    (lookTie names).Follows (note set level text) (note set level text) := by
  unfold note
  split
  · cases text () with
    | none => exact .still (.faulted _)
    | some line =>
      refine ⟨?_, fun _ => .refl _⟩
      rintro s s' ⟨hlook, hsteps, htrace⟩
      exact .inl ⟨rfl, hlook, hsteps, congrArg (·.push ⟨level, line⟩) htrace⟩
  · exact .pure ()

theorem lookTie_evaluates (set : Settings) (t : Tree) :
    (lookTie t.names).Evaluates set set t where
  frames := rfl
  passes := Nat.le_refl _
  givenUp h := absurd h (Nat.lt_irrefl _)
  look u hu := by
    rintro s s' ⟨hlook, -⟩
    have hname : u.name ∈ t.names := List.mem_filterMap.2 ⟨.ident u, hu, rfl⟩
    have hvalue := congrArg (Option.map (Value.withSpan · u.span)) (hlook u.name hname)
    simpa only [Environment.look, Option.map_map, Function.comp_def, Value.withSpan_bare]
      using hvalue
  assign name v := by
    refine ⟨?_, fun _ => .refl _⟩
    rintro s s' ⟨hlook, hrest⟩
    refine .inl ⟨rfl, fun other hother => ?_, hrest⟩
    show (s.environment.set name v).look other = (s'.environment.set name v).look other
    rw [Environment.look_set, Environment.look_set, hlook other hother]
  note level text _ := lookTie_note _ set level text
  tick u _ _ := by
    refine .tick ?_ (fun _ => .refl _) set u
    rintro s s' ⟨hlook, hsteps, htrace⟩
    exact ⟨hsteps, hlook, congrArg (· + 1) hsteps, htrace⟩

theorem lookTie_restarts (names : List Name) : (lookTie names).Restarts where
  states := by
    rintro s s' ⟨hlook, -, htrace⟩
    exact ⟨hlook, rfl, htrace⟩
  exits _ _ := rfl
  diagnosed _ _ _ h := h

end Eval

/-! ## Sessions -/

namespace Session

/-- The session with another environment. -/
def withEnvironment (s : Session) (e : Environment) : Session := { s with environment := e }

/-- Two evaluations come to the same and write the same, count as many passes and leave
environments in which the names look alike. -/
structure AlikeOn (names : List Name) (r r' : Answer × Session) : Prop where
  outcome : r.1.outcome = r'.1.outcome
  trace : r.1.trace = r'.1.trace
  steps : r.2.steps = r'.2.steps
  lookups : ∀ name ∈ names, r.2.environment.look name = r'.2.environment.look name

theorem alikeOn_execute (s : Session) (patience : Nat) (t : Tree) {e e' : Environment}
    (h : ∀ name ∈ t.names, e.look name = e'.look name) :
    AlikeOn t.names ((s.withEnvironment e).execute patience t)
      ((s.withEnvironment e').execute patience t) := by
  have hagree := ((Eval.lookTie_evaluates (s.settings patience) t).execute
    (Eval.lookTie_restarts _)).agrees (s.withEnvironment e).start (s.withEnvironment e').start
    ⟨h, rfl, rfl⟩
  rw [execute, execute, perform_eq, perform_eq]
  rcases hagree with ⟨houtcome, hlook, hsteps, htrace⟩ | hstop
  · exact ⟨houtcome, htrace, hsteps, hlook⟩
  · exact absurd hstop (Exits.not_never_allows _)

/-- Let every name that a tree mentions look alike in two environments. Evaluating the tree comes
to the same in both, be it a value, a diagnostic or that it is given up, with as many passes, and
afterwards these names look alike again. In particular it does not matter whether the bindings
that are visible stand in a chain of scopes or in a single one. -/
theorem execute_lookups (s : Session) (patience : Nat) (t : Tree) (e : Environment) :
    let within e := (s.withEnvironment e).execute patience t
    (∀ e', (∀ name ∈ t.names, e.look name = e'.look name) →
        AlikeOn t.names (within e) (within e')) ∧
      AlikeOn t.names (within e) (within e.flat) :=
  ⟨fun _ h => alikeOn_execute s patience t h,
    alikeOn_execute s patience t fun name _ => (e.look_flat name).symm⟩

/-- `VAR a = a + 1` -/
def increment : Tree :=
  let a := Grammar.Terminal.name.sample
  .assign a (.binary (Grammar.Terminal.operator .additive).sample (.ident a)
    (.literal Grammar.Terminal.number.sample))

/-- It is the same whether `a` is bound in the scope around or, among others, in the current one
and by another text. -/
theorem increment_lookups :
    let one span := Value.datum (.number (.int 1)) span
    let inner : Environment := (({} : Environment).set "a" (one .unknown)).push
    let outer := (({} : Environment).set "z" .nothing).set "a"
      (one ⟨some (.first "other"), some (.first "other")⟩)
    let within e := (Session.withEnvironment {} e).execute 0 increment
    AlikeOn increment.names (within inner) (within outer) ∧
      (within outer).2.environment.look "a" = some (.datum (.number (.int 2)) .unknown) := by
  refine ⟨(execute_lookups {} 0 increment _).1 _ ?_, by decide +kernel⟩
  decide +kernel

end Session

end Reckoner
