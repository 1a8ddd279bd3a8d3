import Mathlib.Data.List.Basic
import Reckoner.Environment.Forest

/-!
# Forests and their histories

What a name is bound to in a scope of a forest is decided by the operations that made the forest:
it is the value that was set for it last in the nearest scope, on the way to the root, in which it
was ever set (`Forest.get?_after`). Scopes and bindings are read off the history by themselves
(`parents`, `last?`), and every operation keeps the forest in accordance with them (`Records`).
-/

set_option autoImplicit false

namespace Reckoner

namespace Forest

/-! ## Operations -/

/-- What is done with a forest. -/
inductive Operation where
  | create (parent : Option Nat)
  | set (i : Nat) (name : Name) (v : Value)
  | get (i : Nat) (name : Name)

namespace Operation

/-- Looking a name up changes nothing. -/
def perform (f : Forest) : Operation → Forest
  | .create parent => f.create parent
  | .set i name v => f.set i name v
  | .get _ _ => f

/-- The parent of the scope that is created, if one is. -/
def parent? : Operation → Option (Option Nat)
  | .create parent => some parent
  | _ => none

/-- What is set for a name in scope `i`. -/
def value? (i : Nat) (name : Name) : Operation → Option Value
  | .set j n v => if j = i ∧ (name == n) = true then some v else none
  | _ => none

/-- The operation is about the first `n` scopes. -/
def Within (n : Nat) : Operation → Prop
  | .create parent => ∀ p ∈ parent, p < n
  | .set i _ _ => i < n
  | .get i _ => i < n

instance (n : Nat) (op : Operation) : Decidable (op.Within n) :=
  match op with
  | .create parent => inferInstanceAs (Decidable (∀ p ∈ parent, p < n))
  | .set i _ _ => inferInstanceAs (Decidable (i < n))
  | .get i _ => inferInstanceAs (Decidable (i < n))

end Operation

/-! ## Histories -/

/-- The forest after operations that start with no scope. -/
def after (history : List Operation) : Forest := history.foldl Operation.perform {}

/-- The parents of the scopes, in the order of creation. -/
def parents (history : List Operation) : List (Option Nat) :=
  history.filterMap Operation.parent?

/-- What was set last for a name in scope `i`. -/
def last? (history : List Operation) (i : Nat) (name : Name) : Option Value :=
  history.reverse.findSome? (Operation.value? i name)

/-- Every operation is about scopes that were created before it, the first `n` ones before all. -/
def Valid (n : Nat) : List Operation → Prop
  | [] => True
  | op :: rest => op.Within n ∧ Valid (n + (parents [op]).length) rest

instance decidableValid : (n : Nat) → (history : List Operation) → Decidable (Valid n history)
  | _, [] => .isTrue trivial
  | n, op :: rest =>
    have := decidableValid (n + (parents [op]).length) rest
    inferInstanceAs (Decidable (_ ∧ _))

/-- The way from scope `i` to its root. -/
inductive Path (parents : List (Option Nat)) : Nat → List Nat → Prop where
  | root {i : Nat} (h : parents[i]? = some none) : Path parents i [i]
  | inner {i p : Nat} {path : List Nat} (h : parents[i]? = some (some p))
      (hp : Path parents p path) : Path parents i (i :: path)

variable {history before rest : List Operation} {op : Operation} {i j : Nat} {path : List Nat}

theorem parents_append (before rest : List Operation) :
    parents (before ++ rest) = parents before ++ parents rest := List.filterMap_append

theorem last?_append (before rest : List Operation) (i : Nat) (name : Name) :
    last? (before ++ rest) i name = (last? rest i name).or (last? before i name) := by
  rw [last?, List.reverse_append, List.findSome?_append]
  rfl

theorem last?_concat (history : List Operation) (op : Operation) (i : Nat) (name : Name) :
    last? (history ++ [op]) i name = (op.value? i name).or (last? history i name) := by
  rw [last?_append]
  congr 1
  exact List.findSome?_singleton

theorem valid_append {n : Nat} :
    Valid n (before ++ rest) ↔ Valid n before ∧ Valid (n + (parents before).length) rest := by
  induction before generalizing n with
  | nil => exact (and_iff_right trivial).symm
  | cons op before ih =>
    have hlength : (parents (op :: before)).length =
        (parents [op]).length + (parents before).length := by
      rw [← List.singleton_append, parents_append, List.length_append]
    rw [List.cons_append, Valid, Valid, ih, hlength, Nat.add_assoc, and_assoc]

theorem Path.unique {parents : List (Option Nat)} {path' : List Nat} (h : Path parents i path)
    (h' : Path parents i path') : path = path' := by
  induction h generalizing path' with
  | root hroot =>
    cases h' with
    | root => rfl
    | inner hinner => cases hroot.symm.trans hinner
  | inner hinner _ ih =>
    cases h' with
    | root hroot => cases hinner.symm.trans hroot
    | inner hinner' hp' =>
      cases hinner.symm.trans hinner'
      rw [ih hp']

/-! ## What an operation does -/

section

variable (f : Forest)

theorem bindings_eq (i : Nat) : f.bindings i = (f.scopes[i]?.map Scope.bindings).getD {} := by
  unfold bindings
  cases f.scopes[i]? <;> rfl

/-- A new scope binds nothing, as one that does not exist. -/
theorem bindings_create (parent : Option Nat) (i : Nat) :
    (f.create parent).bindings i = f.bindings i := by
  rw [bindings_eq, bindings_eq, create, Array.getElem?_push]
  split
  · next h => rw [h, Array.getElem?_eq_none (Nat.le_refl _)]; rfl
  · rfl

theorem bindings_set (hi : i < f.scopes.size) (name : Name) (v : Value) (j : Nat) :
    (f.set i name v).bindings j = if i = j then (f.bindings j).set name v else f.bindings j := by
  rw [bindings_eq, bindings_eq, set, Array.getElem?_modify]
  split
  · next h =>
    subst h
    rw [Array.getElem?_eq_getElem hi]
    rfl
  · rfl

/-- The way from a scope goes on at its parent. -/
theorem path_eq_cons {s : Scope} (hs : f.scopes[i]? = some s) :
    f.path i = f.bindings i :: (s.parent.map f.path).getD [] := by
  rw [bindings_eq, hs, path]
  split
  · next hnone => cases hs.symm.trans hnone
  · next s' hs' =>
    cases hs.symm.trans hs'
    split
    · next hp => simp only [hp]; rfl
    · next p hp => simp only [hp]; rfl

theorem parents_create {parent : Option Nat} (h : ∀ p ∈ parent, p < f.scopes.size) :
    (f.create parent).scopes.toList.map Scope.parent =
      f.scopes.toList.map Scope.parent ++ [parent] := by
  have hkept : parent.filter (· < f.scopes.size) = parent := by
    cases parent with
    | none => rfl
    | some p => simpa using h p rfl
  simp [create, hkept]

theorem parents_set (i : Nat) (name : Name) (v : Value) :
    (f.set i name v).scopes.toList.map Scope.parent = f.scopes.toList.map Scope.parent := by
  refine List.ext_getElem? fun j => ?_
  simp only [set, List.getElem?_map, Array.getElem?_toList, Array.getElem?_modify]
  split
  · rw [Option.map_map]
    rfl
  · rfl

end

/-! ## The forest and its history -/

/-- The scopes of the forest have the parents that they were given, and bind what was set last. -/
structure Records (history : List Operation) (f : Forest) : Prop where
  parents : f.scopes.toList.map Scope.parent = parents history
  bound : ∀ i name, (f.bindings i).get? name = last? history i name

namespace Records

variable {f : Forest}

theorem length_eq (h : Records history f) : (Forest.parents history).length = f.scopes.size := by
  rw [← h.parents, List.length_map, Array.length_toList]

theorem parent_eq (h : Records history f) (i : Nat) :
    (Forest.parents history)[i]? = f.scopes[i]?.map Scope.parent := by
  rw [← h.parents, List.getElem?_map, Array.getElem?_toList]

/-- An operation on scopes that exist is recorded. -/
theorem perform (h : Records history f) (hop : op.Within (Forest.parents history).length) :
    Records (history ++ [op]) (op.perform f) := by
  rw [h.length_eq] at hop
  cases op with
  | create parent =>
    refine ⟨?_, fun i name => ?_⟩
    · rw [parents_append, ← h.parents]
      exact f.parents_create hop
    · rw [last?_concat, ← h.bound]
      exact congrArg (·.get? name) (f.bindings_create parent i)
  | set i n v =>
    refine ⟨?_, fun j name => ?_⟩
    · rw [parents_append, ← h.parents]
      exact (f.parents_set i n v).trans (List.append_nil _).symm
    · rw [last?_concat, ← h.bound]
      show ((f.set i n v).bindings j).get? name = _
      rw [f.bindings_set hop, Operation.value?]
      by_cases hij : i = j
      · rw [if_pos hij, Bindings.get?_set]
        by_cases hname : (name == n) = true
        · rw [if_pos hname, if_pos ⟨hij, hname⟩]
          rfl
        · rw [if_neg hname, if_neg fun hboth => hname hboth.2]
          rfl
      · rw [if_neg hij, if_neg fun hboth => hij hboth.1]
        rfl
  | get i name =>
    refine ⟨?_, fun j other => ?_⟩
    · rw [parents_append, ← h.parents]
      exact (List.append_nil _).symm
    · rw [last?_concat, ← h.bound]
      rfl

/-- The bindings from a scope to its root are those of the scopes on the way. -/
theorem path_eq (h : Records history f) (hp : Path (Forest.parents history) i path) :
    f.path i = path.map f.bindings := by
  induction hp with
  | root hroot =>
    rw [h.parent_eq] at hroot
    obtain ⟨s, hs, hparent⟩ := Option.map_eq_some_iff.1 hroot
    rw [f.path_eq_cons hs, hparent]
    rfl
  | inner hinner _ ih =>
    rw [h.parent_eq] at hinner
    obtain ⟨s, hs, hparent⟩ := Option.map_eq_some_iff.1 hinner
    rw [f.path_eq_cons hs, hparent, List.map_cons, ← ih]
    rfl

/-- Since parents are older than their children, every scope has a way to its root. -/
theorem exists_path (h : Records history f) :
    ∀ {i : Nat}, i < f.scopes.size → ∃ path, Path (Forest.parents history) i path := by
  intro i
  induction i using Nat.strongRecOn with
  | ind i ih =>
    intro hi
    have hparent := h.parent_eq i
    rw [Array.getElem?_eq_getElem hi, Option.map_some] at hparent
    cases hs : f.scopes[i].parent with
    | none =>
      rw [hs] at hparent
      exact ⟨[i], .root hparent⟩
    | some p =>
      rw [hs] at hparent
      have hp : p < i := f.older i f.scopes[i] (by simp [hi]) p (by simp [hs])
      obtain ⟨path, hpath⟩ := ih p hp (Nat.lt_trans hp hi)
      exact ⟨i :: path, .inner hparent hpath⟩

end Records

/-- Operations on scopes that exist are recorded one after the other. -/
theorem Records.foldl {f : Forest} (h : Records history f)
    (hv : Valid (Forest.parents history).length rest) :
    Records (history ++ rest) (rest.foldl Operation.perform f) := by
  induction rest generalizing history f with
  | nil =>
    rw [List.append_nil]
    exact h
  | cons op rest ih =>
    obtain ⟨hop, hrest⟩ := hv
    rw [List.append_cons]
    refine ih (h.perform hop) ?_
    rwa [parents_append, List.length_append]

theorem records_after (h : Valid 0 history) : Records history (after history) := by
  have hempty : Records [] {} := ⟨rfl, fun _ _ => rfl⟩
  exact hempty.foldl h

/-- A lookup is decided by the scopes on the way to the root and what was set last in them. -/
theorem get?_of_path (h : Valid 0 history) (hp : Path (parents history) i path) (name : Name) :
    (after history).get? i name = path.findSome? (last? history · name) := by
  have hrecords := records_after h
  rw [get?, hrecords.path_eq hp, List.findSome?_map]
  exact congrArg (path.findSome? ·) (funext fun j => hrecords.bound j name)

/-! ## Leaving a binding out -/

section

variable {other : Name} {v : Value}

theorem parents_without_set (before rest : List Operation) :
    parents (before ++ .set j other v :: rest) = parents (before ++ rest) := by
  rw [parents_append, parents_append]
  rfl

theorem valid_without_set (h : Valid 0 (before ++ .set j other v :: rest)) :
    Valid 0 (before ++ rest) := by
  rw [valid_append] at h ⊢
  exact ⟨h.1, h.2.2⟩

/-- Nothing else was set by it. -/
theorem last?_without_set {name : Name} (h : i ≠ j ∨ (name == other) = false) :
    last? (before ++ .set j other v :: rest) i name = last? (before ++ rest) i name := by
  have hnone : last? [.set j other v] i name = none := by
    refine (List.findSome?_singleton).trans (if_neg fun hboth => ?_)
    rcases h with hi | hname
    · exact hi hboth.1.symm
    · rw [hname] at hboth
      cases hboth.2
  rw [List.append_cons, last?_append, last?_append before, hnone, last?_append before,
    Option.none_or]

end

/-- After any operations on scopes that were created before, there is one way from each scope to its
root. A name is bound to what was set for it last in the nearest scope on this way in which it was
ever set, and to nothing if there is none. Whatever is set in a scope that is not on the way, or for
another name, makes no difference, then or later. -/
theorem get?_after (h : Valid 0 history) (hi : i < (parents history).length) :
    ∃ path, Path (parents history) i path ∧
      (∀ path', Path (parents history) i path' → path' = path) ∧
      (∀ name, (after history).get? i name = path.findSome? (last? history · name)) ∧
      ∀ before j other v rest, history = before ++ .set j other v :: rest →
        ∀ name, j ∉ path ∨ (name == other) = false →
          (after history).get? i name = (after (before ++ rest)).get? i name := by
  have hrecords := records_after h
  obtain ⟨path, hpath⟩ := hrecords.exists_path (hrecords.length_eq ▸ hi)
  refine ⟨path, hpath, fun _ hpath' => hpath'.unique hpath, get?_of_path h hpath, ?_⟩
  rintro before j other v rest rfl name hother
  have hpath' := hpath
  rw [parents_without_set] at hpath'
  rw [get?_of_path h hpath, get?_of_path (valid_without_set h) hpath', ← List.head?_filterMap,
    ← List.head?_filterMap]
  refine congrArg List.head? (List.filterMap_congr fun k hk => last?_without_set ?_)
  refine hother.imp_left fun hj => ?_
  rintro rfl
  exact hj hk

/-- A root, a child of it and a child of that one. The child binds `a` before the root does and once
more at the end, and the root binds `b` after the last scope has done so. -/
def threeScopes : List Operation :=
  let number n := Value.datum (.number (.int n)) .unknown
  [.create none, .create (some 0), .set 1 "a" (number 1), .create (some 1), .set 0 "a" (number 2),
    .get 2 "a", .set 2 "b" (number 3), .set 0 "b" (number 4), .set 1 "a" (number 5)]

/-- From the last scope `a` is what the child bound it to at the end, and `b` is what this scope
bound it to. The child itself looks `b` up in the root, whatever the last scope binds. -/
theorem threeScopes_get? :
    let number n := Value.datum (.number (.int n)) .unknown
    Valid 0 threeScopes ∧
      (after threeScopes).get? 2 "a" = some (number 5) ∧
      (after threeScopes).get? 2 "b" = some (number 3) ∧
      (after threeScopes).get? 1 "b" = some (number 4) ∧
      (after (threeScopes.eraseIdx 6)).get? 1 "b" = some (number 4) := by
  intro number
  have hvalid : Valid 0 threeScopes := by decide +kernel
  have hchild : Path (parents threeScopes) 1 [1, 0] := .inner rfl (.root rfl)
  obtain ⟨path, hpath, -, hget, -⟩ := get?_after (i := 2) hvalid (by decide)
  obtain ⟨path', hpath', -, hparent, hwithout⟩ := get?_after (i := 1) hvalid (by decide)
  cases hpath.unique (.inner rfl hchild)
  cases hpath'.unique hchild
  have hb : (after threeScopes).get? 1 "b" = some (number 4) :=
    (hparent "b").trans (by decide +kernel)
  refine ⟨hvalid, (hget "a").trans (by decide +kernel), (hget "b").trans (by decide +kernel), hb,
    ?_⟩
  exact (hwithout (threeScopes.take 6) 2 "b" (number 3) (threeScopes.drop 7) rfl "b"
    (.inl (by decide))).symm.trans hb

end Forest

end Reckoner
