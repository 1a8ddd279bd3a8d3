import Mathlib.Data.List.Basic
import Reckoner.Proofs.Tree.Normal

/-!
# Malformed trees

What may be wrong with a stored tree, at whatever depth: `Json.Malformed role v e` says that the
value `v`, read as what it stands for, has in it what the failure `e` complains of. A value with
nothing of the kind is read, any other one is refused for something that is wrong with it
(`Tree.read_outcome`). Apart from a field that is not there, that is a value of the wrong kind or
one that says something wrong. Nothing is wrong with what a token holds or with the parts of a
position, whatever they are, unless the end of a token must be counted from them.
-/

set_option autoImplicit false

namespace Reckoner

namespace Json

open Reckoner.Tree (Decoded DecodeFailure)

/-! ## What may be wrong -/

/-- A position that is given has three parts. -/
inductive Misplaced : Json → DecodeFailure → Prop where
  | whole {v : Json} (hv : v ≠ .null) (h : v.items? = none) : Misplaced v .notAPosition
  | length {v : Json} {parts : List Json} (h : v.items? = some parts) (hlength : parts.length ≠ 3) :
      Misplaced v .positionLength

/-- Numbers and truth values. -/
def IsCountable : Json → Prop
  | .number _ | .bool _ => True
  | _ => False

/-- Somewhere in the value there is what the failure complains of. -/
inductive Malformed : Role → Json → DecodeFailure → Prop where
  | notAToken {v : Json} (h : ∀ fields, v ≠ .object fields) : Malformed .token v .notAToken
  | noKind {fields : List (String × Json)} (h : fields.lookup "tok" = none) :
      Malformed .token (.object fields) (.missingField "tok")
  | place {fields : List (String × Json)} {name : String} {e : DecodeFailure}
      (hname : name = "start" ∨ name = "end") (h : Misplaced (named name fields) e) :
      Malformed .token (.object fields) e
  | noEnd {fields : List (String × Json)} {index line column : Json}
      (hstart : (named "start" fields).items? = some [index, line, column])
      (hstop : named "end" fields = .null) (h : ¬ (index.IsCountable ∧ column.IsCountable)) :
      Malformed .token (.object fields) .noNextPosition
  | notATree {v : Json} (hnull : v ≠ .null) (h : ∀ fields, v ≠ .object fields) :
      Malformed .tree v .notATree
  | form {fields : List (String × Json)}
      (h : ∀ form, named "type" fields = .text form → parts? form = none) :
      Malformed .tree (.object fields) (.unknownForm (named "type" fields))
  | missing {fields : List (String × Json)} {form : String} {parts : List Part} {part : Part}
      (hform : named "type" fields = .text form) (hparts : parts? form = some parts)
      (hpart : part ∈ parts) (hrequired : part.required = true)
      (h : fields.lookup part.name = none) :
      Malformed .tree (.object fields) (.missingField part.name)
  | part {fields : List (String × Json)} {form : String} {parts : List Part} {part : Part}
      {v : Json} {e : DecodeFailure} (hform : named "type" fields = .text form)
      (hparts : parts? form = some parts) (hpart : part ∈ parts)
      (hv : fields.lookup part.name = some v) (h : Malformed part.role v e) :
      Malformed .tree (.object fields) e
  | notBranches {v : Json} (h : v.items? = none) : Malformed .branches v .notBranches
  | branch {v w : Json} {items : List Json} {e : DecodeFailure} (hitems : v.items? = some items)
      (hw : w ∈ items) (h : Malformed .branch w e) : Malformed .branches v e
  | notBranch {v : Json} (h : v.items? = none) : Malformed .branch v .notBranches
  | branchLength {v : Json} {items : List Json} (hitems : v.items? = some items)
      (h : items.length ≠ 2) : Malformed .branch v .branchLength
  | half {v w : Json} {items : List Json} {e : DecodeFailure} (hitems : v.items? = some items)
      (hlength : items.length = 2) (hw : w ∈ items) (h : Malformed .tree w e) :
      Malformed .branch v e

/-! ## What comes of reading -/

/-- Whether something is read, without what it is read as. -/
def outcome {α : Type} (x : Decoded α) : Decoded Unit := x.map fun _ => ()

/-- A branch that is a list of two trees or falls into them. -/
def readBranch (file : String) (v : Json) : Decoded Unit :=
  match v.items? with
  | none => .error .notBranches
  | some [condition, body] => do
    outcome (Tree.read file condition)
    outcome (Tree.read file body)
  | some _ => .error .branchLength

def readBranches (file : String) (v : Json) : Decoded Unit :=
  match v.items? with
  | none => .error .notBranches
  | some items => items.forM (readBranch file)

/-- Whether a value is read as what it stands for. -/
def readAs (file : String) : Role → Json → Decoded Unit
  | .token, v => outcome (Tree.readToken file v)
  | .tree, v => outcome (Tree.read file v)
  | .branches, v => readBranches file v
  | .branch, v => readBranch file v

def readPart (file : String) (fields : List (String × Json)) (part : Part) : Decoded Unit :=
  match fields.lookup part.name with
  | some v => readAs file part.role v
  | none => if part.required then .error (.missingField part.name) else .ok ()

section

variable {α β : Type} {r : Decoded Unit} {e : DecodeFailure}

theorem outcome_eq_ok {x : Decoded α} : outcome x = .ok () ↔ ∃ a, x = .ok a := by
  cases x <;> simp [outcome, Except.map]

theorem outcome_eq_error {x : Decoded α} : outcome x = .error e ↔ x = .error e := by
  cases x <;> simp [outcome, Except.map]

theorem outcome_bind {x : Decoded α} {f : α → Decoded β} {q : Decoded Unit} (hx : outcome x = q)
    (hf : ∀ a, outcome (f a) = r) : outcome (x >>= f) = q >>= fun _ => r := by
  subst hx
  cases x with
  | error e => rfl
  | ok a => exact hf a

theorem outcome_bind_pure {x : Decoded α} {f : α → β} (hx : outcome x = r) :
    outcome (x >>= fun a => pure (f a)) = r := by
  subst hx
  cases x <;> rfl

theorem bind_eq_error {x : Decoded α} {f : α → Decoded β} (h : (x >>= f) = .error e) :
    x = .error e ∨ ∃ a, x = .ok a ∧ f a = .error e := by
  cases x with
  | error e' =>
    cases h
    exact .inl rfl
  | ok a => exact .inr ⟨a, rfl, h⟩

theorem bind_eq_ok {x : Decoded α} {f : α → Decoded β} {b : β} (h : (x >>= f) = .ok b) :
    ∃ a, x = .ok a ∧ f a = .ok b := by
  cases x with
  | error e => cases h
  | ok a => exact ⟨a, rfl, h⟩

theorem forM_eq_ok {l : List α} {f : α → Decoded Unit} :
    l.forM f = .ok () ↔ ∀ a ∈ l, f a = .ok () := by
  induction l with
  | nil => simp [List.forM, pure, Except.pure]
  | cons a l ih =>
    rw [List.forM, List.forall_mem_cons, ← ih]
    cases f a <;> simp [bind, Except.bind]

theorem mem_of_forM_eq_error {l : List α} {f : α → Decoded Unit} (h : l.forM f = .error e) :
    ∃ a ∈ l, f a = .error e := by
  induction l with
  | nil => cases h
  | cons a l ih =>
    rw [List.forM] at h
    cases ha : f a with
    | error e' =>
      rw [ha] at h
      exact ⟨a, .head _, ha.trans h⟩
    | ok =>
      rw [ha] at h
      obtain ⟨b, hb, he⟩ := ih h
      exact ⟨b, .tail _ hb, he⟩

end

variable {file : String} {fields : List (String × Json)} {v : Json} {e : DecodeFailure}

/-! ## Parts one after another -/

theorem require_of_lookup_none {name : String} (h : fields.lookup name = none) :
    Tree.require name fields = .error (.missingField name) := by
  rw [← field?_eq_lookup, Option.map_eq_none_iff] at h
  rw [Tree.require, h]

theorem require_eq_error {name : String} (h : Tree.require name fields = .error e) :
    fields.lookup name = none ∧ e = .missingField name := by
  cases hv : fields.lookup name with
  | none =>
    rw [require_of_lookup_none hv] at h
    cases h
    exact ⟨rfl, rfl⟩
  | some v =>
    obtain ⟨hlt, hrequire⟩ := require_of_lookup hv
    rw [hrequire] at h
    cases h

theorem require_eq_ok {name : String} {v : { v : Json // sizeOf v < sizeOf fields }}
    (h : Tree.require name fields = .ok v) : fields.lookup name = some v.1 := by
  cases hv : fields.lookup name with
  | none =>
    rw [require_of_lookup_none hv] at h
    cases h
  | some w =>
    obtain ⟨hlt, hrequire⟩ := require_of_lookup hv
    rw [hrequire] at h
    cases h
    rfl

/-- A part that must be there is read, then what comes after it. -/
theorem outcome_required {β : Type} (part : Part) (hrequired : part.required = true)
    {f : { v : Json // sizeOf v < sizeOf fields } → Decoded β} {r : Decoded Unit}
    (h : ∀ v, outcome (f v) = readAs file part.role v.1 >>= fun _ => r) :
    outcome (Tree.require part.name fields >>= f) = readPart file fields part >>= fun _ => r := by
  unfold readPart
  cases hv : fields.lookup part.name with
  | none =>
    rw [require_of_lookup_none hv]
    simp only [hrequired]
    rfl
  | some v =>
    obtain ⟨hlt, hrequire⟩ := require_of_lookup hv
    rw [hrequire]
    exact h ⟨v, hlt⟩

/-- A tree that may be left out is read as a missing one where it is. -/
theorem outcome_optional {β : Type} (name : String) {f : Tree Stored.Token → Decoded β}
    {r : Decoded Unit} (h : ∀ t, outcome (f t) = r) :
    outcome (Tree.read file (Tree.optionalTree name fields).1 >>= f) =
      readPart file fields ⟨name, .tree, false⟩ >>= fun _ => r := by
  rw [outcome_bind rfl h, optionalTree_eq_named, named, readPart]
  cases fields.lookup name with
  | some v => rfl
  | none =>
    rw [Option.getD_none, Tree.read]
    rfl

/-! ## Branches -/

theorem read_notATree (hnull : v ≠ .null) (hobject : ∀ fields, v ≠ .object fields) :
    Tree.read file v = .error .notATree := by
  rw [Tree.read]
  · exact hnull
  · exact hobject

/-- What is no list falls into texts. -/
theorem text_of_items {items : List Json} (h : v.items? = some items)
    (hv : ∀ l, v ≠ .list l) : ∀ w ∈ items, ∃ s, w = .text s := by
  cases v with
  | list l => exact absurd rfl (hv l)
  | text s =>
    cases h
    simp
  | object fields =>
    cases h
    intro w hw
    obtain ⟨⟨name, _⟩, -, rfl⟩ := List.mem_map.1 hw
    exact ⟨name, rfl⟩
  | _ => cases h

theorem readBranch_whole (h : v.items? = none) : readBranch file v = .error .notBranches := by
  rw [readBranch, h]

theorem readBranch_halves {condition body : Json} (h : v.items? = some [condition, body]) :
    readBranch file v = outcome (Tree.read file condition) >>= fun _ =>
      outcome (Tree.read file body) := by
  rw [readBranch, h]

theorem readBranch_length {items : List Json} (h : v.items? = some items)
    (hlength : items.length ≠ 2) : readBranch file v = .error .branchLength := by
  rw [readBranch, h]
  split
  · next hnone => cases hnone
  · next hsome =>
    cases hsome
    exact absurd rfl hlength
  · rfl

theorem readBranch_noBranch (file : String) (hv : ∀ l, v ≠ .list l) :
    readBranch file v = .error (Tree.noBranch v) := by
  unfold Tree.noBranch
  split
  · next h => exact readBranch_whole h
  · next items h =>
    split
    · next hlength =>
      obtain ⟨condition, body, rfl⟩ := List.length_eq_two.1 hlength
      obtain ⟨s, rfl⟩ := text_of_items h hv condition (.head _)
      rw [readBranch_halves h, read_notATree (by simp) (by simp)]
      rfl
    · next hlength => exact readBranch_length h hlength

theorem outcome_noBranches (file : String) (hv : ∀ l, v ≠ .list l) :
    outcome (Tree.noBranches v) = readBranches file v := by
  unfold readBranches Tree.noBranches
  split
  · next h => rw [h]; rfl
  · next h => rw [h]; rfl
  · next part parts h =>
    obtain ⟨s, rfl⟩ := text_of_items h hv part (.head _)
    simp only [h, List.forM, readBranch_noBranch file (v := .text s) (by simp)]
    rfl

theorem outcome_readBranches_cons (v : Json) (rest : List Json) :
    outcome (Tree.readBranches file (v :: rest)) =
      readBranch file v >>= fun _ => outcome (Tree.readBranches file rest) := by
  by_cases hv : ∃ l, v = .list l
  · obtain ⟨l, rfl⟩ := hv
    by_cases hl : l.length = 2
    · obtain ⟨condition, body, rfl⟩ := List.length_eq_two.1 hl
      rw [Tree.readBranches, readBranch_halves rfl, bind_assoc]
      exact outcome_bind rfl fun _ => outcome_bind rfl fun _ => outcome_bind_pure rfl
    · rw [readBranch_length rfl hl, Tree.readBranches]
      · rfl
      · rintro condition body rfl
        exact hl rfl
  · have hlist : ∀ l, v ≠ .list l := fun l h => hv ⟨l, h⟩
    rw [readBranch_noBranch file hlist, Tree.readBranches]
    · rfl
    · exact fun _ _ => hlist _
    · exact hlist

theorem outcome_readBranches : ∀ items : List Json,
    outcome (Tree.readBranches file items) = items.forM (readBranch file)
  | [] => by
    rw [Tree.readBranches]
    rfl
  | v :: rest => by
    rw [outcome_readBranches_cons, outcome_readBranches rest, List.forM]

/-! ## Objects -/

/-- An object of a known form is read part by part, in the order of the form. -/
theorem readAs_object {form : String} {parts : List Part}
    (hform : named "type" fields = .text form) (hparts : parts? form = some parts) :
    readAs file .tree (.object fields) = parts.forM (readPart file fields) := by
  have htype : Tree.optional "type" fields = .text form := by rw [optional_eq_named, hform]
  unfold parts? at hparts
  split at hparts
  case h_1 => -- Literal
    cases hparts
    simp only [readAs, Tree.read, htype, List.forM]
    exact outcome_required ⟨"token", .token, true⟩ rfl fun v => outcome_bind rfl fun t => rfl
  case h_2 => -- Ident
    cases hparts
    simp only [readAs, Tree.read, htype, List.forM]
    exact outcome_required ⟨"token", .token, true⟩ rfl fun v => outcome_bind rfl fun t => rfl
  case h_3 => -- Assign
    cases hparts
    simp only [readAs, Tree.read, htype, List.forM]
    refine outcome_required ⟨"name_tok", .token, true⟩ rfl fun _ => outcome_bind rfl fun _ => ?_
    exact outcome_required ⟨"value", .tree, true⟩ rfl fun _ => outcome_bind rfl fun _ => rfl
  case h_4 => -- UnaryOp
    cases hparts
    simp only [readAs, Tree.read, htype, List.forM]
    refine outcome_required ⟨"op_tok", .token, true⟩ rfl fun _ => outcome_bind rfl fun _ => ?_
    exact outcome_required ⟨"operand", .tree, true⟩ rfl fun _ => outcome_bind rfl fun _ => rfl
  case h_5 => -- BinaryOp
    cases hparts
    simp only [readAs, Tree.read, htype, List.forM]
    refine outcome_required ⟨"op_tok", .token, true⟩ rfl fun _ => outcome_bind rfl fun _ => ?_
    refine outcome_required ⟨"left", .tree, true⟩ rfl fun _ => outcome_bind rfl fun _ => ?_
    exact outcome_required ⟨"right", .tree, true⟩ rfl fun _ => outcome_bind rfl fun _ => rfl
  case h_6 => -- IfExpr
    cases hparts
    simp only [readAs, Tree.read, htype, List.forM]
    refine outcome_required ⟨"cases", .branches, true⟩ rfl fun v => ?_
    obtain ⟨v, _⟩ := v
    cases v with
    | list items =>
      exact outcome_bind (outcome_readBranches items) fun _ =>
        outcome_optional "else_case" fun _ => rfl
    | _ =>
      exact outcome_bind (outcome_noBranches file (by simp)) fun _ =>
        outcome_optional "else_case" fun _ => rfl
  case h_7 => -- ForExpr
    cases hparts
    simp only [readAs, Tree.read, htype, List.forM]
    refine outcome_required ⟨"var_name_tok", .token, true⟩ rfl fun _ => outcome_bind rfl fun _ => ?_
    refine outcome_required ⟨"start", .tree, true⟩ rfl fun _ => outcome_bind rfl fun _ => ?_
    refine outcome_required ⟨"end", .tree, true⟩ rfl fun _ => outcome_bind rfl fun _ => ?_
    refine outcome_optional "step" fun _ => ?_
    exact outcome_required ⟨"body", .tree, true⟩ rfl fun _ => outcome_bind rfl fun _ => rfl
  case h_8 => -- WhileExpr
    cases hparts
    simp only [readAs, Tree.read, htype, List.forM]
    refine outcome_required ⟨"condition", .tree, true⟩ rfl fun _ => outcome_bind rfl fun _ => ?_
    exact outcome_required ⟨"body", .tree, true⟩ rfl fun _ => outcome_bind rfl fun _ => rfl
  case h_9 => cases hparts

/-- An object of no known form is refused for its form. -/
theorem read_unknown (h : ∀ form, named "type" fields = .text form → parts? form = none) :
    Tree.read file (.object fields) = .error (.unknownForm (named "type" fields)) := by
  rw [Tree.read, optional_eq_named]
  split
  case h_9 => rfl
  all_goals
    next hform => cases h _ hform

/-! ## Tokens -/

theorem next?_eq_none_iff : v.next? = none ↔ ¬ v.IsCountable := by
  cases v with
  | number n => cases n <;> simp [next?, IsCountable, Number.operate?]
  | _ => simp [next?, IsCountable]

theorem position_next?_eq_none_iff {p : Stored.Position} :
    p.next? = none ↔ ¬ (p.index.IsCountable ∧ p.column.IsCountable) := by
  rw [Classical.not_and_iff_not_or_not, ← next?_eq_none_iff, ← next?_eq_none_iff,
    Stored.Position.next?]
  cases p.index.next? <;> cases p.column.next? <;> simp

theorem misplaced_of_readPosition (h : Tree.readPosition file v = .error e) : Misplaced v e := by
  unfold Tree.readPosition at h
  split at h
  · cases h
  · next hv =>
    split at h
    · next hwhole =>
      cases h
      exact .whole hv hwhole
    · cases h
    · next hlength hparts =>
      cases h
      refine .length hparts fun hthree => ?_
      obtain ⟨index, line, column, rfl⟩ := List.length_eq_three.1 hthree
      exact hlength _ _ _ rfl

theorem readPosition_eq_ok {o : Option Stored.Position} (h : Tree.readPosition file v = .ok o) :
    (v = .null ∧ o = none) ∨ ∃ index line column,
      v.items? = some [index, line, column] ∧ o = some ⟨index, line, column, file⟩ := by
  unfold Tree.readPosition at h
  split at h
  · cases h
    exact .inl ⟨rfl, rfl⟩
  · split at h
    · cases h
    · next hparts =>
      cases h
      exact .inr ⟨_, _, _, hparts, rfl⟩
    · cases h

theorem completeStop_eq_error {start stop : Option Stored.Position}
    (h : Tree.completeStop start stop = .error e) :
    e = .noNextPosition ∧ stop = none ∧ ∃ p, start = some p ∧ p.next? = none := by
  unfold Tree.completeStop at h
  split at h
  · split at h
    · cases h
    · next hnext =>
      cases h
      exact ⟨rfl, rfl, _, rfl, hnext⟩
  · cases h

theorem malformed_of_readToken (h : Tree.readToken file v = .error e) : Malformed .token v e := by
  unfold Tree.readToken at h
  split at h
  · next fields =>
    simp only [optional_eq_named] at h
    rcases bind_eq_error h with h | ⟨_, -, h⟩
    · obtain ⟨hnone, rfl⟩ := require_eq_error h
      exact .noKind hnone
    rcases bind_eq_error h with h | ⟨start, hstart, h⟩
    · exact .place (.inl rfl) (misplaced_of_readPosition h)
    rcases bind_eq_error h with h | ⟨stop, hstop, h⟩
    · exact .place (.inr rfl) (misplaced_of_readPosition h)
    rcases bind_eq_error h with h | ⟨_, -, h⟩
    · obtain ⟨rfl, rfl, p, rfl, hnext⟩ := completeStop_eq_error h
      rcases readPosition_eq_ok hstart with ⟨-, ⟨⟩⟩ | ⟨index, line, column, hitems, ⟨⟩⟩
      rcases readPosition_eq_ok hstop with ⟨hnull, -⟩ | ⟨_, _, _, -, ⟨⟩⟩
      exact .noEnd hitems hnull (position_next?_eq_none_iff.1 hnext)
    · cases h
  · next hobject =>
    cases h
    exact .notAToken hobject

/-! ## Whatever is refused is malformed -/

theorem malformed_of_tree
    (hparts : ∀ fields, v = .object fields → ∀ name w, fields.lookup name = some w →
      ∀ role e, readAs file role w = .error e → Malformed role w e)
    (h : Tree.read file v = .error e) : Malformed .tree v e := by
  cases v with
  | null =>
    rw [Tree.read] at h
    cases h
  | object fields =>
    by_cases hform : ∃ form parts, named "type" fields = .text form ∧ parts? form = some parts
    · obtain ⟨form, parts, hform, hps⟩ := hform
      rw [← outcome_eq_error, ← readAs, readAs_object hform hps] at h
      obtain ⟨part, hpart, h⟩ := mem_of_forM_eq_error h
      unfold readPart at h
      split at h
      · next w hw => exact .part hform hps hpart hw (hparts fields rfl _ w hw _ _ h)
      · next hw =>
        split at h
        · next hrequired =>
          cases h
          exact .missing hform hps hpart hrequired hw
        · cases h
    · have hunknown : ∀ form, named "type" fields = .text form → parts? form = none := by
        intro form hf
        rw [Option.eq_none_iff_forall_ne_some]
        exact fun parts hps => hform ⟨form, parts, hf, hps⟩
      rw [read_unknown hunknown] at h
      cases h
      exact .form hunknown
  | _ =>
    rw [read_notATree (by simp) (by simp)] at h
    cases h
    exact .notATree (by simp) (by simp)

theorem malformed_of_branch
    (hitems : ∀ items, v.items? = some items → ∀ w ∈ items, ∀ e, Tree.read file w = .error e →
      Malformed .tree w e)
    (h : readBranch file v = .error e) : Malformed .branch v e := by
  cases hv : v.items? with
  | none =>
    rw [readBranch_whole hv] at h
    cases h
    exact .notBranch hv
  | some items =>
    by_cases hlength : items.length = 2
    · obtain ⟨condition, body, rfl⟩ := List.length_eq_two.1 hlength
      rw [readBranch_halves hv] at h
      rcases bind_eq_error h with h | ⟨_, -, h⟩
      · exact .half hv rfl (.head _) (hitems _ hv _ (.head _) e (outcome_eq_error.1 h))
      · exact .half hv rfl (.tail _ (.head _))
          (hitems _ hv _ (.tail _ (.head _)) e (outcome_eq_error.1 h))
    · rw [readBranch_length hv hlength] at h
      cases h
      exact .branchLength hv hlength

theorem malformed_of_branches
    (hitems : ∀ items, v.items? = some items → ∀ w ∈ items, ∀ e, readBranch file w = .error e →
      Malformed .branch w e)
    (h : readBranches file v = .error e) : Malformed .branches v e := by
  unfold readBranches at h
  split at h
  · next hv =>
    cases h
    exact .notBranches hv
  · next items hv =>
    obtain ⟨w, hw, h⟩ := mem_of_forM_eq_error h
    exact .branch hv hw (hitems items hv w hw e h)

theorem malformed_of_text {s : String} (h : Tree.read file (.text s) = .error e) :
    Malformed .tree (.text s) e :=
  malformed_of_tree (by simp) h

/-- What an item of a value is: smaller than the value or a text. -/
theorem item_cases {items : List Json} (h : v.items? = some items) :
    ∀ w ∈ items, sizeOf w < sizeOf v ∨ ∃ s, w = .text s := by
  intro w hw
  by_cases hv : ∃ l, v = .list l
  · obtain ⟨l, rfl⟩ := hv
    cases h
    have := List.sizeOf_lt_of_mem hw
    exact .inl (by simp only [list.sizeOf_spec]; omega)
  · exact .inr (text_of_items h (fun l hl => hv ⟨l, hl⟩) w hw)

theorem malformed_of_error (file : String) (role : Role) (v : Json) (e : DecodeFailure)
    (h : readAs file role v = .error e) : Malformed role v e := by
  cases role with
  | token => exact malformed_of_readToken (outcome_eq_error.1 h)
  | tree =>
    refine malformed_of_tree (fun fields hv name w hw role e he => ?_) (outcome_eq_error.1 h)
    obtain ⟨hlt, -⟩ := require_of_lookup hw
    subst hv
    have : sizeOf w < sizeOf (object fields) := by simp only [object.sizeOf_spec]; omega
    exact malformed_of_error file role w e he
  | branch =>
    refine malformed_of_branch (fun items hitems w hw e he => ?_) h
    rcases item_cases hitems w hw with hlt | ⟨s, rfl⟩
    · exact malformed_of_error file .tree w e (outcome_eq_error.2 he)
    · exact malformed_of_text he
  | branches =>
    refine malformed_of_branches (fun items hitems w hw e he => ?_) h
    rcases item_cases hitems w hw with hlt | ⟨s, rfl⟩
    · exact malformed_of_error file .branch w e he
    · refine malformed_of_branch (fun items hitems w hw e he => ?_) he
      obtain ⟨s, rfl⟩ := text_of_items hitems (by simp) w hw
      exact malformed_of_text he
termination_by sizeOf v

/-! ## Whatever is malformed is refused -/

theorem Misplaced.not_read {o : Option Stored.Position} (h : Misplaced v e) :
    Tree.readPosition file v ≠ .ok o := by
  intro hread
  rcases readPosition_eq_ok hread with ⟨rfl, -⟩ | ⟨_, _, _, hitems, -⟩
  · cases h with
    | whole hv _ => exact hv rfl
    | length hparts _ => cases hparts
  · cases h with
    | whole _ hnone => cases hnone.symm.trans hitems
    | length hparts hlength =>
      cases hparts.symm.trans hitems
      exact hlength rfl

/-- The positions of a token that is read are read, and it has an end if it has a start. -/
theorem readToken_eq_ok {t : Stored.Token} (h : Tree.readToken file v = .ok t) :
    ∃ fields kind start stop last, v = .object fields ∧ fields.lookup "tok" = some kind ∧
      Tree.readPosition file (named "start" fields) = .ok start ∧
      Tree.readPosition file (named "end" fields) = .ok stop ∧
      Tree.completeStop start stop = .ok last := by
  unfold Tree.readToken at h
  split at h
  · simp only [optional_eq_named] at h
    obtain ⟨kind, hkind, h⟩ := bind_eq_ok h
    obtain ⟨start, hstart, h⟩ := bind_eq_ok h
    obtain ⟨stop, hstop, h⟩ := bind_eq_ok h
    obtain ⟨last, hlast, -⟩ := bind_eq_ok h
    exact ⟨_, _, start, stop, last, rfl, require_eq_ok hkind, hstart, hstop, hlast⟩
  · cases h

theorem not_malformed_of_readToken {t : Stored.Token} (h : Tree.readToken file v = .ok t) :
    ¬ Malformed .token v e := by
  obtain ⟨fields, kind, start, stop, last, rfl, hkind, hstart, hstop, hlast⟩ := readToken_eq_ok h
  rintro (hobject | hnone | ⟨rfl | rfl, hplace⟩ | ⟨hitems, hnull, hcount⟩)
  · exact hobject _ rfl
  · cases hnone.symm.trans hkind
  · exact hplace.not_read hstart
  · exact hplace.not_read hstop
  · rcases readPosition_eq_ok hstart with ⟨hstart, -⟩ | ⟨index, line, column, hparts, rfl⟩
    · rw [hstart] at hitems
      cases hitems
    cases hparts.symm.trans hitems
    rw [hnull] at hstop
    cases hstop
    rw [Tree.completeStop, position_next?_eq_none_iff.2 hcount] at hlast
    cases hlast

theorem Malformed.not_read {role : Role} (h : Malformed role v e) :
    readAs file role v ≠ .ok () := by
  intro hread
  induction h with
  | notAToken h =>
    obtain ⟨t, ht⟩ := outcome_eq_ok.1 hread
    exact not_malformed_of_readToken ht (.notAToken h)
  | noKind h =>
    obtain ⟨t, ht⟩ := outcome_eq_ok.1 hread
    exact not_malformed_of_readToken ht (.noKind h)
  | place hname h =>
    obtain ⟨t, ht⟩ := outcome_eq_ok.1 hread
    exact not_malformed_of_readToken ht (.place hname h)
  | noEnd hstart hstop h =>
    obtain ⟨t, ht⟩ := outcome_eq_ok.1 hread
    exact not_malformed_of_readToken ht (.noEnd hstart hstop h)
  | notATree hnull hobject =>
    rw [readAs, read_notATree hnull hobject] at hread
    cases hread
  | form hunknown =>
    rw [readAs, read_unknown hunknown] at hread
    cases hread
  | missing hform hparts hpart hrequired hnone =>
    rw [readAs_object hform hparts, forM_eq_ok] at hread
    have h := hread _ hpart
    rw [readPart, hnone] at h
    simp only [hrequired, if_true] at h
    cases h
  | part hform hparts hpart hv _ ih =>
    rw [readAs_object hform hparts, forM_eq_ok] at hread
    have h := hread _ hpart
    rw [readPart, hv] at h
    exact ih h
  | notBranches hwhole =>
    rw [readAs, readBranches, hwhole] at hread
    cases hread
  | branch hitems hw _ ih =>
    rw [readAs, readBranches, hitems] at hread
    exact ih (forM_eq_ok.1 hread _ hw)
  | notBranch hwhole =>
    rw [readAs, readBranch_whole hwhole] at hread
    cases hread
  | branchLength hitems hlength =>
    rw [readAs, readBranch_length hitems hlength] at hread
    cases hread
  | half hitems hlength hw _ ih =>
    obtain ⟨condition, body, rfl⟩ := List.length_eq_two.1 hlength
    rw [readAs, readBranch_halves hitems] at hread
    obtain ⟨_, hcondition, hbody⟩ := bind_eq_ok hread
    rcases List.mem_pair.1 hw with rfl | rfl
    · exact ih hcondition
    · exact ih hbody

end Json

/-- A value is read if nothing is wrong with it, and refused for something that is wrong with it
otherwise: for a value of the wrong kind, for one that says something wrong, or for a field that is
not there. -/
theorem Tree.read_outcome (file : String) (v : Json) :
    (∃ t, read file v = .ok t ∧ ∀ e, ¬ v.Malformed .tree e) ∨
      (∃ e, read file v = .error e ∧ v.Malformed .tree e ∧
        (e.cause = .kind ∨ e.cause = .value)) ∨
      ∃ name, read file v = .error (.missingField name) ∧
        v.Malformed .tree (.missingField name) := by
  cases h : read file v with
  | ok t =>
    have hread : Json.readAs file .tree v = .ok () := Json.outcome_eq_ok.2 ⟨t, h⟩
    exact .inl ⟨t, rfl, fun e he => he.not_read hread⟩
  | error e =>
    have hmalformed := Json.malformed_of_error file .tree v e (Json.outcome_eq_error.2 h)
    cases e with
    | missingField name => exact .inr (.inr ⟨name, rfl, hmalformed⟩)
    | unknownForm | positionLength | branchLength =>
      exact .inr (.inl ⟨_, rfl, hmalformed, .inr rfl⟩)
    | _ => exact .inr (.inl ⟨_, rfl, hmalformed, .inl rfl⟩)

/-- A token may hold a list, stand at a fraction and end at a text. -/
example : ∃ t, Tree.read "<ast>" (.object [("type", .text "Literal"), ("token", .object
    [("tok", .text "INT"), ("value", .list [.ofInt 1]),
     ("start", .list [.number (.float (.one false)), .null, .null]), ("end", .text "abc")])]) =
      .ok t :=
  ⟨_, by rw [Tree.read]; rfl⟩

/-- A literal without a token is refused for neither of the two other causes. -/
theorem Tree.literal_without_token :
    ¬ ((∃ t, read "<ast>" (.object [("type", .text "Literal")]) = .ok t) ∨
      ∃ e, read "<ast>" (.object [("type", .text "Literal")]) = .error e ∧
        (e.cause = .kind ∨ e.cause = .value)) := by
  have hrefused : read "<ast>" (.object [("type", .text "Literal")]) =
      .error (.missingField "token") := by
    rw [read]
    rfl
  rw [hrefused]
  rintro (⟨t, ⟨⟩⟩ | ⟨e, ⟨⟩, hcause⟩)
  exact absurd hcause (by decide)

end Reckoner
