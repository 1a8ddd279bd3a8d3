import Reckoner.Proofs.Evaluation.Logic
import Reckoner.Proofs.Tree.Tokens

/-!
# Nested conditionals

Branches of a conditional, from one after the first on, may as well stand in a conditional of their
own after its `ELSE` (`Tree.Nests`). That changes neither where the tree stands nor what comes of
evaluating it (`Tree.Nests.evaluate`).
-/

set_option autoImplicit false

namespace Reckoner

namespace Branches

theorem append_nil : ∀ b : Branches, b.append .nil = b
  | .nil => rfl
  | .cons condition body rest => congrArg (cons condition body) rest.append_nil

theorem append_assoc : ∀ a b c : Branches, (a.append b).append c = a.append (b.append c)
  | .nil, _, _ => rfl
  | .cons condition body rest, b, c => congrArg (cons condition body) (rest.append_assoc b c)

theorem tokens_append : ∀ a b : Branches, (a.append b).tokens = a.tokens ++ b.tokens
  | .nil, _ => rfl
  | .cons condition body rest, b => by
    simp only [append, tokens, rest.tokens_append b, List.append_assoc]

theorem append_eq_nil {a b : Branches} : a.append b = .nil ↔ a = .nil ∧ b = .nil := by
  cases a <;> simp [append]

theorem stop?_append : ∀ (a : Branches) {b : Branches}, b ≠ .nil → (a.append b).stop? = b.stop?
  | .nil, _, _ => rfl
  | .cons _ _ rest, b, h => by
    rw [append, stop?, rest.stop?_append h]
    exact fun hnil => h (append_eq_nil.1 hnil).2

end Branches

/-- The second tree is the first one with the branches of some conditional in it, from one after
the first on, nested: they and what stood after its `ELSE` are a conditional of their own, which
stands after the `ELSE` now. In the tokens of the tree, the given ones stand before the nested
branches. -/
inductive Tree.Nests : List Token → Tree → Tree → Prop where
  | here {p q : Branches} (hp : p ≠ .nil) (hq : q ≠ .nil) (otherwise : Tree) :
      Nests p.tokens (.conditional (p.append q) otherwise)
        (.conditional p (.conditional q otherwise))
  | assign {ts : List Token} {t u : Tree} (name : Token) (h : Nests ts t u) :
      Nests (name :: ts) (.assign name t) (.assign name u)
  | unary {ts : List Token} {t u : Tree} (op : Token) (h : Nests ts t u) :
      Nests (op :: ts) (.unary op t) (.unary op u)
  | left {ts : List Token} {t u : Tree} (op : Token) (right : Tree) (h : Nests ts t u) :
      Nests ts (.binary op t right) (.binary op u right)
  | right {ts : List Token} {t u : Tree} (op : Token) (left : Tree) (h : Nests ts t u) :
      Nests (left.tokens ++ op :: ts) (.binary op left t) (.binary op left u)
  | condition {ts : List Token} {t u : Tree} (p : Branches) (body : Tree) (q : Branches)
      (otherwise : Tree) (h : Nests ts t u) :
      Nests (p.tokens ++ ts) (.conditional (p.append (.cons t body q)) otherwise)
        (.conditional (p.append (.cons u body q)) otherwise)
  | body {ts : List Token} {t u : Tree} (p : Branches) (condition : Tree) (q : Branches)
      (otherwise : Tree) (h : Nests ts t u) :
      Nests (p.tokens ++ (condition.tokens ++ ts))
        (.conditional (p.append (.cons condition t q)) otherwise)
        (.conditional (p.append (.cons condition u q)) otherwise)
  | otherwise {ts : List Token} {t u : Tree} (p : Branches) (h : Nests ts t u) :
      Nests (p.tokens ++ ts) (.conditional p t) (.conditional p u)
  | first {ts : List Token} {t u : Tree} (name : Token) (last stride body : Tree)
      (h : Nests ts t u) :
      Nests (name :: ts) (.forLoop name t last stride body) (.forLoop name u last stride body)
  | last {ts : List Token} {t u : Tree} (name : Token) (first stride body : Tree)
      (h : Nests ts t u) :
      Nests (name :: (first.tokens ++ ts)) (.forLoop name first t stride body)
        (.forLoop name first u stride body)
  | stride {ts : List Token} {t u : Tree} (name : Token) (first last body : Tree)
      (h : Nests ts t u) :
      Nests (name :: (first.tokens ++ last.tokens ++ ts)) (.forLoop name first last t body)
        (.forLoop name first last u body)
  | forBody {ts : List Token} {t u : Tree} (name : Token) (first last stride : Tree)
      (h : Nests ts t u) :
      Nests (name :: (first.tokens ++ last.tokens ++ stride.tokens ++ ts))
        (.forLoop name first last stride t) (.forLoop name first last stride u)
  | whileCondition {ts : List Token} {t u : Tree} (body : Tree) (h : Nests ts t u) :
      Nests ts (.whileLoop t body) (.whileLoop u body)
  | whileBody {ts : List Token} {t u : Tree} (condition : Tree) (h : Nests ts t u) :
      Nests (condition.tokens ++ ts) (.whileLoop condition t) (.whileLoop condition u)

namespace Tree.Nests

variable {ts : List Token} {t u : Tree}

theorem present (h : Nests ts t u) : t ≠ .absent ∧ u ≠ .absent := by
  cases h <;> simp

/-! ## Places -/

theorem start?_conditional {p : Branches} (hp : p ≠ .nil) (q q' : Branches) (o o' : Tree) :
    (conditional (p.append q) o).start? = (conditional (p.append q') o').start? := by
  cases p with
  | nil => exact absurd rfl hp
  | cons => rfl

theorem start? (h : Nests ts t u) : t.start? = u.start? := by
  induction h with
  | here hp hq o =>
    rw [start?_conditional hp _ .nil o, Branches.append_nil]
  | left _ _ _ ih | whileCondition _ _ ih => exact ih
  | condition p body q o _ ih =>
    cases p with
    | nil => exact ih
    | cons => rfl
  | body p condition q o _ _ => cases p <;> rfl
  | otherwise p _ _ => cases p <;> rfl
  | _ => rfl

theorem stop?_branches {b b' : Branches} (h : b.stop? = b'.stop?) (o : Tree) :
    (conditional b o).stop? = (conditional b' o).stop? := by
  cases o with
  | absent => exact h
  | _ => rfl

theorem stop?_conditional (b : Branches) {o : Tree} (ho : o ≠ .absent) :
    (conditional b o).stop? = o.stop? := by
  cases o with
  | absent => exact absurd rfl ho
  | _ => rfl

theorem stop? (h : Nests ts t u) : t.stop? = u.stop? := by
  induction h with
  | @here p q hp hq o =>
    rw [stop?_conditional p (o := .conditional q o) (by simp)]
    cases o with
    | absent => exact Branches.stop?_append p hq
    | _ => rfl
  | condition p body q o _ _ =>
    refine stop?_branches ?_ o
    rw [Branches.stop?_append p (by simp), Branches.stop?_append p (by simp)]
    cases q <;> rfl
  | body p condition q o _ ih =>
    refine stop?_branches ?_ o
    rw [Branches.stop?_append p (by simp), Branches.stop?_append p (by simp)]
    cases q with
    | nil => exact ih
    | cons => rfl
  | otherwise p h ih =>
    rw [stop?_conditional p h.present.1, stop?_conditional p h.present.2, ih]
  | assign _ _ ih | unary _ _ ih | right _ _ _ ih | forBody _ _ _ _ _ ih | whileBody _ _ ih =>
    exact ih
  | _ => rfl

theorem span? (h : Nests ts t u) : t.span? = u.span? := by rw [Tree.span?, h.start?, h.stop?]; rfl

theorem ends? (h : Nests ts t u) : t.ends? = u.ends? := by rw [Tree.ends?, h.span?]; rfl

end Tree.Nests

/-! ## Evaluation -/

open Eval

section

variable (set : Settings)

/-- The branches after some others are tried where none of those was taken. -/
theorem Branches.evaluate_append : ∀ p q : Branches, (p.append q).evaluate set =
    p.evaluate set >>= fun o => o.elim (q.evaluate set) fun v => pure (some v)
  | .nil, q => rfl
  | .cons condition body rest, q => by
    simp only [append, Branches.evaluate, bind_assoc, rest.evaluate_append q]
    refine congrArg _ (funext fun v => congrArg _ (funext fun _ => ?_))
    by_cases hv : v.isTrue = true
    · simp only [if_pos hv, bind_assoc, pure_bind, Option.elim_some]
    · simp only [if_neg hv]

/-- What stands after an `ELSE`, or nothing where there is none. -/
def Tree.evaluateElse : Tree → Eval Value
  | .absent => pure .nothing
  | t => t.evaluate set

theorem Tree.evaluateElse_of_present {t : Tree} (h : t ≠ .absent) :
    t.evaluateElse set = t.evaluate set := by
  cases t with
  | absent => exact absurd rfl h
  | _ => rfl

theorem Tree.evaluate_conditional (b : Branches) (otherwise : Tree) :
    (conditional b otherwise).evaluate set =
      b.evaluate set >>= fun o => o.elim (otherwise.evaluateElse set) pure := by
  have hends : ∀ (f g : Option Value → Eval Value), (∀ v, f (some v) = g (some v)) →
      f none = g none → (b.evaluate set >>= f) = b.evaluate set >>= g := by
    intro f g hsome hnone
    refine congrArg _ (funext fun o => ?_)
    cases o with
    | some v => exact hsome v
    | none => exact hnone
  by_cases h : otherwise = .absent
  · subst h
    rw [Tree.evaluate]
    exact hends _ _ (fun _ => rfl) rfl
  · rw [Tree.evaluate]
    · exact hends _ _ (fun _ => rfl) (evaluateElse_of_present set h).symm
    · exact h

/-- `ELIF` means `ELSE IF`. -/
theorem Tree.evaluate_nested (p q : Branches) (otherwise : Tree) :
    (conditional (p.append q) otherwise).evaluate set =
      (conditional p (.conditional q otherwise)).evaluate set := by
  rw [evaluate_conditional, Branches.evaluate_append, bind_assoc, evaluate_conditional]
  refine congrArg _ (funext fun o => ?_)
  cases o with
  | some v => rfl
  | none => exact (evaluate_conditional set q otherwise).symm

end

/-! ## Evaluation of a tree in which branches are nested -/

section

variable {set : Settings} {t u : Tree}

theorem Eval.diagnose_congr {α : Type} (h : t.ends? = u.ends?) (kind : Diagnostic.Kind)
    (details : String) :
    (diagnose set kind t details : Eval α) = diagnose set kind u details := by
  rw [diagnose, h]
  rfl

theorem Eval.datumOf_congr (h : t.ends? = u.ends?) : datumOf set t = datumOf set u := by
  funext v
  cases v with
  | datum => rfl
  | nothing => exact diagnose_congr h ..

theorem Eval.binary_congr (h : t.ends? = u.ends?) (key x y : Datum) :
    Eval.binary set key x y t = Eval.binary set key x y u := by
  simp only [Eval.binary, diagnose_congr h]

theorem Eval.tick_congr (h : t.span? = u.span?) : tick set t = tick set u := by
  have hends : t.ends? = u.ends? := by rw [Tree.ends?, h]; rfl
  simp only [tick, h, diagnose_congr hends]

theorem Eval.bound_of_present (h : t ≠ .absent) (value : Eval Value) :
    bound set t value = value >>= datumOf set t := by
  cases t with
  | absent => exact absurd rfl h
  | _ => rfl

theorem Tree.Nests.bound {ts : List Token} (h : Nests ts t u) (value : Eval Value) :
    Eval.bound set t value = Eval.bound set u value := by
  rw [bound_of_present h.present.1, bound_of_present h.present.2, datumOf_congr h.ends?]

theorem Branches.evaluate_congr (p : Branches) {q q' : Branches}
    (h : q.evaluate set = q'.evaluate set) (otherwise : Tree) :
    (Tree.conditional (p.append q) otherwise).evaluate set =
      (Tree.conditional (p.append q') otherwise).evaluate set := by
  rw [Tree.evaluate_conditional, Tree.evaluate_conditional, evaluate_append, evaluate_append, h]

end

/-- Where branches are nested, the same value comes of a tree in the same way: with the same
bindings, steps and notes, the same diagnostic or the same fault. -/
theorem Tree.Nests.evaluate {ts : List Token} {t u : Tree} (h : Nests ts t u) (set : Settings) :
    t.evaluate set = u.evaluate set := by
  induction h with
  | here _ _ otherwise => exact Tree.evaluate_nested set _ _ otherwise
  | assign name _ ih => rw [Tree.evaluate, Tree.evaluate, ih]
  | unary op h ih =>
    rw [Tree.evaluate, Tree.evaluate, ih, datumOf_congr h.ends?, (h.unary op).span?]
  | left op right h ih =>
    rw [Tree.evaluate, Tree.evaluate, ih, datumOf_congr h.ends?, (h.left op right).span?]
  | right op left h ih =>
    simp only [Tree.evaluate, ih, datumOf_congr h.ends?, binary_congr h.ends?,
      (h.right op left).span?]
  | condition p body q otherwise h ih =>
    exact p.evaluate_congr (by rw [Branches.evaluate, Branches.evaluate, ih]) otherwise
  | body p condition q otherwise h ih =>
    exact p.evaluate_congr (by rw [Branches.evaluate, Branches.evaluate, ih]) otherwise
  | otherwise p h ih =>
    rw [Tree.evaluate_conditional, Tree.evaluate_conditional,
      Tree.evaluateElse_of_present set h.present.1, Tree.evaluateElse_of_present set h.present.2, ih]
  | first name last stride body h ih =>
    simp only [Tree.evaluate, ih, h.bound, tick_congr (h.first name last stride body).span?]
  | last name first stride body h ih =>
    simp only [Tree.evaluate, ih, h.bound, tick_congr (h.last name first stride body).span?]
  | stride name first last body h ih =>
    simp only [Tree.evaluate, ih, h.bound, tick_congr (h.stride name first last body).span?]
  | forBody name first last stride h ih =>
    simp only [Tree.evaluate, ih, tick_congr (h.forBody name first last stride).span?]
  | whileCondition body h ih =>
    simp only [Tree.evaluate, ih, tick_congr (h.whileCondition body).span?]
  | whileBody condition h ih =>
    simp only [Tree.evaluate, ih, tick_congr (h.whileBody condition).span?]

end Reckoner
