import Reckoner.Environment.Basic
import Reckoner.Operator

/-!
# Numeric data

Programs compute with numbers and with nothing. The operators keep to numbers, and a division by
zero is the only way in which they fail on them; binding a numeric value keeps an environment
numeric.
-/

set_option autoImplicit false

namespace Reckoner

/-! ## Operators on numbers -/

namespace Datum

def IsNumber (d : Datum) : Prop := ∃ n, d = .number n

variable {x y : Datum}

theorem arithmetic_isNumber (op : Number.Operation) (hx : x.IsNumber) (hy : y.IsNumber) :
    (∃ d, arithmetic op x y = .ok d ∧ d.IsNumber) ∨
      arithmetic op x y = .error .divisionByZero := by
  obtain ⟨a, rfl⟩ := hx
  obtain ⟨b, rfl⟩ := hy
  simp only [arithmetic, plain]
  cases Number.operate? op a b with
  | none => exact .inr rfl
  | some c => exact .inl ⟨_, rfl, c, rfl⟩

/-- A sum of numbers is always a number. -/
theorem add_isNumber (hx : x.IsNumber) (hy : y.IsNumber) :
    ∃ d, arithmetic .add x y = .ok d ∧ d.IsNumber := by
  obtain ⟨a, rfl⟩ := hx
  obtain ⟨b, rfl⟩ := hy
  cases a <;> cases b <;> exact ⟨_, rfl, _, rfl⟩

theorem relate?_isNumber (r : Relation) (hx : x.IsNumber) (hy : y.IsNumber) :
    ∃ b, relate? r x y = some b := by
  obtain ⟨a, rfl⟩ := hx
  obtain ⟨b, rfl⟩ := hy
  cases r <;> exact ⟨_, rfl⟩

end Datum

theorem Number.text?_int {n : Int} (h : Number.tooLong n = false) :
    (Number.int n).text? = some (toString n) := by
  simp only [Number.text?, h, Bool.false_eq_true, if_false]

theorem Number.text?_tooLong {n : Int} (h : Number.tooLong n = true) :
    (Number.int n).text? = none := by
  simp only [Number.text?, h, if_true]

namespace Operator

variable {x y : Datum}

theorem apply_isNumber (op : Operator) (hx : x.IsNumber) (hy : y.IsNumber) :
    (∃ d, op.apply x y = .ok d ∧ d.IsNumber) ∨ op.apply x y = .error .divisionByZero := by
  cases op with
  | arithmetic op => exact Datum.arithmetic_isNumber op hx hy
  | relation r =>
    obtain ⟨b, hb⟩ := Datum.relate?_isNumber r hx hy
    exact .inl ⟨truth b, by simp only [apply, hb], _, rfl⟩
  | and | or => exact .inl ⟨_, rfl, _, rfl⟩

theorem applyUnary?_isNumber (key : Datum) (hx : x.IsNumber) :
    ∃ d, applyUnary? key x = some d ∧ d.IsNumber := by
  obtain ⟨a, rfl⟩ := hx
  unfold applyUnary?
  split
  · exact ⟨_, rfl, _, rfl⟩
  split
  · exact ⟨_, rfl, _, rfl⟩
  · exact ⟨_, rfl, _, rfl⟩

end Operator

/-! ## Environments -/

/-- A value that is a number or nothing. -/
def Value.Numeric : Value → Prop
  | .datum d _ => d.IsNumber
  | .nothing => True

theorem Value.Numeric.withSpan {v : Value} (h : v.Numeric) (span : Span) :
    (v.withSpan span).Numeric := by
  cases v <;> exact h

/-- Every name in every scope is bound to a number or to nothing. -/
def Environment.Numeric (e : Environment) : Prop :=
  ∀ b ∈ e.scopes, ∀ x ∈ b.entries, x.2.Numeric

theorem Environment.numeric_empty : ({} : Environment).Numeric := by
  intro b hb x hx
  obtain rfl := List.mem_singleton.1 hb
  cases hx

theorem Assoc.forall_put {κ α : Type} [BEq κ] {P : α → Prop} {name : κ} {v : α} (hv : P v) :
    ∀ {entries : List (κ × α)}, (∀ x ∈ entries, P x.2) → ∀ x ∈ put name v entries, P x.2
  | [], _ => by simpa [put] using hv
  | (n, w) :: rest, h => by
    obtain ⟨hw, hrest⟩ := List.forall_mem_cons.1 h
    unfold put
    split
    · exact List.forall_mem_cons.2 ⟨hv, hrest⟩
    · exact List.forall_mem_cons.2 ⟨hw, forall_put hv hrest⟩

namespace Environment.Numeric

variable {e : Environment} {name : Name} {v : Value}

theorem get? (h : e.Numeric) (hv : e.get? name = some v) : v.Numeric := by
  obtain ⟨b, hb, hv⟩ := List.exists_of_findSome?_eq_some hv
  rw [Bindings.get?, List.lookup_eq_findSome?] at hv
  obtain ⟨x, hx, hv⟩ := List.exists_of_findSome?_eq_some hv
  split at hv <;> cases hv
  exact h b hb x hx

theorem set (h : e.Numeric) (hv : v.Numeric) : (e.set name v).Numeric := by
  obtain ⟨hc, he⟩ := List.forall_mem_cons.1 h
  exact List.forall_mem_cons.2 ⟨Assoc.forall_put hv hc, he⟩

end Environment.Numeric

end Reckoner
