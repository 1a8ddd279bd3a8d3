import Reckoner.Proofs.Evaluation.Logic
import Reckoner.Proofs.Evaluation.Numeric
import Reckoner.Proofs.Grammar.Regularity
import Reckoner.Proofs.Token.Scanned
import Reckoner.Session

/-!
# Evaluation is safe

A regular tree, evaluated where every name is bound to a number or to nothing, never comes to a
fault (`Tree.Regular.safe`). Hence a run of any text whose integers can be read ends with a
number, with nothing or with a diagnostic, and leaves such an environment.
-/

set_option autoImplicit false

namespace Reckoner

/-- A scanned token: it has a place, and a datum that fits its kind. -/
def Token.Sound (t : Token) : Prop := t.Located ∧ t.Proper

theorem Token.Sound.number {t : Token} (h : t.Sound)
    (hk : Grammar.Terminal.number.admits t.mark = true) : t.value.IsNumber := by
  refine h.2.number ?_
  rwa [t.is_eq (by decide), t.is_eq (by decide), ← Bool.or_eq_true]

theorem Token.Sound.name {t : Token} (h : t.Sound)
    (hk : Grammar.Terminal.name.admits t.mark = true) : ∃ s, t.value = .text s :=
  h.2.name (by rwa [t.is_eq (by decide)])

/-- The limit of a budget has a text. -/
def Budget.Writable : Budget → Prop
  | .unlimited => True
  | .passes n => Number.tooLong n = false
  | .void => False

/-- No trace is written, and the budget can be told. -/
structure Settings.Plain (set : Settings) : Prop where
  quiet : set.verbosity = 0
  budget : set.budget.Writable

namespace Eval

/-! ## Safe steps -/

/-- Whatever the step ends with, the environment is numeric; faults do not occur. -/
def safeExits : Exits where
  diagnosed _ s := s.environment.Numeric
  faulted _ _ := False
  unfinished s := s.environment.Numeric

def Safe {α : Type} (m : Eval α) (A : α → Prop) : Prop :=
  m.Keeps (fun s => s.environment.Numeric) safeExits A

variable {α : Type} {A : α → Prop} {set : Settings} {t : Tree}

/-- A safe step ends in one of three ways, and the environment stays numeric. -/
theorem Safe.outcome {m : Eval α} (h : m.Safe A) {s : State} (hs : s.environment.Numeric) :
    (m s).2.environment.Numeric ∧
      ((∃ a, (m s).1 = .done a ∧ A a) ∨ (∃ d, (m s).1 = .diagnosed d) ∨
        (m s).1 = .unfinished) := by
  have h := h s hs
  unfold Ends at h
  generalize m s = x at h ⊢
  rcases x with ⟨a | d | f | _, s'⟩
  · exact ⟨h.2, .inl ⟨a, rfl, h.1⟩⟩
  · exact ⟨h, .inr (.inl ⟨d, rfl⟩)⟩
  · exact h.elim
  · exact ⟨h, .inr (.inr rfl)⟩

theorem safe_orFault {f : Fault} {o : Option α} (h : ∃ a, o = some a ∧ A a) :
    (orFault f o).Safe A := by
  obtain ⟨a, rfl, ha⟩ := h
  exact .pure ha

theorem safe_placed {r : Except Unplaced α} (h : ∃ a, r = .ok a ∧ A a) : (placed r).Safe A := by
  obtain ⟨a, rfl, ha⟩ := h
  exact .pure ha

theorem safe_note (h : set.Plain) {level : Nat} (hl : 0 < level) (text : Unit → Option String) :
    (note set level text).Safe fun _ => True := by
  unfold note
  rw [if_neg (by have := h.quiet; omega)]
  exact .pure trivial

theorem safe_assign {name : Name} {v : Value} (h : v.Numeric) :
    (Eval.assign name v).Safe fun _ => True :=
  fun _ hs => ⟨trivial, hs.set h⟩

theorem safe_diagnose {kind : Diagnostic.Kind} {details : String} (h : t.Regular Token.Sound) :
    (diagnose set kind t details : Eval α).Safe A := by
  obtain ⟨ends, he⟩ := h.ends fun _ => And.left
  unfold diagnose
  refine .bind (safe_placed (A := fun _ => True) ⟨ends, he, trivial⟩) fun ends _ => ?_
  exact .diagnosed fun _ hs => hs

theorem safe_tick (h : set.Plain) (ht : t.Regular Token.Sound) :
    (tick set t).Safe fun _ => True := by
  unfold tick
  refine .bind (A := fun _ => True) (fun s hs => ⟨trivial, hs⟩) fun steps _ => ?_
  have hb := h.budget
  cases hlimit : set.budget with
  | unlimited => exact .pure trivial
  | void => rw [hlimit] at hb; cases hb
  | passes limit =>
    rw [hlimit] at hb
    obtain ⟨p, q, hspan⟩ := ht.span fun _ => And.left
    simp only [Number.text?_int hb]
    split
    · refine .bind (safe_placed (A := fun _ => True) ⟨_, hspan, trivial⟩) fun _ _ => ?_
      refine .bind (safe_orFault (A := fun _ => True) ⟨_, rfl, trivial⟩) fun _ _ => ?_
      exact safe_diagnose ht
    · exact .pure trivial

/-! ## Safe operators -/

theorem safe_datumOf {v : Value} (hv : v.Numeric) (ht : t.Regular Token.Sound) :
    (datumOf set t v).Safe Datum.IsNumber := by
  cases v with
  | datum d span => exact .pure hv
  | nothing => exact safe_diagnose ht

theorem safe_binary {op : Token} {x y : Datum} (hop : op.IsOperator) (hx : x.IsNumber)
    (hy : y.IsNumber) (ht : t.Regular Token.Sound) :
    (Eval.binary set op.operatorKey x y t).Safe Datum.IsNumber := by
  obtain ⟨o, ho⟩ := hop.known
  unfold Eval.binary
  refine .bind (safe_orFault (A := (· = o)) ⟨o, ho, rfl⟩) fun o' ho' => ?_
  subst ho'
  rcases o'.apply_isNumber hx hy with ⟨d, hd, hn⟩ | hd
  · rw [hd]
    exact .pure hn
  · rw [hd]
    exact safe_diagnose ht

theorem safe_bound {value : Eval Value} (ht : t = .absent ∨ t.Regular Token.Sound)
    (hv : t.Regular Token.Sound → value.Safe Value.Numeric) :
    (bound set t value).Safe Datum.IsNumber := by
  rcases ht with rfl | ht
  · exact .pure ⟨_, rfl⟩
  · have hm : bound set t value = value >>= datumOf set t := by
      cases t <;> first | rfl | cases ht
    rw [hm]
    exact .bind (hv ht) fun v hn => safe_datumOf hn ht

theorem safe_relation {r : Datum.Relation} {x y : Datum} (hx : x.IsNumber) (hy : y.IsNumber) :
    (relation r x y).Safe fun _ => True := by
  obtain ⟨b, hb⟩ := Datum.relate?_isNumber r hx hy
  exact safe_orFault ⟨b, hb, trivial⟩

theorem safe_proceeds {i limit step : Datum} (hi : i.IsNumber) (hl : limit.IsNumber)
    (hs : step.IsNumber) : (proceeds i limit step).Safe fun _ => True := by
  unfold proceeds
  refine .bind (safe_relation hs ⟨_, rfl⟩) fun b _ => ?_
  split
  · exact safe_relation hi hl
  · exact safe_relation hi hl

theorem safe_successor {i step : Datum} (hi : i.IsNumber) (hs : step.IsNumber) :
    (successor i step).Safe Datum.IsNumber := by
  obtain ⟨d, hd, hn⟩ := Datum.add_isNumber hi hs
  unfold successor
  rw [hd]
  exact .pure hn

end Eval

/-! ## Safe trees -/

open Eval

section

variable {set : Settings}

mutual

theorem Tree.Regular.safe (hset : set.Plain) :
    ∀ {t : Tree}, t.Regular Token.Sound → (t.evaluate set).Safe Value.Numeric
  | .literal t, h => by
    rw [Tree.evaluate]
    exact .pure (h.2.number h.1)
  | .ident t, h => by
    rw [Tree.evaluate]
    obtain ⟨name, hname⟩ := h.2.name h.1
    refine .bind (A := Environment.Numeric) (fun s hs => ⟨hs, hs⟩) fun e he => ?_
    split
    · next v hv => exact .pure ((he.get? hv).withSpan t.span)
    · refine .bind (safe_orFault (A := fun _ => True) ⟨name, ?_, trivial⟩) fun _ _ => ?_
      · rw [Token.name, Name.text?, hname]
        rfl
      · exact safe_diagnose (t := .ident t) h
  | .assign name value, h => by
    rw [Tree.evaluate]
    refine .bind (Tree.Regular.safe hset (t := value) h.2) fun v hv => ?_
    refine .bind (safe_assign hv) fun _ _ => ?_
    refine .bind (safe_note hset (by decide) _) fun _ _ => ?_
    exact .pure hv
  | .unary op operand, h => by
    rw [Tree.evaluate]
    obtain ⟨p, q, hspan⟩ := Tree.Regular.span (t := .unary op operand) (fun _ => And.left) h
    refine .bind (Tree.Regular.safe hset (t := operand) h.2) fun v hv => ?_
    refine .bind (safe_datumOf hv h.2) fun x hx => ?_
    refine .bind (safe_orFault (Operator.applyUnary?_isNumber _ hx)) fun d hd => ?_
    refine .bind (safe_placed (A := fun _ => True) ⟨_, hspan, trivial⟩) fun span _ => ?_
    exact .pure hd
  | .binary op left right, h => by
    rw [Tree.evaluate]
    obtain ⟨p, q, hspan⟩ := Tree.Regular.span (t := .binary op left right) (fun _ => And.left) h
    refine .bind (Tree.Regular.safe hset (t := left) h.2.1) fun x hx => ?_
    refine .bind (Tree.Regular.safe hset (t := right) h.2.2) fun y hy => ?_
    refine .bind (safe_datumOf hx h.2.1) fun x hx => ?_
    refine .bind (safe_datumOf hy h.2.2) fun y hy => ?_
    refine .bind (safe_binary h.1.1 hx hy h.2.2) fun d hd => ?_
    refine .bind (safe_placed (A := fun _ => True) ⟨_, hspan, trivial⟩) fun span _ => ?_
    exact .pure hd
  | .conditional branches otherwise, h => by
    have hb := Branches.Regular.safe hset (b := branches) h.1.2
    rcases h.2 with rfl | ho
    · rw [Tree.evaluate]
      refine .bind hb fun o ho => ?_
      cases o with
      | some v => exact .pure (ho v rfl)
      | none => exact .pure trivial
    · rw [Tree.evaluate]
      · refine .bind hb fun o ho' => ?_
        cases o with
        | some v => exact .pure (ho' v rfl)
        | none => exact Tree.Regular.safe hset (t := otherwise) ho
      · rintro rfl
        cases ho
  | .forLoop name first last stride body, h => by
    rw [Tree.evaluate]
    have ⟨_, ⟨hf, hl⟩, hs, hb⟩ := h
    refine .bind (safe_bound (.inr hf) (Tree.Regular.safe hset (t := first))) fun i hi => ?_
    refine .bind (safe_bound (.inr hl) (Tree.Regular.safe hset (t := last))) fun limit hl => ?_
    refine .bind (safe_bound hs (Tree.Regular.safe hset (t := stride))) fun step hstep => ?_
    refine .bind (safe_note hset (by decide) _) fun _ _ => ?_
    refine .bind (.iterate (C := Datum.IsNumber) hi (fun i hi => ?_) fun _ hs => hs) fun _ _ => ?_
    · refine .bind (safe_proceeds hi hl hstep) fun b _ => ?_
      split
      · refine .bind (safe_tick hset h) fun _ _ => ?_
        refine .bind (safe_assign (v := .datum i name.span) hi) fun _ _ => ?_
        refine .bind (safe_note hset (by decide) _) fun _ _ => ?_
        refine .bind (safe_successor hi hstep) fun next hnext => ?_
        refine .bind (Tree.Regular.safe hset (t := body) hb) fun _ _ => ?_
        exact .pure fun _ h => Option.some.inj h ▸ hnext
      · exact .pure fun _ h => by cases h
    · exact .pure trivial
  | .whileLoop condition body, h => by
    rw [Tree.evaluate]
    refine .bind (.iterate (C := fun _ => True) trivial (fun _ _ => ?_) fun _ hs => hs)
      fun _ _ => ?_
    · refine .bind (Tree.Regular.safe hset (t := condition) h.1) fun v _ => ?_
      refine .bind (safe_note hset (by decide) _) fun _ _ => ?_
      split
      · refine .bind (safe_tick hset (t := .whileLoop condition body) h) fun _ _ => ?_
        refine .bind (Tree.Regular.safe hset (t := body) h.2) fun _ _ => ?_
        exact .pure fun _ _ => trivial
      · exact .pure fun _ _ => trivial
    · exact .pure trivial

theorem Branches.Regular.safe (hset : set.Plain) : ∀ {b : Branches}, b.Regular Token.Sound →
    (b.evaluate set).Safe fun o => ∀ v, o = some v → v.Numeric
  | .nil, _ => by
    rw [Branches.evaluate]
    exact .pure fun _ h => by cases h
  | .cons condition body rest, h => by
    rw [Branches.evaluate]
    refine .bind (Tree.Regular.safe hset (t := condition) h.1.1) fun v _ => ?_
    refine .bind (safe_note hset (by decide) _) fun _ _ => ?_
    split
    · refine .bind (Tree.Regular.safe hset (t := body) h.1.2) fun w hw => ?_
      exact .pure fun v hv => by cases hv; exact hw
    · exact Branches.Regular.safe hset (b := rest) h.2

end

end

end Reckoner
