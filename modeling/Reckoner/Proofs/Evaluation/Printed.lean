import Reckoner.Proofs.Evaluation.Program
import Reckoner.Proofs.Number.Text
import Reckoner.Proofs.Source

/-!
# Printed integers are read back

The text of an integer is a program whose value is that integer. Its digits are one lexeme, which
stands for the natural that they were written for, and a minus sign before them is read as an
operator (`Source.tree_natCast`, `Source.tree_negSucc`); evaluation changes the sign back and
touches no binding (`Session.run_printed`).
-/

set_option autoImplicit false

namespace Reckoner

/-! ## Scanning digits -/

namespace Scan

theorem decimal_toDigits (m : Nat) : decimal (Nat.toDigits 10 m) = m := by
  rw [← ofDigits_eq_decimal, Number.ofDigits_toDigits]

variable {file : String} {text : List Char} {i : Nat}

/-- A rest of a text that is digits, and not too many, is scanned into one token and the end. -/
theorem scanFrom_digits (hi : i < text.length) (hd : ∀ c ∈ text.drop i, c.isDigit = true)
    (hlength : (text.drop i).length ≤ Number.digitLimit) :
    scanFrom (place file i) 0 (text.drop i) =
      .ok [tokenAt file .int (.number (.int (decimal (text.drop i)))) i text.length,
        tokenAt file .endOfText .blank text.length (text.length + 1)] := by
  have hne : text.drop i ≠ [] := by simpa using hi
  have hint : IsCutAt (place file i) (text.drop i) [] .int _ := isCutAt_int hne hd nofun
  obtain ⟨c, u, hcu, hc, hcut⟩ := hint
  obtain ⟨rfl, rfl⟩ := List.cons.inj (hcu.symm.trans (List.drop_eq_getElem_cons hi))
  rw [List.append_nil] at hcut
  have hmore : i + 1 + (text.drop (i + 1)).length = text.length := by
    rw [List.length_drop]
    omega
  rcases hcut with hok | ⟨-, hlong, -⟩
  · rw [scanFrom_lexeme hi hc hok (Nat.le_of_eq hmore), hmore, scanFrom_end]
    rfl
  · rw [hcu, List.length_cons] at hlength
    omega

variable (file) {ds : List Char} (hne : ds ≠ []) (hd : ∀ c ∈ ds, c.isDigit = true)
  (hlength : ds.length ≤ Number.digitLimit)

include hne hd hlength

theorem scan_digits :
    scan file (String.ofList ds) =
      .ok [tokenAt file .int (.number (.int (decimal ds))) 0 ds.length,
        tokenAt file .endOfText .blank ds.length (ds.length + 1)] := by
  rw [scan, String.toList_ofList]
  exact scanFrom_digits (i := 0) (List.length_pos_iff.2 hne) hd hlength

theorem scan_signed_digits :
    scan file (String.ofList ('-' :: ds)) =
      .ok [tokenAt file .minus .blank 0 1,
        tokenAt file .int (.number (.int (decimal ds))) 1 (ds.length + 1),
        tokenAt file .endOfText .blank (ds.length + 1) (ds.length + 2)] := by
  have hpos := List.length_pos_iff.2 hne
  have hminus : scanFrom (place file 0) 0 ('-' :: ds) =
      (scanFrom (place file 1) 0 ds).map (tokenAt file .minus .blank 0 1 :: ·) :=
    @scanFrom_lexeme file ('-' :: ds) 0 (Nat.zero_lt_succ _) rfl (sign .minus) rfl
      (Nat.succ_le_succ (Nat.zero_le _))
  have hdigits : scanFrom (place file 1) 0 ds = _ :=
    @scanFrom_digits file ('-' :: ds) 1 (Nat.succ_lt_succ hpos) hd hlength
  rw [scan, String.toList_ofList]
  refine hminus.trans ?_
  rw [hdigits]
  rfl

end Scan

/-! ## Trees of printed integers -/

namespace Source

open Scan

variable (file : String) {m : Nat}

theorem tree_natCast (h : (Nat.toDigits 10 m).length ≤ Number.digitLimit) :
    tree file (toString (m : Int)) =
      .ok (.literal (tokenAt file .int (.number (.int m)) 0 (Nat.toDigits 10 m).length)) := by
  have htext : toString (m : Int) = String.ofList (Nat.toDigits 10 m) :=
    String.toList_inj.1 ((Number.toList_toString_natCast m).trans String.toList_ofList.symm)
  have hscan := scan_digits file Nat.toDigits_ne_nil Number.isDigit_of_mem_toDigits h
  rw [decimal_toDigits] at hscan
  rw [htext, tree_of_scan hscan]
  rfl

theorem tree_negSucc (h : (Nat.toDigits 10 (m + 1)).length ≤ Number.digitLimit) :
    tree file (toString (Int.negSucc m)) =
      .ok (.unary (tokenAt file .minus .blank 0 1) (.literal
        (tokenAt file .int (.number (.int (m + 1 : Nat))) 1
          ((Nat.toDigits 10 (m + 1)).length + 1)))) := by
  have htext : toString (Int.negSucc m) = String.ofList ('-' :: Nat.toDigits 10 (m + 1)) :=
    String.toList_inj.1 ((Number.toList_toString_negSucc m).trans String.toList_ofList.symm)
  have hscan := scan_signed_digits file Nat.toDigits_ne_nil
    Number.isDigit_of_mem_toDigits h
  rw [decimal_toDigits] at hscan
  rw [htext, tree_of_scan hscan]
  rfl

end Source

/-! ## Evaluation -/

namespace Eval

/-- A tree whose value has a text is executed to it, at every verbosity. -/
theorem execute_of_evaluate {set : Settings} {t : Tree} {v : Value} {text : String}
    {s s' : State} (h : t.evaluate set { s with steps := 0 } = (.done v, s'))
    (hv : v.text? = some text) :
    ∃ trace, execute set t s = (.done v, { s' with trace := trace }) := by
  obtain ⟨trace, hnote, -⟩ := note_some set 1 ("result: " ++ text) (pure v) s'
  refine ⟨trace, ?_⟩
  rw [execute, h]
  simp only [hv]
  exact hnote

end Eval

/-- The tree evaluates to the integer and changes nothing. -/
def Tree.Denotes (t : Tree) (n : Int) : Prop :=
  ∀ set s, ∃ span, t.evaluate set s = (.done (.datum (.number (.int n)) span), s)

theorem Source.exists_denotes (file : String) {n : Int} (h : Number.tooLong n = false) :
    ∃ t, tree file (toString n) = .ok t ∧ t.Denotes n := by
  have hlength := Number.tooLong_eq_false_iff.1 h
  cases n with
  | ofNat m => exact ⟨_, tree_natCast file hlength, fun set s => ⟨_, rfl⟩⟩
  | negSucc m => exact ⟨_, tree_negSucc file hlength, fun set s => ⟨_, rfl⟩⟩

namespace Session

/-- An integer of at most 4300 digits has a text, and a run of that text, in whatever session,
ends with that integer and leaves the environment as it was. -/
theorem run_printed (s : Session) (patience : Nat) (file : String) {n : Int}
    (h : (toString n.natAbs).length ≤ 4300) :
    (∀ span, (Value.datum (.number (.int n)) span).text? = some (toString n)) ∧
      (∃ span, (s.run patience file (toString n)).1.outcome =
        .done (.datum (.number (.int n)) span)) ∧
      (s.run patience file (toString n)).2.environment = s.environment := by
  have hlong : Number.tooLong n = false := by
    rw [Number.tooLong_eq_false_iff, ← Nat.toList_repr, String.length_toList]
    exact h
  have htext : ∀ span, (Value.datum (.number (.int n)) span).text? = some (toString n) := by
    intro span
    rw [Value.text?, Datum.display?, Number.text?_int hlong]
  obtain ⟨t, htree, hdenotes⟩ := Source.exists_denotes file hlong
  obtain ⟨start, hstart, hrun⟩ := s.run_of_tree patience htree
  obtain ⟨span, hvalue⟩ := hdenotes (s.settings patience) { start with steps := 0 }
  obtain ⟨trace, hexecute⟩ := Eval.execute_of_evaluate hvalue (htext span)
  rw [hrun, hexecute]
  exact ⟨htext, ⟨span, rfl⟩, hstart⟩

/-- A negative integer is read back as the value of an operator, here in a session that is traced
and in which no loop may make a pass. -/
theorem minusForty_printed :
    let s : Session :=
      { environment := ({} : Environment).set "x" .nothing, budget := .passes 0, verbosity := 3 }
    (toString (-40 : Int).natAbs).length ≤ 4300 ∧
      (∀ span, (Value.datum (.number (.int (-40))) span).text? = some "-40") ∧
      (∃ span, (s.run 0 "<stdin>" "-40").1.outcome =
        .done (.datum (.number (.int (-40))) span)) ∧
      (s.run 0 "<stdin>" "-40").2.environment = s.environment := by
  intro s
  have hlength : (toString (-40 : Int).natAbs).length ≤ 4300 := by decide +kernel
  have htext : toString (-40 : Int) = "-40" := by decide +kernel
  have h := run_printed s 0 "<stdin>" hlength
  rw [htext] at h
  exact ⟨hlength, h⟩

end Session

end Reckoner
