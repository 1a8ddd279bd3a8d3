import Reckoner.Proofs.Token.Segmentation

/-!
# Refused characters

A scan fails at one character. The text before it can be scanned, and what is cut from it stays the
same whatever comes after that character (`StopsAt`, `stopsAt_of_scanFrom`). So the diagnostic is
settled by the text up to the character and, after an exclamation mark, by the next one
(`scan_refused`).
-/

set_option autoImplicit false

namespace Reckoner

namespace Scan

/-- The character `c` at the index `i` is refused with the diagnostic `d`. -/
structure RefusesAt (file : String) (i : Nat) (c : Char) (d : Diagnostic) : Prop where
  start : d.start = place file i
  stop : d.stop.index = i + 1
  kind : d.kind = if c = '!' then .expectedCharacter else .illegalCharacter
  details : d.details = if c = '!' then "'=' (after '!')" else "'" ++ String.singleton c ++ "'"

section

variable {file : String} {p : Position} {c : Char} {cs cs' : List Char} {x : Lexeme} {e : Failure}

/-! ## Lexemes before another text -/

theorem Maximal.of_head {w rest rest' : List Char} (h : Maximal w rest)
    (hhead : ∀ d ∈ rest'.head?, d ∈ rest.head?) : Maximal w rest' :=
  fun d hd => h d (hhead d hd)

theorem more_lt_of_int (h : lexeme p c cs = .ok x) (hx : x.symbol = .int) :
    x.more < Number.digitLimit := by
  unfold lexeme at h
  split at h
  · simp only [numeral] at h
    split at h
    · cases h
      cases hx
    · next hshort =>
      split at h <;> cases h
      simp only [List.length_cons] at *
      omega
  split at h
  · cases h
    simp only [word] at hx
    split at hx <;> cases hx
  split at h
  case h_8 | h_9 | h_10 =>
    cases h
    simp only [signOrEquals] at hx
    split at hx <;> cases hx
  case h_11 =>
    split at h <;> cases h
    cases hx
  case h_12 => cases h
  all_goals
    cases h
    cases hx

/-- A lexeme is cut from any text that starts with it and does not lengthen it. -/
theorem lexeme_of_maximal (h : lexeme p c cs = .ok x) (hmore : x.more ≤ cs'.length)
    (htake : cs'.take x.more = cs.take x.more)
    (hmax : Maximal (c :: cs.take x.more) (cs'.drop x.more)) : lexeme p c cs' = .ok x := by
  obtain ⟨-, hspells⟩ := spells_of_lexeme h
  obtain ⟨c', u, hu, -, hcut⟩ := lexeme_of_spells (p := p) hspells hmax
  obtain ⟨rfl, rfl⟩ := List.cons.inj hu
  rw [← htake, List.take_append_drop, List.length_take, Nat.min_eq_left hmore] at hcut
  rcases hcut with hok | ⟨hint, hlong, -⟩
  · exact hok
  · exact absurd (more_lt_of_int h hint) (Nat.not_lt.2 hlong)

/-! ## Failures -/

theorem lexeme_bang (h : cs.head? ≠ some '=') :
    lexeme p '!' cs = .error (.expectedEquals p p.advance) := by
  cases cs with
  | nil => rfl
  | cons d cs =>
    have hd : d ≠ '=' := fun hd => h (congrArg some hd)
    simp [lexeme, hd]

/-- An exclamation mark is refused for want of an equals sign after it, any other character for
itself. -/
theorem failure_cases (h : lexeme p c cs = .error e) (he : e ≠ .oversizedInteger) :
    (c = '!' ∧ cs.head? ≠ some '=' ∧ e = .expectedEquals p p.advance) ∨
      (c ≠ '!' ∧ e = .illegalCharacter c p (p.advance (String.singleton c)) ∧
        ∀ cs', lexeme p c cs' = .error e) := by
  unfold lexeme at h
  split at h
  · simp only [numeral] at h
    split at h
    · cases h
    · split at h <;> cases h
      exact absurd rfl he
  split at h
  · cases h
  next hdigit halpha =>
  split at h
  case h_11 =>
    split at h
    · cases h
    · next hcs =>
      cases h
      refine .inl ⟨rfl, ?_, rfl⟩
      cases cs with
      | nil => simp
      | cons d cs =>
        rintro ⟨⟩
        exact hcs cs rfl
  case h_12 hc =>
    cases h
    refine .inr ⟨hc, rfl, fun cs' => ?_⟩
    unfold lexeme
    rw [if_neg hdigit, if_neg halpha]
    split
    case h_12 => rfl
    all_goals contradiction
  all_goals cases h

/-- Not more than the next character decides whether a character is refused. -/
theorem lexeme_error_of_head (h : lexeme p c cs = .error e) (he : e ≠ .oversizedInteger)
    (hhead : cs'.head? = cs.head?) : lexeme p c cs' = .error e := by
  rcases failure_cases h he with ⟨rfl, hnext, rfl⟩ | ⟨-, -, hany⟩
  · exact lexeme_bang (hhead ▸ hnext)
  · exact hany cs'

theorem refusesAt_of_lexeme {i : Nat} (h : lexeme (place file i) c cs = .error e)
    (he : e ≠ .oversizedInteger) : ∃ d, e.diagnostic? = some d ∧ RefusesAt file i c d := by
  rcases failure_cases h he with ⟨rfl, -, rfl⟩ | ⟨hc, rfl, -⟩
  · exact ⟨_, rfl, rfl, rfl, rfl, rfl⟩
  · refine ⟨_, rfl, rfl, ?_, (if_neg hc).symm, (if_neg hc).symm⟩
    simp only [Position.advance, apply_ite Position.index, ite_self, place]

/-! ## Where a scan stops -/

theorem scanFrom_cons_error (hc : isBlank c = false) (h : lexeme p c cs = .error e) :
    scanFrom p 0 (c :: cs) = .error e := by
  rw [scanFrom, if_neg (by simp [hc]), h]

theorem scanFrom_cons_lexeme (hc : isBlank c = false) (h : lexeme p c cs = .ok x) :
    scanFrom p 0 (c :: cs) = (scanFrom p.advance x.more cs).map (x.token p :: ·) := by
  rw [scanFrom, if_neg (by simp [hc]), h]

/-- From the index `i` on the characters `pre` are scanned, of which the first `inside` belong to a
lexeme, and then `c` fails before `rest`. Whatever it fails before, the scan gets so far. -/
structure StopsAt (file : String) (i inside : Nat) (pre : List Char) (c : Char)
    (rest : List Char) (e : Failure) : Prop where
  inside_le : inside ≤ pre.length
  scanned : ∃ ts, scanFrom (place file i) inside pre = .ok ts
  fails : lexeme (place file (i + pre.length)) c rest = .error e
  refused : ∀ rest', lexeme (place file (i + pre.length)) c rest' = .error e →
    scanFrom (place file i) inside (pre ++ c :: rest') = .error e

variable {i n : Nat} {pre rest : List Char} {d : Char}

theorem add_length_cons (i : Nat) (d : Char) (pre : List Char) :
    i + (d :: pre).length = i + 1 + pre.length := by
  rw [List.length_cons]
  omega

theorem StopsAt.nil (hb : isBlank c = false) (h : Scan.lexeme (place file i) c rest = .error e) :
    StopsAt file i 0 [] c rest e where
  inside_le := Nat.le_refl 0
  scanned := ⟨_, rfl⟩
  fails := h
  refused _ h := scanFrom_cons_error hb h

theorem StopsAt.inside (h : StopsAt file (i + 1) n pre c rest e) :
    StopsAt file i (n + 1) (d :: pre) c rest e where
  inside_le := Nat.succ_le_succ h.inside_le
  scanned := h.scanned
  fails := by rw [add_length_cons]; exact h.fails
  refused := by rw [add_length_cons]; exact h.refused

theorem StopsAt.blank (hd : isBlank d = true) (h : StopsAt file (i + 1) 0 pre c rest e) :
    StopsAt file i 0 (d :: pre) c rest e where
  inside_le := Nat.zero_le _
  scanned := by
    rw [scanFrom, if_pos hd]
    exact h.scanned
  fails := by rw [add_length_cons]; exact h.fails
  refused := by
    intro rest' hc
    rw [add_length_cons] at hc
    rw [List.cons_append, scanFrom, if_pos hd]
    exact h.refused rest' hc

/-- The lexeme before is cut from every text that goes on with the same character. -/
theorem StopsAt.lexeme (hd : isBlank d = false)
    (hx : Scan.lexeme (place file i) d (pre ++ c :: rest) = .ok x)
    (h : StopsAt file (i + 1) x.more pre c rest e) : StopsAt file i 0 (d :: pre) c rest e := by
  have hlen := h.inside_le
  have hdrop (rest : List Char) : (pre ++ c :: rest).drop x.more = pre.drop x.more ++ c :: rest :=
    List.drop_append_of_le_length hlen
  have htake (rest : List Char) : (pre ++ c :: rest).take x.more = pre.take x.more :=
    List.take_append_of_le_length hlen
  have hmax := maximal_of_lexeme hx
  rw [hdrop] at hmax
  have hbefore : Scan.lexeme (place file i) d pre = .ok x :=
    lexeme_of_maximal hx hlen (htake rest).symm (hmax.of_head fun a ha => by
      rw [List.head?_append, ha]
      rfl)
  have hany (rest' : List Char) : Scan.lexeme (place file i) d (pre ++ c :: rest') = .ok x := by
    refine lexeme_of_maximal hx ?_ ((htake rest').trans (htake rest).symm) ?_
    · rw [List.length_append]
      exact Nat.le_add_right_of_le hlen
    · rw [hdrop]
      refine hmax.of_head fun a ha => ?_
      rwa [List.head?_append] at ha ⊢
  refine ⟨Nat.zero_le _, ?_, by rw [add_length_cons]; exact h.fails, fun rest' hc => ?_⟩
  · obtain ⟨ts, hts⟩ := h.scanned
    rw [scanFrom_cons_lexeme hd hbefore, place_advance, hts]
    exact ⟨_, rfl⟩
  · rw [add_length_cons] at hc
    rw [List.cons_append, scanFrom_cons_lexeme hd (hany rest'), place_advance, h.refused rest' hc]
    rfl

/-- A scan that fails stops at a character that fails. -/
theorem stopsAt_of_scanFrom : ∀ (cs : List Char) (i n : Nat),
    scanFrom (place file i) n cs = .error e →
      ∃ pre c rest, cs = pre ++ c :: rest ∧ StopsAt file i n pre c rest e
  | [], i, n, h => by cases h
  | d :: cs, i, n + 1, h => by
    obtain ⟨pre, c, rest, rfl, hstop⟩ := stopsAt_of_scanFrom cs (i + 1) n h
    exact ⟨d :: pre, c, rest, rfl, hstop.inside⟩
  | d :: cs, i, 0, h => by
    cases hd : isBlank d with
    | true =>
      rw [scanFrom, if_pos hd] at h
      obtain ⟨pre, c, rest, rfl, hstop⟩ := stopsAt_of_scanFrom cs (i + 1) 0 h
      exact ⟨d :: pre, c, rest, rfl, hstop.blank hd⟩
    | false =>
      cases hx : Scan.lexeme (place file i) d cs with
      | error e' =>
        rw [scanFrom_cons_error hd hx] at h
        cases h
        exact ⟨[], d, cs, rfl, .nil hd hx⟩
      | ok x =>
        rw [scanFrom_cons_lexeme hd hx, place_advance] at h
        cases hrest : scanFrom (place file (i + 1)) x.more cs with
        | ok ts => rw [hrest] at h; cases h
        | error e' =>
          rw [hrest] at h
          cases h
          obtain ⟨pre, c, rest, rfl, hstop⟩ := stopsAt_of_scanFrom cs (i + 1) x.more hrest
          exact ⟨d :: pre, c, rest, rfl, hstop.lexeme hd hx⟩

/-- A text with the same characters up to the one after `c` goes on after `c` with the same one. -/
theorem exists_rest_of_take {text : List Char}
    (h : text.take (pre.length + 2) = (pre ++ c :: rest).take (pre.length + 2)) :
    ∃ rest', text = pre ++ c :: rest' ∧ rest'.head? = rest.head? := by
  have htake : text.take (pre.length + 1) = pre ++ [c] := by
    have := congrArg (List.take (pre.length + 1)) h
    rw [List.take_take, List.take_take, Nat.min_eq_left (Nat.le_succ _)] at this
    rw [this, List.take_append, List.take_of_length_le (Nat.le_succ _), Nat.add_sub_cancel_left]
    rfl
  refine ⟨text.drop (pre.length + 1), ?_, ?_⟩
  · conv => lhs; rw [← List.take_append_drop (pre.length + 1) text, htake]
    rw [List.append_assoc, List.singleton_append]
  · have hlast := congrArg (·[pre.length + 1]?) h
    simp only [List.getElem?_take_of_lt (Nat.lt_succ_self (pre.length + 1))] at hlast
    rw [List.head?_drop, hlast, List.getElem?_append_right (Nat.le_add_right _ 1),
      Nat.add_sub_cancel_left, List.getElem?_cons_succ, ← List.head?_eq_getElem?]

end

end Scan

open Scan

variable {file text : String}

/-- Where a text is refused whose integers can be read, it is one character that is refused. What
comes before is scanned, and every text with the same characters up to the next one, or the same
end, is refused in the same way. -/
theorem scan_refused {e : Failure} (hr : Readable text.toList) (h : scan file text = .error e) :
    ∃ i c d, text.toList[i]? = some c ∧ e.diagnostic? = some d ∧ RefusesAt file i c d ∧
      (∃ ts, scan file (String.ofList (text.toList.take i)) = .ok ts) ∧
      ∀ other : String, other.toList.take (i + 2) = text.toList.take (i + 2) →
        scan file other = .error e := by
  have he : e ≠ .oversizedInteger := by
    rintro rfl
    exact scan_ne_oversized hr h
  obtain ⟨pre, c, rest, htext, hstop⟩ := stopsAt_of_scanFrom text.toList 0 0 h
  obtain ⟨d, hd, hrefuses⟩ := refusesAt_of_lexeme hstop.fails he
  rw [Nat.zero_add] at hrefuses
  refine ⟨pre.length, c, d, ?_, hd, hrefuses, ?_, fun other hother => ?_⟩
  · rw [htext, List.getElem?_append_right (Nat.le_refl _), Nat.sub_self, List.getElem?_cons_zero]
  · rw [htext, List.take_left]
    obtain ⟨ts, hts⟩ := hstop.scanned
    exact ⟨ts, by rwa [scan, String.toList_ofList]⟩
  · rw [htext] at hother
    obtain ⟨rest', hrest, hhead⟩ := exists_rest_of_take hother
    rw [scan, hrest]
    exact hstop.refused rest' (lexeme_error_of_head hstop.fails he hhead)

/-- A second dot is refused after a numeral, whatever it is followed by. -/
theorem secondDot_refused :
    scan "<t>" "1..2" = .error (.illegalCharacter '.' (place "<t>" 2) (place "<t>" 3)) ∧
      ∃ i c d, "1..2".toList[i]? = some c ∧
        (Failure.illegalCharacter '.' (place "<t>" 2) (place "<t>" 3)).diagnostic? = some d ∧
        RefusesAt "<t>" i c d ∧
        (∃ ts, scan "<t>" (String.ofList ("1..2".toList.take i)) = .ok ts) ∧
        ∀ other : String, other.toList.take (i + 2) = "1..2".toList.take (i + 2) →
          scan "<t>" other =
            .error (.illegalCharacter '.' (place "<t>" 2) (place "<t>" 3)) := by
  have hscan : scan "<t>" "1..2" =
      .error (.illegalCharacter '.' (place "<t>" 2) (place "<t>" 3)) := by decide +kernel
  exact ⟨hscan, scan_refused (readable_of_length (by decide)) hscan⟩

end Reckoner
