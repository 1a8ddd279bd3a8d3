import Mathlib.Data.Nat.Digits.Lemmas
import Reckoner.Proofs.Json.RoundTrip
import Reckoner.Proofs.Token.Segmentation
import Reckoner.Proofs.Tree.Codec

/-!
# Trees are written legibly

A tree is written legibly if its tokens are (`Tree.legible_toJson`), and a scanned token is if it
holds no binary64 number and stands where positions can be written (`legible_of_scan`): the
integers that are scanned are short enough to be written.
-/

set_option autoImplicit false

namespace Reckoner

/-! ## Trees -/

mutual

/-- A tree is written legibly if its tokens are. -/
theorem Tree.legible_toJson : ∀ t : Tree, t.All (fun k => k.toJson.Legible) → t.toJson.Legible
  | .absent, _ => trivial
  | .literal t, h | .ident t, h => by
    simp [Tree.toJson, Json.Legible, Json.LegibleFields, show t.toJson.Legible from h]
  | .assign name value, h => by
    simp [Tree.toJson, Json.Legible, Json.LegibleFields, h.1, value.legible_toJson h.2]
  | .unary op operand, h => by
    simp [Tree.toJson, Json.Legible, Json.LegibleFields, h.1, operand.legible_toJson h.2]
  | .binary op left right, h => by
    simp [Tree.toJson, Json.Legible, Json.LegibleFields, h.1, left.legible_toJson h.2.1,
      right.legible_toJson h.2.2]
  | .conditional branches otherwise, h => by
    simp [Tree.toJson, Json.Legible, Json.LegibleFields, branches.legible_toJson h.1,
      otherwise.legible_toJson h.2]
  | .forLoop name first last stride body, h => by
    simp [Tree.toJson, Json.Legible, Json.LegibleFields, h.1, first.legible_toJson h.2.1,
      last.legible_toJson h.2.2.1, stride.legible_toJson h.2.2.2.1,
      body.legible_toJson h.2.2.2.2]
  | .whileLoop condition body, h => by
    simp [Tree.toJson, Json.Legible, Json.LegibleFields, condition.legible_toJson h.1,
      body.legible_toJson h.2]

theorem Branches.legible_toJson : ∀ b : Branches, b.All (fun k => k.toJson.Legible) →
    Json.LegibleItems b.toJson
  | .nil, _ => trivial
  | .cons condition body rest, h => by
    simp [Branches.toJson, Json.Legible, Json.LegibleItems, condition.legible_toJson h.1,
      body.legible_toJson h.2.1, rest.legible_toJson h.2.2]

end

/-! ## Tokens -/

theorem Number.tooLong_of_lt {n k : Nat} (h : n < 10 ^ k) (hk : k ≤ digitLimit) :
    Number.tooLong n = false := by
  have hlimit : ∀ limit : Nat, k ≤ limit → decide (powTen limit ≤ n) = false := by
    intro limit hle
    rw [decide_eq_false_iff_not, powTen, Nat.pow_eq, Nat.not_le]
    exact Nat.lt_of_lt_of_le h (Nat.pow_le_pow_right (by decide) hle)
  exact hlimit _ hk

theorem Number.tooLong_of_le {m n : Nat} (h : m ≤ n) (hn : Number.tooLong n = false) :
    Number.tooLong m = false := by
  rw [Number.tooLong, decide_eq_false_iff_not] at hn ⊢
  exact fun hm => hn (Nat.le_trans hm h)

namespace Scan

theorem decimal_lt {ds : List Char} (hd : ∀ c ∈ ds, c.isDigit = true) :
    decimal ds < 10 ^ ds.length := by
  have hvalues : ∀ n ∈ ds.reverse.map fun c => c.toNat - '0'.toNat, n < 10 := by
    intro n hn
    obtain ⟨c, hc, rfl⟩ := List.mem_map.1 hn
    have hc := Char.isDigit_iff_toNat.1 (hd c (List.mem_reverse.1 hc))
    have hzero : '0'.toNat = 48 := rfl
    have hnine : '9'.toNat = 57 := rfl
    omega
  have h := Nat.ofDigits_lt_base_pow_length (by decide) hvalues
  rwa [List.length_map, List.length_reverse] at h

/-- What is cut holds nothing that is not written legibly, if it is no binary64 number. -/
theorem legible_of_lexeme {p : Position} {c : Char} {cs : List Char} {x : Lexeme}
    (h : lexeme p c cs = .ok x) (hx : x.symbol ≠ .float) : x.value.toJson.Legible := by
  unfold lexeme at h
  split at h
  · next hc =>
    have hwhole : ∀ d ∈ c :: cs.takeWhile Char.isDigit, d.isDigit = true :=
      List.forall_mem_cons.2 ⟨hc, takeWhile_all _ _⟩
    simp only [numeral, ofDigits_eq_decimal] at h
    split at h
    · cases h
      exact absurd rfl hx
    · split at h
      · cases h
      · next hlong =>
        cases h
        exact Number.tooLong_of_lt (decimal_lt hwhole) (Nat.not_lt.1 hlong)
  split at h
  · cases h
    trivial
  split at h
  case h_8 | h_9 | h_10 =>
    cases h
    unfold signOrEquals
    split <;> trivial
  case h_11 =>
    split at h <;> cases h
    trivial
  case h_12 => cases h
  all_goals
    cases h
    trivial

/-- What holds of the end token and of the token of every lexeme holds of all scanned tokens. -/
theorem forall_mem_scanFrom {P : Token → Prop} (hend : ∀ p, P (endToken p))
    (hlexeme : ∀ p c cs x, lexeme p c cs = .ok x → P (x.token p)) (cs : List Char) :
    ∀ p inside ts, scanFrom p inside cs = .ok ts → ∀ t ∈ ts, P t := by
  induction cs with
  | nil =>
    rintro p inside ts ⟨⟩
    exact List.forall_mem_singleton.2 (hend p)
  | cons c cs ih =>
    intro p inside ts h
    unfold scanFrom at h
    split at h
    · exact ih _ _ _ h
    split at h
    · exact ih _ _ _ h
    split at h
    · cases h
    · next x hx =>
      cases hrest : scanFrom p.advance x.more cs with
      | error e => rw [hrest] at h; cases h
      | ok rest =>
        rw [hrest] at h
        cases h
        exact List.forall_mem_cons.2 ⟨hlexeme p c cs x hx, ih _ _ _ hrest⟩

theorem legible_tokenAt (file : String) (k : Symbol) {v : Datum} {i j : Nat}
    (hv : v.toJson.Legible) (hij : i ≤ j) (hj : Number.tooLong j = false) :
    (tokenAt file k v i j).toJson.Legible := by
  have hplace : ∀ n ≤ j, (Position.optionToJson (some (place file n))).Legible := fun n hn =>
    ⟨Number.tooLong_of_le hn hj, Number.tooLong_of_le (Nat.zero_le j) hj,
      Number.tooLong_of_le hn hj, trivial⟩
  have hlabel : (Kind.known k).label.toJson.Legible := trivial
  have hspan : (tokenAt file k v i j).span = ⟨some (place file i), some (place file j)⟩ := rfl
  rw [Token.toJson, hspan]
  exact ⟨by simp, hlabel, hv, hplace i hij, hplace j (Nat.le_refl j), trivial⟩

end Scan

open Scan

variable {file text : String}

/-- The tokens of a text without a point are written legibly, if the last position is. -/
theorem legible_of_scan {ts : List Token} (h : scan file text = .ok ts)
    (hpoint : '.' ∉ text.toList) (hlength : Number.tooLong (text.length + 1 : Nat) = false) :
    ∀ t ∈ ts, t.toJson.Legible := by
  have hvalue : ∀ t ∈ ts, t.is .float = false → t.value.toJson.Legible := by
    refine forall_mem_scanFrom (fun p _ => trivial) ?_ _ _ _ _ h
    intro p c cs x hx hfloat
    exact legible_of_lexeme hx fun hk => by simp [is_token.2 hk] at hfloat
  intro t ht
  obtain ⟨k, v, i, j, rfl, hij, hj, hk⟩ := exists_tokenAt h t ht
  refine legible_tokenAt file k (hvalue _ ht ?_) hij (Number.tooLong_of_le hj hlength)
  -- a binary64 number would be spelled with a point
  rw [Bool.eq_false_iff]
  intro hfloat
  obtain rfl : k = .float := by simpa [Token.is, tokenAt, Token.make] using hfloat
  rcases hk with hk | hspells
  · cases hk
  · generalize hw : text.toList.extract i j = w at hspells
    cases hspells with
    | float hds hd hf =>
      have hmem : '.' ∈ text.toList.extract i j := hw ▸ List.mem_append_right _ (.head _)
      exact hpoint (List.mem_of_mem_drop (List.mem_of_mem_take hmem))
    | sign hsign => simp [signs] at hsign

end Reckoner
