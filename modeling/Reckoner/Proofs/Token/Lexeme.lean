import Mathlib.Data.List.Induction
import Mathlib.Data.Nat.Digits.Defs
import Reckoner.Proofs.Binary64.Nearest
import Reckoner.Proofs.Token.Scanned

/-!
# Lexemes

What a lexeme is, apart from how it is found: `Spells w k v` says that the characters `w` spell
a token of kind `k` with the datum `v`. Digits with a dot spell the binary64 number nearest to the
decimal fraction that they are. What is cut from the head of a text is spelled so
(`spells_of_lexeme`) and cannot be longer (`maximal_of_lexeme`), and whatever is spelled so and
cannot be longer is cut (`lexeme_of_spells`).
-/

set_option autoImplicit false

namespace Reckoner

namespace Scan

/-- The natural that decimal digits stand for, the most significant one first. -/
def decimal (ds : List Char) : Nat := Nat.ofDigits 10 (ds.reverse.map fun c => c.toNat - '0'.toNat)

theorem ofDigits_eq_decimal (ds : List Char) : Binary64.ofDigits ds = decimal ds := by
  induction ds using List.reverseRecOn with
  | nil => rfl
  | append_singleton ds c ih =>
    rw [Binary64.ofDigits, List.foldl_append, ← Binary64.ofDigits, ih, decimal, decimal,
      List.reverse_concat, List.map_cons, Nat.ofDigits_cons]
    exact Nat.add_comm _ _

/-- The value of decimal digits `ds`, a dot and the digits `fs`. -/
def fraction (ds fs : List Char) : ℚ := decimal (ds ++ fs) / 10 ^ fs.length

/-- The spellings of the operators and parentheses. -/
def signs : List (List Char × Symbol) :=
  [(['+'], .plus), (['-'], .minus), (['*'], .times), (['/'], .divide), (['^'], .power),
    (['('], .openParen), ([')'], .closeParen), (['='], .assign), (['=', '='], .equal),
    (['!', '='], .unequal), (['<'], .less), (['<', '='], .atMost), (['>'], .greater),
    (['>', '='], .atLeast)]

/-- The characters are those of a token of this kind, which holds this datum. -/
inductive Spells : List Char → Symbol → Datum → Prop where
  | int {ds : List Char} (hds : ds ≠ []) (hd : ∀ c ∈ ds, c.isDigit = true) :
      Spells ds .int (.number (.int (decimal ds)))
  | float {ds fs : List Char} {x : Binary64} (hds : ds ≠ []) (hd : ∀ c ∈ ds, c.isDigit = true)
      (hf : ∀ c ∈ fs, c.isDigit = true) (hx : Binary64.Nearest (fraction ds fs) x) :
      Spells (ds ++ '.' :: fs) .float (.number (.float x))
  | keyword (w : Keyword) : Spells w.text.toList .keyword (.text w.text)
  | identifier {c : Char} {cs : List Char} (hc : c.isAlpha = true)
      (hcs : ∀ d ∈ cs, isWordChar d = true)
      (hk : ∀ w : Keyword, w.text ≠ String.ofList (c :: cs)) :
      Spells (c :: cs) .identifier (.text (String.ofList (c :: cs)))
  | sign {w : List Char} {k : Symbol} (h : (w, k) ∈ signs) : Spells w k .blank

def IsLexeme (w : List Char) : Prop := ∃ k v, Spells w k v

/-- The lexeme `w` gets no longer by the character that comes next. -/
def Maximal (w rest : List Char) : Prop := ∀ d ∈ rest.head?, ¬ IsLexeme (w ++ [d])

/-! ## Fractions -/

/-- What a fraction is read as. -/
theorem fraction_nearest (ds fs : List Char) : Binary64.Nearest (fraction ds fs)
    (.ofDecimal false (decimal (ds ++ fs)) (-(fs.length : Int))) := by
  have h := Binary64.ofDecimal_nearest (decimal (ds ++ fs)) (-(fs.length : Int))
  rwa [zpow_neg, zpow_natCast, ← div_eq_mul_inv] at h

theorem isLexeme_float {ds fs : List Char} (hds : ds ≠ []) (hd : ∀ c ∈ ds, c.isDigit = true)
    (hf : ∀ c ∈ fs, c.isDigit = true) : IsLexeme (ds ++ '.' :: fs) :=
  ⟨_, _, .float hds hd hf (fraction_nearest ds fs)⟩

/-! ## Words -/

theorem mem_all_keywords (w : Keyword) : w ∈ Keyword.all := by cases w <;> decide

theorem ofText?_isSome {s : String} :
    (Keyword.ofText? s).isSome = true ↔ ∃ w : Keyword, w.text = s := by
  rw [Keyword.ofText?, List.find?_isSome]
  simp only [beq_iff_eq]
  exact ⟨fun ⟨w, _, h⟩ => ⟨w, h⟩, fun ⟨w, h⟩ => ⟨w, mem_all_keywords w, h⟩⟩

/-- Letters, digits and underscores after a letter spell a keyword or an identifier. -/
theorem spells_word {c : Char} {cs : List Char} (hc : c.isAlpha = true)
    (hcs : ∀ d ∈ cs, isWordChar d = true) :
    Spells (c :: cs) (if (Keyword.ofText? (String.ofList (c :: cs))).isSome then .keyword
      else .identifier) (.text (String.ofList (c :: cs))) := by
  split
  · next h =>
    obtain ⟨w, hw⟩ := ofText?_isSome.1 h
    have hs := Spells.keyword w
    rwa [hw, String.toList_ofList] at hs
  · next h => exact .identifier hc hcs fun w hw => h (ofText?_isSome.2 ⟨w, hw⟩)

/-- A keyword is a word too. -/
theorem keyword_letters (w : Keyword) : ∃ c cs, w.text.toList = c :: cs ∧ c.isAlpha = true ∧
    ∀ d ∈ cs, isWordChar d = true := by
  have hletters : w.text.toList.head?.any Char.isAlpha = true ∧
      w.text.toList.tail.all isWordChar = true := by
    cases w <;> decide +kernel
  cases hw : w.text.toList with
  | nil =>
    rw [hw] at hletters
    cases hletters.1
  | cons c cs =>
    rw [hw] at hletters
    exact ⟨c, cs, rfl, hletters.1, List.all_eq_true.1 hletters.2⟩

/-! ## What is cut is spelled -/

theorem takeWhile_all (f : Char → Bool) (cs : List Char) : ∀ c ∈ cs.takeWhile f, f c = true :=
  List.all_eq_true.1 List.all_takeWhile

/-- What is cut after the first character, if it is known to be the head `u` of the rest. -/
theorem spells_of_prefix {c : Char} {cs u rest : List Char} {k : Symbol} {v : Datum} {n : Nat}
    (h : Spells (c :: u) k v) (hcs : cs = u ++ rest) (hn : n = u.length) :
    n ≤ cs.length ∧ Spells (c :: cs.take n) k v := by
  subst hcs hn
  rw [List.take_left]
  exact ⟨List.length_append ▸ Nat.le_add_right _ _, h⟩

theorem spells_of_numeral {c : Char} {cs : List Char} {x : Lexeme} (hc : c.isDigit = true)
    (h : numeral c cs = .ok x) :
    x.more ≤ cs.length ∧ Spells (c :: cs.take x.more) x.symbol x.value := by
  have hwhole : ∀ d ∈ c :: cs.takeWhile Char.isDigit, d.isDigit = true :=
    List.forall_mem_cons.2 ⟨hc, takeWhile_all _ _⟩
  have hcs : cs = cs.takeWhile Char.isDigit ++ cs.dropWhile Char.isDigit :=
    List.takeWhile_append_dropWhile.symm
  simp only [numeral, ofDigits_eq_decimal] at h
  split at h
  · next rest hdot =>
    cases h
    have hfloat : cs = (cs.takeWhile Char.isDigit ++ '.' :: rest.takeWhile Char.isDigit) ++
        rest.dropWhile Char.isDigit := by
      rw [hdot] at hcs
      rwa [List.append_assoc, List.cons_append, List.takeWhile_append_dropWhile]
    refine spells_of_prefix (.float (List.cons_ne_nil _ _) hwhole
      (takeWhile_all Char.isDigit rest) (fraction_nearest _ _)) hfloat ?_
    simp only [List.length_cons, List.append_eq, List.length_append]
    omega
  · split at h <;> cases h
    exact spells_of_prefix (.int (List.cons_ne_nil _ _) hwhole) hcs rfl

theorem spells_sign {c : Char} {k : Symbol} (h : ([c], k) ∈ signs) (cs : List Char) :
    (sign k).more ≤ cs.length ∧ Spells (c :: cs.take (sign k).more) (sign k).symbol (sign k).value :=
  ⟨Nat.zero_le _, .sign h⟩

theorem spells_signOrEquals {c : Char} {cs : List Char} {single double : Symbol}
    (hs : ([c], single) ∈ signs) (hd : ([c, '='], double) ∈ signs) :
    let x := signOrEquals single double cs
    x.more ≤ cs.length ∧ Spells (c :: cs.take x.more) x.symbol x.value := by
  unfold signOrEquals
  split
  · exact ⟨Nat.le_add_left _ _, .sign hd⟩
  · exact ⟨Nat.zero_le _, .sign hs⟩

theorem spells_of_lexeme {p : Position} {c : Char} {cs : List Char} {x : Lexeme}
    (h : lexeme p c cs = .ok x) :
    x.more ≤ cs.length ∧ Spells (c :: cs.take x.more) x.symbol x.value := by
  unfold lexeme at h
  split at h
  · next hc => exact spells_of_numeral hc h
  split at h
  · next hc =>
    cases h
    exact spells_of_prefix (spells_word hc (takeWhile_all isWordChar cs))
      List.takeWhile_append_dropWhile.symm rfl
  split at h
  case h_8 | h_9 | h_10 =>
    cases h
    exact spells_signOrEquals (by decide) (by decide)
  case h_11 =>
    split at h <;> cases h
    exact ⟨Nat.le_add_left _ _, .sign (w := ['!', '=']) (by decide)⟩
  case h_12 => cases h
  all_goals
    cases h
    exact spells_sign (by decide) cs

/-! ## What is spelled is cut -/

section

variable {f : Char → Bool} {w rest : List Char}

theorem takeWhile_exact (hw : ∀ c ∈ w, f c = true) (hr : ∀ d ∈ rest.head?, f d = false) :
    (w ++ rest).takeWhile f = w := by
  rw [List.takeWhile_append_of_pos hw]
  cases rest with
  | nil => exact List.append_nil w
  | cons d rest => rw [List.takeWhile_cons_of_neg (by simp [hr d rfl]), List.append_nil]

theorem dropWhile_exact (hw : ∀ c ∈ w, f c = true) (hr : ∀ d ∈ rest.head?, f d = false) :
    (w ++ rest).dropWhile f = rest := by
  rw [List.dropWhile_append_of_pos hw]
  cases rest with
  | nil => rfl
  | cons d rest => rw [List.dropWhile_cons_of_neg (by simp [hr d rfl])]

end

/-- The lexeme is cut from the head of the text, unless it is an integer of more digits than can be
read. -/
def IsCutAt (p : Position) (w rest : List Char) (k : Symbol) (v : Datum) : Prop :=
  ∃ c u, w = c :: u ∧ isBlank c = false ∧
    (lexeme p c (u ++ rest) = .ok ⟨k, v, u.length⟩ ∨
      k = .int ∧ Number.digitLimit ≤ u.length ∧
        lexeme p c (u ++ rest) = .error .oversizedInteger)

theorem not_blank_of_wordChar {c : Char} (h : isWordChar c = true) : isBlank c = false := by
  rw [Bool.eq_false_iff]
  intro hb
  simp only [isBlank, Bool.or_eq_true, beq_iff_eq] at hb
  rcases hb with rfl | rfl <;> revert h <;> decide

theorem wordChar_of_digit {c : Char} (h : c.isDigit = true) : isWordChar c = true := by
  simp [isWordChar, Char.isAlphanum, h]

theorem wordChar_of_alpha {c : Char} (h : c.isAlpha = true) : isWordChar c = true := by
  simp [isWordChar, Char.isAlphanum, h]

theorem isDigit_of_isAlpha {c : Char} (h : c.isAlpha = true) : c.isDigit = false := by
  rw [Bool.eq_false_iff]
  intro hd
  delta Char.isAlpha Char.isUpper Char.isLower at h
  simp only [Char.isDigit, Bool.or_eq_true, Bool.and_eq_true, decide_eq_true_eq,
    UInt32.le_iff_toNat_le] at h hd
  have hnine : '9'.val.toNat = 57 := rfl
  have hupper : 'A'.val.toNat = 65 := rfl
  have hlower : 'a'.val.toNat = 97 := rfl
  omega

variable {p : Position} {w rest : List Char}

theorem forall_mem_concat {f : Char → Bool} (hw : ∀ c ∈ w, f c = true) {d : Char}
    (hd : f d = true) : ∀ c ∈ w ++ [d], f c = true :=
  List.forall_mem_append.2 ⟨hw, List.forall_mem_singleton.2 hd⟩

theorem isCutAt_int (hw : w ≠ []) (hd : ∀ c ∈ w, c.isDigit = true) (hm : Maximal w rest) :
    IsCutAt p w rest .int (.number (.int (decimal w))) := by
  have hdigit : ∀ d ∈ rest.head?, d.isDigit = false := by
    intro d hnext
    rw [Bool.eq_false_iff]
    intro h
    exact hm d hnext ⟨_, _, .int (by simp) (forall_mem_concat hd h)⟩
  have hdot : ∀ d ∈ rest.head?, d ≠ '.' := by
    rintro d hnext rfl
    exact hm '.' hnext (isLexeme_float hw hd (List.forall_mem_nil _))
  cases w with
  | nil => exact absurd rfl hw
  | cons c u =>
    obtain ⟨hc, hu⟩ := List.forall_mem_cons.1 hd
    refine ⟨c, u, rfl, not_blank_of_wordChar (wordChar_of_digit hc), ?_⟩
    unfold lexeme
    rw [if_pos hc]
    simp only [numeral, takeWhile_exact hu hdigit, dropWhile_exact hu hdigit, ofDigits_eq_decimal]
    split
    · exact absurd rfl (hdot '.' rfl)
    · split
      · next hlong => exact .inr ⟨trivial, Nat.le_of_lt_succ hlong, rfl⟩
      · exact .inl rfl

theorem isCutAt_float {ds fs : List Char} {x : Binary64} (hds : ds ≠ [])
    (hd : ∀ c ∈ ds, c.isDigit = true) (hf : ∀ c ∈ fs, c.isDigit = true)
    (hx : Binary64.Nearest (fraction ds fs) x) (hm : Maximal (ds ++ '.' :: fs) rest) :
    IsCutAt p (ds ++ '.' :: fs) rest .float (.number (.float x)) := by
  obtain rfl := hx.unique (fraction_nearest ds fs)
  have hdigit : ∀ d ∈ rest.head?, d.isDigit = false := by
    intro d hnext
    rw [Bool.eq_false_iff]
    intro h
    have hlonger := isLexeme_float hds hd (forall_mem_concat hf h)
    exact hm d hnext (by rwa [List.append_assoc])
  have hdot : ∀ d ∈ ('.' :: (fs ++ rest)).head?, d.isDigit = false := by
    rintro d ⟨⟩
    decide
  cases ds with
  | nil => exact absurd rfl hds
  | cons c u =>
    obtain ⟨hc, hu⟩ := List.forall_mem_cons.1 hd
    refine ⟨c, u ++ '.' :: fs, rfl, not_blank_of_wordChar (wordChar_of_digit hc), .inl ?_⟩
    unfold lexeme
    rw [if_pos hc, List.append_assoc, List.cons_append]
    simp only [numeral, takeWhile_exact hu hdot, dropWhile_exact hu hdot,
      takeWhile_exact hf hdigit, ofDigits_eq_decimal]
    congr 2
    simp only [List.length_cons, List.length_append]
    omega

theorem isCutAt_word {c : Char} {u : List Char} (hc : c.isAlpha = true)
    (hu : ∀ d ∈ u, isWordChar d = true) (hm : Maximal (c :: u) rest) :
    IsCutAt p (c :: u) rest (if (Keyword.ofText? (String.ofList (c :: u))).isSome then .keyword
      else .identifier) (.text (String.ofList (c :: u))) := by
  have hnext : ∀ d ∈ rest.head?, isWordChar d = false := by
    intro d hnext
    rw [Bool.eq_false_iff]
    intro h
    exact hm d hnext ⟨_, _, spells_word hc (forall_mem_concat hu h)⟩
  refine ⟨c, u, rfl, not_blank_of_wordChar (wordChar_of_alpha hc), .inl ?_⟩
  unfold lexeme
  rw [if_neg (by simp [isDigit_of_isAlpha hc]), if_pos hc, word, takeWhile_exact hu hnext]
  rfl

theorem signOrEquals_single {single double : Symbol} (h : ∀ d ∈ rest.head?, d ≠ '=') :
    signOrEquals single double rest = ⟨single, .blank, 0⟩ := by
  unfold signOrEquals
  split
  · exact absurd rfl (h '=' rfl)
  · rfl

theorem isCutAt_sign {k : Symbol} (h : (w, k) ∈ signs) (hm : Maximal w rest) :
    IsCutAt p w rest k .blank := by
  have hnext : ∀ c, w = [c] → [c, '='] ∈ signs.map Prod.fst → ∀ d ∈ rest.head?, d ≠ '=' := by
    rintro c rfl hdouble d hnext rfl
    obtain ⟨⟨_, k⟩, hk, rfl⟩ := List.mem_map.1 hdouble
    exact hm '=' hnext ⟨k, _, .sign hk⟩
  simp only [signs, List.mem_cons, Prod.mk.injEq, List.not_mem_nil, or_false] at h
  rcases h with ⟨rfl, rfl⟩ | ⟨rfl, rfl⟩ | ⟨rfl, rfl⟩ | ⟨rfl, rfl⟩ | ⟨rfl, rfl⟩ | ⟨rfl, rfl⟩ |
    ⟨rfl, rfl⟩ | ⟨rfl, rfl⟩ | ⟨rfl, rfl⟩ | ⟨rfl, rfl⟩ | ⟨rfl, rfl⟩ | ⟨rfl, rfl⟩ | ⟨rfl, rfl⟩ |
    ⟨rfl, rfl⟩
  -- a sign that an equals sign would turn into another one is cut because none comes next
  case inr.inr.inr.inr.inr.inr.inr.inl | inr.inr.inr.inr.inr.inr.inr.inr.inr.inr.inl |
      inr.inr.inr.inr.inr.inr.inr.inr.inr.inr.inr.inr.inl =>
    exact ⟨_, _, rfl, rfl, .inl (congrArg Except.ok
      (signOrEquals_single (hnext _ rfl (by decide))))⟩
  all_goals exact ⟨_, _, rfl, rfl, .inl rfl⟩

/-- Whatever is spelled as a lexeme and gets no longer by the next character is cut, unless it is
an integer that cannot be read. -/
theorem lexeme_of_spells {k : Symbol} {v : Datum} (h : Spells w k v) (hm : Maximal w rest) :
    IsCutAt p w rest k v := by
  cases h with
  | int hds hd => exact isCutAt_int hds hd hm
  | float hds hd hf hx => exact isCutAt_float hds hd hf hx hm
  | keyword w =>
    obtain ⟨c, u, hw, hc, hu⟩ := keyword_letters w
    have htext : w.text = String.ofList (c :: u) := by rw [← hw, String.ofList_toList]
    have hcut := isCutAt_word (p := p) hc hu (hw ▸ hm)
    rw [if_pos (ofText?_isSome.2 ⟨w, htext⟩), ← htext, ← hw] at hcut
    exact hcut
  | identifier hc hcs hk =>
    have hcut := isCutAt_word (p := p) hc hcs hm
    rwa [if_neg fun h => (ofText?_isSome.1 h).elim hk] at hcut
  | sign h => exact isCutAt_sign h hm

/-! ## What is cut cannot be longer -/

/-- A lexeme can be lengthened, character by character, until it is maximal. -/
theorem exists_maximal (rest : List Char) : ∀ {w : List Char}, IsLexeme w →
    ∃ more rest', rest = more ++ rest' ∧ IsLexeme (w ++ more) ∧ Maximal (w ++ more) rest' := by
  induction rest with
  | nil =>
    intro w h
    exact ⟨[], [], rfl, by rwa [List.append_nil], nofun⟩
  | cons d rest ih =>
    intro w h
    by_cases hd : IsLexeme (w ++ [d])
    · obtain ⟨more, rest', rfl, hmore⟩ := ih hd
      rw [List.append_assoc] at hmore
      exact ⟨d :: more, rest', rfl, hmore⟩
    · refine ⟨[], d :: rest, rfl, by rwa [List.append_nil], ?_⟩
      rintro _ ⟨⟩
      rwa [List.append_nil]

theorem maximal_of_lexeme {c : Char} {cs : List Char} {x : Lexeme} (h : lexeme p c cs = .ok x) :
    Maximal (c :: cs.take x.more) (cs.drop x.more) := by
  intro d hd hlonger
  obtain ⟨rest, hdrop⟩ : ∃ rest, cs.drop x.more = d :: rest := by
    cases hrest : cs.drop x.more with
    | nil => rw [hrest] at hd; cases hd
    | cons e rest => rw [hrest] at hd; cases hd; exact ⟨rest, rfl⟩
  -- the longest extension would have been cut instead
  obtain ⟨more, rest', rfl, ⟨k, v, hspells⟩, hmax⟩ := exists_maximal rest hlonger
  obtain ⟨c', u, hword, -, hcut⟩ := lexeme_of_spells (p := p) hspells hmax
  obtain rfl : c = c' := (List.cons.inj hword).1
  have hu : cs.take x.more ++ [d] ++ more = u := (List.cons.inj hword).2
  have hcs : cs.take x.more ++ [d] ++ more ++ rest' = cs := by
    rw [List.append_assoc, List.append_assoc, List.singleton_append, ← hdrop,
      List.take_append_drop]
  have hlen := (spells_of_lexeme h).1
  rw [← hu, hcs, h] at hcut
  rcases hcut with hok | ⟨-, -, herr⟩
  · have hmore : x.more = (cs.take x.more ++ [d] ++ more).length :=
      congrArg Lexeme.more (Except.ok.inj hok)
    simp only [List.length_append, List.length_take, List.length_singleton] at hmore
    omega
  · cases herr

end Scan

end Reckoner
