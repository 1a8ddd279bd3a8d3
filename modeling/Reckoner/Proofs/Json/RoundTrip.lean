import Reckoner.Json.Printer
import Reckoner.Json.Reader
import Reckoner.Proofs.Number.Text
import Reckoner.Proofs.Token.Lexeme

/-!
# What is written is read back

A printed value is read as the value it was printed from, as long as its integers are short enough
to be read, its binary64 numbers have texts that are read as they are, and no object has two
fields of one name. The reader of a number stops at the first character that cannot belong to it,
so each value is read with what comes after it, which in a printed text is a line break, a comma
or the end. The reader counts down with each item and each level; it starts above twice the length
of the text, and that margin is what the values inside are read with.
-/

set_option autoImplicit false

namespace Reckoner

namespace Json

/-! ## Texts -/

theorem hexValue?_hexDigit (n : Nat) : hexValue? (hexDigit n) = some (n % 16) := by
  unfold hexDigit
  have h : n % 16 < 16 := Nat.mod_lt n (by decide)
  generalize n % 16 = k at h ⊢
  revert h
  revert k
  decide

theorem readUnit?_control (n : Nat) (h : n < 32) (rest : List Char) :
    readUnit? ('0' :: '0' :: hexDigit (n / 16) :: hexDigit n :: rest) = some (n, rest) := by
  have hzero : hexValue? '0' = some 0 := by decide
  have hn : n / 16 % 16 = n / 16 := Nat.mod_eq_of_lt (by omega)
  simp only [readUnit?, hzero, hexValue?_hexDigit, hn, Option.bind_eq_bind, Option.bind_some]
  congr 2
  omega

theorem unitChar_control {c : Char} (h : c.toNat < 32) (rest : List Char) :
    unitChar c.toNat rest = (c, rest) := by
  rw [unitChar, if_neg (by omega), if_neg (by omega), Char.ofNat_toNat]

/-- One character is read back, whether it is escaped or not. -/
theorem readText_escape (depth : Nat) (done : List Char) (c : Char) (rest : List Char) :
    readText (depth + 1) done (escape c ++ rest) = readText depth (c :: done) rest := by
  unfold escape
  iterate 7
    split
    · subst c; rfl
  split
  · next h =>
    simp only [List.cons_append, List.nil_append]
    rw [readText]
    rw [readUnit?_control _ h]
    simp only [unitChar_control h]
  · next hquote hback _ _ _ _ _ hctl =>
    simp only [List.cons_append, List.nil_append]
    rw [readText]
    · rw [if_neg (by simp [hback]; omega)]
    · exact fun h => hquote h
    · intro rest' h
      exact absurd h hback
    · exact fun e rest' h => absurd h hback

/-- A quoted text is read back up to its closing quote. -/
theorem readText_quoted (s : List Char) : ∀ (depth : Nat) (done rest : List Char),
    s.length < depth →
      readText depth done (s.flatMap escape ++ '"' :: rest) =
        .ok (String.ofList (done.reverse ++ s), rest) := by
  induction s with
  | nil =>
    intro depth done rest h
    obtain ⟨k, rfl⟩ := Nat.exists_eq_add_one.2 (Nat.zero_lt_of_lt h)
    rw [List.append_nil]
    rfl
  | cons c s ih =>
    intro depth done rest h
    rw [List.length_cons] at h
    obtain ⟨k, rfl⟩ := Nat.exists_eq_add_one.2 (Nat.zero_lt_of_lt h)
    rw [List.flatMap_cons, List.append_assoc, readText_escape, ih k _ _ (by omega),
      List.reverse_cons, List.append_assoc]
    rfl

theorem toList_quoted (s : String) :
    (quoted s).toList = '"' :: (s.toList.flatMap escape ++ ['"']) := by
  rw [quoted, String.toList_append, String.toList_append, String.toList_ofList]
  simp

theorem length_flatMap_escape (s : List Char) : s.length ≤ (s.flatMap escape).length := by
  induction s with
  | nil => exact Nat.le_refl _
  | cons c s ih =>
    have hc : 0 < (escape c).length := by
      unfold escape
      repeat' split
      all_goals exact Nat.succ_pos _
    rw [List.flatMap_cons, List.length_append, List.length_cons]
    omega

theorem readText_escaped (name : String) (k : Nat) (cs : List Char)
    (h : (name.toList.flatMap escape).length < k) :
    readText k [] (name.toList.flatMap escape ++ '"' :: cs) = .ok (name, cs) := by
  have hlen := length_flatMap_escape name.toList
  rw [readText_quoted _ k [] cs (by omega), List.reverse_nil, List.nil_append,
    String.ofList_toList]

/-! ## Integers -/

/-- The text goes on with nothing that could belong to a number. -/
def Stops (rest : List Char) : Prop :=
  ∀ c ∈ rest.head?, c.isDigit = false ∧ c ≠ '.' ∧ c ≠ 'e' ∧ c ≠ 'E'

theorem stops_nil : Stops [] := nofun

theorem stops_comma (cs : List Char) : Stops (',' :: cs) := by
  rintro c ⟨⟩
  decide

theorem stops_newline (d : Nat) (cs : List Char) : Stops ((newline d).toList ++ cs) := by
  intro c hc
  rw [newline, String.toList_ofList] at hc
  cases hc
  decide

theorem toDigits_head {m : Nat} (h : 0 < m) : ∃ c cs, Nat.toDigits 10 m = c :: cs ∧ c ≠ '0' := by
  induction m using Nat.strongRecOn with
  | ind m ih =>
    rcases Nat.lt_or_ge m 10 with hlt | hge
    · have hzero : ∀ k < 10, 0 < k → k.digitChar ≠ '0' := by decide
      exact ⟨m.digitChar, [], Nat.toDigits_of_lt_base hlt, hzero m hlt h⟩
    · obtain ⟨c, cs, hcs, hc⟩ := ih (m / 10) (by omega) (by omega)
      exact ⟨c, cs ++ [(m % 10).digitChar],
        by rw [Nat.toDigits_of_base_le (by decide) hge, hcs]; rfl, hc⟩

theorem wholePart_toDigits (m : Nat) {rest : List Char} (hr : Stops rest) :
    wholePart (Nat.toDigits 10 m ++ rest) = Nat.toDigits 10 m := by
  rcases Nat.eq_zero_or_pos m with rfl | hm
  · rfl
  · obtain ⟨c, cs, hcs, hc⟩ := toDigits_head hm
    have hwhole : (Nat.toDigits 10 m ++ rest).takeWhile Char.isDigit = Nat.toDigits 10 m :=
      Scan.takeWhile_exact Number.isDigit_of_mem_toDigits fun d hd => (hr d hd).1
    rw [hcs, List.cons_append] at hwhole ⊢
    rw [wholePart]
    · exact hwhole
    · intro tail h
      exact hc (List.cons.inj h).1

theorem fractionPart_of_stops {rest : List Char} (hr : Stops rest) : fractionPart rest = [] := by
  cases rest with
  | nil => rfl
  | cons c rest =>
    have hc := (hr c rfl).2.1
    rw [fractionPart]
    intro tail h
    exact hc (List.cons.inj h).1

theorem exponentPart_of_stops {rest : List Char} (hr : Stops rest) : exponentPart rest = none := by
  cases rest with
  | nil => rfl
  | cons c rest =>
    obtain ⟨-, -, he, hE⟩ := hr c rfl
    rw [exponentPart, if_neg (by simp [he, hE])]

/-- The digits of an integer are read after its sign, if it has one. -/
theorem readNumber_digits (negative : Bool) {m : Nat} {rest : List Char}
    (hm : (Nat.toDigits 10 m).length ≤ Number.digitLimit) (hr : Stops rest) :
    readNumber ((if negative then ['-'] else []) ++ (Nat.toDigits 10 m ++ rest)) =
      .ok (.number (.int (Binary64.signed negative m)), rest) := by
  have hempty : (Nat.toDigits 10 m).isEmpty = false :=
    List.isEmpty_eq_false_iff.2 Nat.toDigits_ne_nil
  unfold readNumber
  split
  next sign body hsign =>
  have hsplit : sign = negative ∧ body = Nat.toDigits 10 m ++ rest := by
    cases negative with
    | true =>
      cases hsign
      exact ⟨rfl, rfl⟩
    | false =>
      rw [if_neg Bool.false_ne_true, List.nil_append] at hsign
      split at hsign
      · next tail hminus =>
        -- digits do not begin with a minus sign
        have hmem : '-' ∈ Nat.toDigits 10 m := by
          cases hdigits : Nat.toDigits 10 m with
          | nil => exact absurd hdigits Nat.toDigits_ne_nil
          | cons c cs =>
            rw [hdigits] at hminus
            exact (List.cons.inj hminus).1 ▸ .head _
        exact absurd (Number.isDigit_of_mem_toDigits _ hmem) (by decide)
      · cases hsign
        exact ⟨rfl, rfl⟩
  obtain ⟨rfl, rfl⟩ := hsplit
  simp only [wholePart_toDigits m hr, hempty, List.drop_left, fractionPart_of_stops hr,
    exponentPart_of_stops hr, List.isEmpty_nil, Number.ofDigits_toDigits, Bool.not_true,
    Bool.false_eq_true, if_false, if_true]
  exact if_neg (Nat.not_lt.2 hm)

theorem readNumber_int {k : Int} (hk : Number.tooLong k = false) {rest : List Char}
    (hr : Stops rest) :
    readNumber ((numberText (.int k)).toList ++ rest) = .ok (.number (.int k), rest) := by
  have hlength := Number.tooLong_eq_false_iff.1 hk
  cases k with
  | ofNat m =>
    have htext : (numberText (.int (Int.ofNat m))).toList = Nat.toDigits 10 m :=
      Number.toList_toString_natCast m
    rw [htext]
    exact readNumber_digits false hlength hr
  | negSucc m =>
    have htext : (numberText (.int (Int.negSucc m))).toList = '-' :: Nat.toDigits 10 (m + 1) :=
      Number.toList_toString_negSucc m
    rw [htext]
    exact readNumber_digits true hlength hr

/-! ## How values begin -/

theorem head_of_wholePart {cs : List Char} (h : (wholePart cs).isEmpty = false) :
    ∃ c rest, cs = c :: rest ∧ c.isDigit = true := by
  unfold wholePart at h
  split at h
  · exact ⟨_, _, rfl, by decide⟩
  · cases cs with
    | nil => cases h
    | cons c rest =>
      refine ⟨c, rest, rfl, ?_⟩
      cases hc : c.isDigit with
      | true => rfl
      | false =>
        rw [List.takeWhile_cons_of_neg (by simp [hc])] at h
        cases h

/-- A number begins with a digit, or with a minus sign and a digit. -/
theorem head_of_readNumber {cs : List Char} {r : Json × List Char} (h : readNumber cs = .ok r) :
    ∃ c rest, (cs = c :: rest ∨ cs = '-' :: c :: rest) ∧ c.isDigit = true := by
  unfold readNumber at h
  split at h
  next negative body hsign =>
  cases hwhole : (wholePart body).isEmpty with
  | true =>
    simp only [hwhole, if_true] at h
    cases h
  | false =>
    obtain ⟨c, rest, rfl, hc⟩ := head_of_wholePart hwhole
    refine ⟨c, rest, ?_, hc⟩
    split at hsign
    · cases hsign
      exact .inr rfl
    · cases hsign
      exact .inl rfl

theorem readName?_of_number {cs : List Char} {r : Json × List Char} (h : readNumber cs = .ok r) :
    readName? cs = none := by
  obtain ⟨c, rest, hcs, hc⟩ := head_of_readNumber h
  have hne : ∀ d, d.isDigit = false → ¬ d = c := by
    rintro d hd rfl
    rw [hd] at hc
    cases hc
  have hn := hne 'n' (by decide)
  have ht := hne 't' (by decide)
  have hf := hne 'f' (by decide)
  have hN := hne 'N' (by decide)
  have hI := hne 'I' (by decide)
  have hminus := hne '-' (by decide)
  rcases hcs with rfl | rfl
  · simp [readName?, names, after?, hn, ht, hf, hN, hI, hminus]
  · simp [readName?, names, after?, hI]

theorem readValue_of_readNumber {cs : List Char} {r : Json × List Char}
    (h : readNumber cs = .ok r) (depth : Nat) : readValue (depth + 1) cs = .ok r := by
  have hname := readName?_of_number h
  obtain ⟨c, rest, hcs, hc⟩ := head_of_readNumber h
  have hne : ∀ d, d.isDigit = false → ¬ c = d := by
    rintro d hd rfl
    rw [hd] at hc
    cases hc
  have hquote := hne '"' (by decide)
  have hlist := hne '[' (by decide)
  have hobject := hne '\x7b' (by decide)
  rcases hcs with rfl | rfl
  · rw [readValue, hname]
    dsimp only
    rwa [if_neg hquote, if_neg hlist, if_neg hobject]
  · rw [readValue, hname]
    exact h

/-- No value begins with a blank or with a closing bracket. -/
theorem head_of_readValue {depth : Nat} {cs : List Char} {r : Json × List Char}
    (h : readValue depth cs = .ok r) :
    ∃ c rest, cs = c :: rest ∧ isSpace c = false ∧ c ≠ ']' ∧ c ≠ '\x7d' := by
  cases depth with
  | zero =>
    unfold readValue at h
    cases h
  | succ depth =>
    cases cs with
    | nil =>
      have hname : readName? [] = none := by simp [readName?, names, after?]
      unfold readValue at h
      rw [hname] at h
      cases h
    | cons c rest =>
      refine ⟨c, rest, rfl, ?_⟩
      have hbad : ∀ d ∈ [' ', '\t', '\n', '\r', ']', '\x7d'], c ≠ d := by
        rintro d hd rfl
        simp only [List.mem_cons, List.not_mem_nil, or_false] at hd
        have hname : readName? (c :: rest) = none := by
          rcases hd with rfl | rfl | rfl | rfl | rfl | rfl <;> simp [readName?, names, after?]
        have hnumber : readNumber (c :: rest) = .error .malformed := by
          rcases hd with rfl | rfl | rfl | rfl | rfl | rfl <;> rfl
        rw [readValue, hname] at h
        dsimp only at h
        rw [if_neg, if_neg, if_neg, hnumber] at h
        · cases h
        all_goals rcases hd with rfl | rfl | rfl | rfl | rfl | rfl <;> decide
      refine ⟨?_, hbad _ (by decide), hbad _ (by decide)⟩
      simp [isSpace, hbad ' ' (by decide), hbad '\t' (by decide), hbad '\n' (by decide),
        hbad '\r' (by decide)]

/-! ## Between brackets -/

/-- The items with the text after them. -/
def itemsText (d : Nat) (items : List String) (rest : List Char) : List Char :=
  (String.intercalate ("," ++ newline d) items).toList ++ rest

theorem itemsText_singleton (d : Nat) (item : String) (rest : List Char) :
    itemsText d [item] rest = item.toList ++ rest := by
  rw [itemsText, String.intercalate_singleton]

theorem itemsText_cons (d : Nat) (item next : String) (items : List String) (rest : List Char) :
    itemsText d (item :: next :: items) rest =
      item.toList ++ ',' :: ((newline d).toList ++ itemsText d (next :: items) rest) := by
  simp [itemsText, String.intercalate_cons_cons]

theorem head_itemsText {item : String} {c : Char} {cs : List Char} (h : item.toList = c :: cs)
    (d : Nat) (items : List String) (rest : List Char) :
    ∃ tail, itemsText d (item :: items) rest = c :: tail := by
  cases items with
  | nil => exact ⟨_, by rw [itemsText_singleton, h, List.cons_append]⟩
  | cons next items => exact ⟨_, by rw [itemsText_cons, h, List.cons_append]⟩

section

variable {opening closing : String} {o c : Char}

theorem toList_enclose_nil (ho : opening.toList = [o]) (hc : closing.toList = [c]) (d : Nat)
    (rest : List Char) : (enclose opening closing d []).toList ++ rest = o :: c :: rest := by
  rw [show enclose opening closing d [] = opening ++ closing from rfl, String.toList_append, ho,
    hc]
  rfl

theorem toList_enclose_cons (ho : opening.toList = [o]) (hc : closing.toList = [c]) (d : Nat)
    (item : String) (items : List String) (rest : List Char) :
    (enclose opening closing d (item :: items)).toList ++ rest =
      o :: ((newline (d + 1)).toList ++
        itemsText (d + 1) (item :: items) ((newline d).toList ++ c :: rest)) := by
  simp [enclose, itemsText, ho, hc]

end

theorem skipSpaces_of_head {c : Char} (h : isSpace c = false) (cs : List Char) :
    skipSpaces (c :: cs) = c :: cs :=
  List.dropWhile_cons_of_neg (by rw [h]; exact Bool.false_ne_true)

theorem skipSpaces_newline (d : Nat) (cs : List Char) :
    skipSpaces ((newline d).toList ++ cs) = skipSpaces cs := by
  have hblank : ∀ c ∈ (newline d).toList, isSpace c = true := by
    intro c hc
    rw [newline, String.toList_ofList, List.mem_cons, List.mem_replicate] at hc
    rcases hc with rfl | ⟨-, rfl⟩ <;> rfl
  rw [skipSpaces, List.dropWhile_append_of_pos hblank, skipSpaces]

/-! ## One step of the reader -/

section

variable {k : Nat} {cs text rest : List Char} {v : Json}

theorem readValue_open_list (k : Nat) (cs : List Char) : readValue (k + 1) ('[' :: cs) =
    match skipSpaces cs with
    | ']' :: rest => .ok (.list [], rest)
    | rest => readItems k [] rest := by
  have hname : ∀ cs, readName? ('[' :: cs) = none := by simp [readName?, names, after?]
  rw [readValue, hname]
  rfl

theorem readValue_open_object (k : Nat) (cs : List Char) : readValue (k + 1) ('\x7b' :: cs) =
    match skipSpaces cs with
    | '\x7d' :: rest => .ok (.object [], rest)
    | rest => readFields k [] rest := by
  have hname : ∀ cs, readName? ('\x7b' :: cs) = none := by simp [readName?, names, after?]
  rw [readValue, hname]
  rfl

theorem readItems_last {done : List Json} (hv : readValue k cs = .ok (v, text))
    (htext : skipSpaces text = ']' :: rest) :
    readItems (k + 1) done cs = .ok (.list (v :: done).reverse, rest) := by
  rw [readItems, hv]
  simp only [bind, Except.bind, htext]
  rfl

theorem readItems_more {done : List Json} (hv : readValue k cs = .ok (v, text))
    (htext : skipSpaces text = ',' :: rest) :
    readItems (k + 1) done cs = readItems k (v :: done) (skipSpaces rest) := by
  rw [readItems, hv]
  simp only [bind, Except.bind, htext]

variable {body after : List Char} {name : String} {done : List (String × Json)}

theorem readFields_last (hname : readText k [] body = .ok (name, ':' :: after))
    (hv : readValue k (skipSpaces after) = .ok (v, text))
    (htext : skipSpaces text = '\x7d' :: rest) :
    readFields (k + 1) done ('"' :: body) = .ok (.object (Assoc.put name v done), rest) := by
  rw [readFields]
  simp only [hname, bind, Except.bind, skipSpaces_of_head (c := ':') rfl, hv, htext]
  rfl

theorem readFields_more (hname : readText k [] body = .ok (name, ':' :: after))
    (hv : readValue k (skipSpaces after) = .ok (v, text))
    (htext : skipSpaces text = ',' :: rest) :
    readFields (k + 1) done ('"' :: body) =
      readFields k (Assoc.put name v done) (skipSpaces rest) := by
  rw [readFields]
  simp only [hname, bind, Except.bind, skipSpaces_of_head (c := ':') rfl, hv, htext]

end

/-! ## Values -/

/-- The text of the value at a depth is read as the value, whatever follows that is no part of a
number. -/
def IsReadBack (j : Json) : Prop :=
  ∀ d depth rest, Stops rest → 2 * ((j.print d).toList ++ rest).length < depth →
    readValue depth ((j.print d).toList ++ rest) = .ok (j, rest)

theorem IsReadBack.head {j : Json} (hj : j.IsReadBack) (d : Nat) :
    ∃ c cs, (j.print d).toList = c :: cs ∧ isSpace c = false ∧ c ≠ ']' ∧ c ≠ '\x7d' := by
  have h := hj d _ [] stops_nil (Nat.lt_succ_self _)
  rw [List.append_nil] at h
  exact head_of_readValue h

theorem isReadBack_null : IsReadBack .null := by
  intro d depth rest _ h
  obtain ⟨k, rfl⟩ := Nat.exists_eq_add_one.2 (Nat.zero_lt_of_lt h)
  simp [print, readValue, readName?, names, after?]

theorem isReadBack_bool (b : Bool) : IsReadBack (.bool b) := by
  intro d depth rest _ h
  obtain ⟨k, rfl⟩ := Nat.exists_eq_add_one.2 (Nat.zero_lt_of_lt h)
  cases b <;> simp [print, readValue, readName?, names, after?]

/-- A number that is read back: an integer that has a text, or a binary64 number whose text is read
as it wherever nothing follows that could be part of a number. -/
def ReadsBack : Number → Prop
  | .int k => Number.tooLong k = false
  | .float x => ∀ depth rest, Stops rest →
    readValue (depth + 1) ((floatText x).toList ++ rest) = .ok (.number (.float x), rest)

theorem isReadBack_number {n : Number} (hn : ReadsBack n) : IsReadBack (.number n) := by
  intro d depth rest hr h
  obtain ⟨k, rfl⟩ := Nat.exists_eq_add_one.2 (Nat.zero_lt_of_lt h)
  cases n with
  | int m => exact readValue_of_readNumber (readNumber_int hn hr) k
  | float x => exact hn k rest hr

theorem isReadBack_text (s : String) : IsReadBack (.text s) := by
  intro d depth rest _ h
  obtain ⟨k, rfl⟩ := Nat.exists_eq_add_one.2 (Nat.zero_lt_of_lt h)
  have hname : ∀ cs, readName? ('"' :: cs) = none := by simp [readName?, names, after?]
  rw [print, toList_quoted] at h ⊢
  simp only [List.cons_append, List.append_assoc, List.length_cons, List.length_append] at h ⊢
  rw [readValue, hname]
  dsimp only
  rw [if_pos rfl, List.nil_append, readText_escaped s k rest (by omega)]
  rfl

/-- The items are read back after `done`. Their lines stand at the depth `d`, the closing bracket
at the depth `e`. -/
theorem readItems_print (d e : Nat) (rest : List Char) {items : List Json} :
    ∀ (v : Json) (depth : Nat) (done : List Json), (∀ w ∈ v :: items, IsReadBack w) →
      2 * (itemsText d (printItems d (v :: items))
        ((newline e).toList ++ ']' :: rest)).length + 1 < depth →
      readItems depth done (itemsText d (printItems d (v :: items))
        ((newline e).toList ++ ']' :: rest)) = .ok (.list (done.reverse ++ v :: items), rest) := by
  induction items with
  | nil =>
    intro v depth done hitems h
    obtain ⟨k, rfl⟩ := Nat.exists_eq_add_one.2 (Nat.zero_lt_of_lt h)
    rw [printItems, printItems, itemsText_singleton] at h ⊢
    have hv := hitems v (.head _) d k _ (stops_newline e (']' :: rest)) (by omega)
    rw [readItems_last hv (by rw [skipSpaces_newline, skipSpaces_of_head (by decide)]),
      List.reverse_cons]
  | cons w items ih =>
    intro v depth done hitems h
    obtain ⟨k, rfl⟩ := Nat.exists_eq_add_one.2 (Nat.zero_lt_of_lt h)
    have hrest := fun u hu => hitems u (.tail _ hu)
    obtain ⟨c, cs, hcs, hc, -⟩ := (hrest w (.head _)).head d
    obtain ⟨tail, htail⟩ := head_itemsText hcs d (printItems d items)
      ((newline e).toList ++ ']' :: rest)
    -- what comes after the comma is the text that the induction speaks of
    have ih := ih w k (v :: done) hrest
    rw [printItems, htail] at ih
    rw [printItems, printItems, itemsText_cons, htail] at h ⊢
    have hv := hitems v (.head _) d k _ (stops_comma ((newline d).toList ++ c :: tail)) (by omega)
    rw [List.length_append, List.length_cons, List.length_append] at h
    rw [readItems_more hv (skipSpaces_of_head (by decide) _), skipSpaces_newline,
      skipSpaces_of_head hc, ih (by omega), List.reverse_cons, List.append_assoc]
    rfl

theorem isReadBack_list {items : List Json} (hitems : ∀ v ∈ items, IsReadBack v) :
    IsReadBack (.list items) := by
  intro d depth rest _ h
  have hopen : "[".toList = ['['] := by decide
  have hclose : "]".toList = [']'] := by decide
  obtain ⟨k, rfl⟩ := Nat.exists_eq_add_one.2 (Nat.zero_lt_of_lt h)
  cases items with
  | nil =>
    rw [print, printItems, toList_enclose_nil hopen hclose, readValue_open_list,
      skipSpaces_of_head (by decide)]
    rfl
  | cons v items =>
    have hread := readItems_print (d + 1) d rest v k [] hitems
    obtain ⟨c, cs, hcs, hc, hbracket, -⟩ := (hitems v (.head _)).head (d + 1)
    obtain ⟨tail, htail⟩ := head_itemsText hcs (d + 1) (printItems (d + 1) items)
      ((newline d).toList ++ ']' :: rest)
    rw [printItems, htail] at hread
    rw [print, printItems, toList_enclose_cons hopen hclose, htail] at h ⊢
    rw [List.length_cons, List.length_append] at h
    rw [readValue_open_list, skipSpaces_newline, skipSpaces_of_head hc]
    -- the first item does not look like the closing bracket
    split
    · next heq => exact absurd (List.cons.inj heq).1 hbracket
    · exact hread (by omega)

theorem toList_field (name : String) (v : Json) (d : Nat) (rest : List Char) :
    (quoted name ++ ": " ++ print d v).toList ++ rest =
      '"' :: (name.toList.flatMap escape ++ '"' :: ':' :: ' ' :: ((print d v).toList ++ rest)) := by
  have hcolon : ": ".toList = [':', ' '] := by decide
  simp [toList_quoted, hcolon]

theorem notMem_of_nodup {name : String} {v : Json} {done fields : List (String × Json)}
    (h : ((done ++ (name, v) :: fields).map Prod.fst).Nodup) : name ∉ done.map Prod.fst := by
  rw [List.map_append, List.map_cons, List.nodup_append] at h
  exact fun hmem => h.2.2 name hmem name (.head _) rfl

theorem IsReadBack.field {v : Json} (hv : v.IsReadBack) (name : String) (d : Nat) {k : Nat}
    {text : List Char} (ht : Stops text)
    (h : 2 * ((quoted name ++ ": " ++ print d v).toList ++ text).length ≤ k) :
    readText k [] (name.toList.flatMap escape ++ '"' :: ':' :: ' ' :: ((print d v).toList ++ text)) =
        .ok (name, ':' :: ' ' :: ((print d v).toList ++ text)) ∧
      readValue k (skipSpaces (' ' :: ((print d v).toList ++ text))) = .ok (v, text) := by
  rw [toList_field, List.length_cons, List.length_append, List.length_cons, List.length_cons,
    List.length_cons] at h
  obtain ⟨c, cs, hcs, hc, -⟩ := hv.head d
  refine ⟨readText_escaped name k _ (by omega), ?_⟩
  rw [← hv d k text ht (by omega), hcs]
  exact congrArg (readValue k) (skipSpaces_of_head hc _)

/-- The fields are read back after `done`, none of whose names comes again. -/
theorem readFields_print (d e : Nat) (rest : List Char) {fields : List (String × Json)} :
    ∀ (name : String) (v : Json) (depth : Nat) (done : List (String × Json)),
      (∀ f ∈ (name, v) :: fields, IsReadBack f.2) →
      ((done ++ (name, v) :: fields).map Prod.fst).Nodup →
      2 * (itemsText d (printFields d ((name, v) :: fields))
        ((newline e).toList ++ '\x7d' :: rest)).length + 1 < depth →
      readFields depth done (itemsText d (printFields d ((name, v) :: fields))
        ((newline e).toList ++ '\x7d' :: rest)) =
          .ok (.object (done ++ (name, v) :: fields), rest) := by
  induction fields with
  | nil =>
    intro name v depth done hfields hnames h
    obtain ⟨k, rfl⟩ := Nat.exists_eq_add_one.2 (Nat.zero_lt_of_lt h)
    rw [printFields, printFields, itemsText_singleton] at h ⊢
    have hback : v.IsReadBack := hfields (name, v) (.head _)
    obtain ⟨hname, hv⟩ := hback.field name d (k := k)
      (stops_newline e ('\x7d' :: rest)) (by omega)
    rw [toList_field, readFields_last hname hv
      (by rw [skipSpaces_newline, skipSpaces_of_head (by decide)]),
      Assoc.put_of_notMem v (notMem_of_nodup hnames)]
  | cons f fields ih =>
    intro name v depth done hfields hnames h
    obtain ⟨k, rfl⟩ := Nat.exists_eq_add_one.2 (Nat.zero_lt_of_lt h)
    have hhead := toList_field f.1 f.2 d []
    rw [List.append_nil] at hhead
    obtain ⟨tail, htail⟩ := head_itemsText hhead d (printFields d fields)
      ((newline e).toList ++ '\x7d' :: rest)
    have ih := ih f.1 f.2 k (done ++ [(name, v)]) (fun u hu => hfields u (.tail _ hu))
      (by rwa [List.append_assoc])
    rw [printFields, htail] at ih
    rw [printFields, printFields, itemsText_cons, htail] at h ⊢
    have hback : v.IsReadBack := hfields (name, v) (.head _)
    obtain ⟨hname, hv⟩ := hback.field name d (k := k)
      (stops_comma ((newline d).toList ++ '"' :: tail)) (by omega)
    rw [List.length_append, List.length_cons, List.length_append] at h
    rw [toList_field, readFields_more hname hv (skipSpaces_of_head (by decide) _),
      skipSpaces_newline, skipSpaces_of_head (by decide), Assoc.put_of_notMem v
      (notMem_of_nodup hnames), ih (by omega), List.append_assoc]
    rfl

theorem isReadBack_object {fields : List (String × Json)}
    (hfields : ∀ f ∈ fields, IsReadBack f.2) (hnames : (fields.map Prod.fst).Nodup) :
    IsReadBack (.object fields) := by
  intro d depth rest _ h
  have hopen : "\x7b".toList = ['\x7b'] := by decide
  have hclose : "\x7d".toList = ['\x7d'] := by decide
  obtain ⟨k, rfl⟩ := Nat.exists_eq_add_one.2 (Nat.zero_lt_of_lt h)
  cases fields with
  | nil =>
    rw [print, printFields, toList_enclose_nil hopen hclose, readValue_open_object,
      skipSpaces_of_head (by decide)]
    rfl
  | cons f fields =>
    have hread := readFields_print (d + 1) d rest f.1 f.2 k [] hfields hnames
    have hhead := toList_field f.1 f.2 (d + 1) []
    rw [List.append_nil] at hhead
    obtain ⟨tail, htail⟩ := head_itemsText hhead (d + 1) (printFields (d + 1) fields)
      ((newline d).toList ++ '\x7d' :: rest)
    rw [printFields, htail] at hread
    rw [print, printFields, toList_enclose_cons hopen hclose, htail] at h ⊢
    rw [List.length_cons, List.length_append] at h
    rw [readValue_open_object, skipSpaces_newline, skipSpaces_of_head (by decide)]
    exact hread (by omega)

mutual

/-- Its numbers are read back, and no object has two fields of one name. -/
def Legible : Json → Prop
  | .number n => ReadsBack n
  | .list items => LegibleItems items
  | .object fields => (fields.map Prod.fst).Nodup ∧ LegibleFields fields
  | _ => True

def LegibleItems : List Json → Prop
  | [] => True
  | v :: rest => v.Legible ∧ LegibleItems rest

def LegibleFields : List (String × Json) → Prop
  | [] => True
  | (_, v) :: rest => v.Legible ∧ LegibleFields rest

end

mutual

theorem Legible.isReadBack : ∀ {j : Json}, j.Legible → j.IsReadBack
  | .null, _ => isReadBack_null
  | .bool b, _ => isReadBack_bool b
  | .number _, h => isReadBack_number h
  | .text s, _ => isReadBack_text s
  | .list _, h => isReadBack_list (LegibleItems.isReadBack h)
  | .object _, h => isReadBack_object (LegibleFields.isReadBack h.2) h.1

theorem LegibleItems.isReadBack : ∀ {items : List Json}, LegibleItems items →
    ∀ v ∈ items, v.IsReadBack
  | _ :: _, h, _, .head _ => Legible.isReadBack h.1
  | _ :: _, h, _, .tail _ hv => LegibleItems.isReadBack h.2 _ hv

theorem LegibleFields.isReadBack : ∀ {fields : List (String × Json)}, LegibleFields fields →
    ∀ f ∈ fields, f.2.IsReadBack
  | _ :: _, h, _, .head _ => Legible.isReadBack h.1
  | _ :: _, h, _, .tail _ hv => LegibleFields.isReadBack h.2 _ hv

end

theorem read_print {j : Json} (h : j.Legible) : read (j.print 0) = .ok j := by
  have hj := h.isReadBack
  obtain ⟨c, cs, hcs, hc, -⟩ := hj.head 0
  have hread := hj 0 (2 * (j.print 0).toList.length + 2) [] stops_nil
    (by rw [List.append_nil]; omega)
  rw [List.append_nil] at hread
  have hspaces : skipSpaces (j.print 0).toList = (j.print 0).toList := by
    rw [hcs, skipSpaces_of_head hc]
  rw [read]
  simp only [hspaces, hread, bind, Except.bind]
  rfl

end Json

end Reckoner
