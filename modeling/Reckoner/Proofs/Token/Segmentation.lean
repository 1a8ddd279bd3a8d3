import Mathlib.Data.List.Forall2
import Reckoner.Proofs.Token.Lexeme

/-!
# Scanning is maximal munch

A segmentation cuts a text into lexemes, none of which the next character could lengthen, and
leaves nothing but blanks between them. Scanning, where it succeeds, gives the tokens of the one
segmentation that there is (`scan_segmented`); and where the integers can be read it succeeds
if there is one (`scan_eq_ok_iff`).
-/

set_option autoImplicit false

namespace Reckoner

namespace Scan

/-- The position of the character `i` of a text on one line. -/
def place (file : String) (i : Nat) : Position := ⟨i, 0, i, file⟩

/-- The token that reaches from the character `i` up to the character `j`. -/
def tokenAt (file : String) (k : Symbol) (v : Datum) (i j : Nat) : Token :=
  .make k v ⟨some (place file i), some (place file j)⟩

/-- The cuts divide the text from `start` on into lexemes and blanks, and `ts` are the tokens of
the lexemes, followed by the end. -/
structure Segmentation (file : String) (text : List Char) (start : Nat)
    (cuts : List (Nat × Nat)) (ts : List Token) : Prop where
  inside : ∀ c ∈ cuts, start ≤ c.1 ∧ c.1 < c.2 ∧ c.2 ≤ text.length
  ordered : cuts.Pairwise fun c c' => c.2 ≤ c'.1
  blank : ∀ (i : Nat) (h : i < text.length), start ≤ i →
    (∀ c ∈ cuts, ¬ (c.1 ≤ i ∧ i < c.2)) → isBlank text[i] = true
  maximal : ∀ c ∈ cuts, c.2 < text.length → ¬ IsLexeme (text.extract c.1 (c.2 + 1))
  tokens : ∃ body,
    ts = body ++ [tokenAt file .endOfText .blank text.length (text.length + 1)] ∧
      List.Forall₂ (fun c t => ∃ k v,
        Spells (text.extract c.1 c.2) k v ∧ t = tokenAt file k v c.1 c.2) cuts body

/-- The tokens are those of a segmentation of the whole text. -/
def Segmented (file : String) (text : List Char) (ts : List Token) : Prop :=
  ∃ cuts, Segmentation file text 0 cuts ts

section

variable {file : String} {text : List Char} {i j : Nat}

/-! ## Slices -/

theorem extract_append_drop (h : i ≤ j) : text.extract i j ++ text.drop j = text.drop i := by
  have hdrop : (text.drop i).drop (j - i) = text.drop j := by
    rw [List.drop_drop, Nat.add_sub_cancel' h]
  rw [List.extract_eq_take_drop, ← hdrop, List.take_append_drop]

theorem extract_cons (h : i < text.length) (n : Nat) :
    text.extract i (i + 1 + n) = text[i] :: (text.drop (i + 1)).take n := by
  have hn : i + 1 + n - i = n + 1 := by omega
  rw [List.extract_eq_take_drop, List.drop_eq_getElem_cons h, hn, List.take_succ_cons]

theorem extract_concat (h : j < text.length) (hij : i ≤ j) :
    text.extract i (j + 1) = text.extract i j ++ [text[j]] := by
  have hj : j - i < (text.drop i).length := by
    rw [List.length_drop]
    omega
  rw [List.extract_eq_take_drop, List.extract_eq_take_drop, Nat.sub_add_comm hij,
    ← List.take_append_getElem hj, List.getElem_drop]
  simp only [Nat.add_sub_cancel' hij]

theorem maximal_extract (hij : i ≤ j) :
    Maximal (text.extract i j) (text.drop j) ↔
      (j < text.length → ¬ IsLexeme (text.extract i (j + 1))) := by
  unfold Maximal
  rcases Nat.lt_or_ge j text.length with h | h
  · rw [extract_concat h hij, List.drop_eq_getElem_cons h]
    simp [h]
  · rw [List.drop_eq_nil_of_le h]
    simp [Nat.not_lt.2 h]

/-! ## Steps of a scan -/

theorem place_advance : (place file i).advance = place file (i + 1) := rfl

theorem scanFrom_inside (n : Nat) : ∀ i, i + n ≤ text.length →
    scanFrom (place file i) n (text.drop i) =
      scanFrom (place file (i + n)) 0 (text.drop (i + n)) := by
  induction n with
  | zero => exact fun _ _ => rfl
  | succ n ih =>
    intro i h
    rw [List.drop_eq_getElem_cons (by omega), scanFrom, place_advance, ih (i + 1) (by omega),
      Nat.add_right_comm i 1 n, Nat.add_assoc]

theorem scanFrom_blank (h : i < text.length) (hb : isBlank text[i] = true) :
    scanFrom (place file i) 0 (text.drop i) =
      scanFrom (place file (i + 1)) 0 (text.drop (i + 1)) := by
  rw [List.drop_eq_getElem_cons h, scanFrom, if_pos hb, place_advance]

theorem scanFrom_blanks (hij : i ≤ j) (hj : j ≤ text.length)
    (hb : ∀ m (h : m < text.length), i ≤ m → m < j → isBlank text[m] = true) :
    scanFrom (place file i) 0 (text.drop i) = scanFrom (place file j) 0 (text.drop j) := by
  induction hij using Nat.decreasingInduction with
  | self => rfl
  | of_succ m hm ih =>
    rw [scanFrom_blank (by omega) (hb m (by omega) (Nat.le_refl m) hm)]
    exact ih fun n h hmn hn => hb n h (by omega) hn

theorem scanFrom_lexeme (h : i < text.length) (hb : isBlank text[i] = false) {x : Lexeme}
    (hx : lexeme (place file i) text[i] (text.drop (i + 1)) = .ok x)
    (hmore : i + 1 + x.more ≤ text.length) :
    scanFrom (place file i) 0 (text.drop i) =
      (scanFrom (place file (i + 1 + x.more)) 0 (text.drop (i + 1 + x.more))).map
        (tokenAt file x.symbol x.value i (i + 1 + x.more) :: ·) := by
  have htoken : x.token (place file i) = tokenAt file x.symbol x.value i (i + 1 + x.more) := by
    rw [Nat.add_right_comm, Nat.add_assoc]
    rfl
  rw [← scanFrom_inside x.more (i + 1) hmore, List.drop_eq_getElem_cons h, scanFrom,
    if_neg (by simp [hb]), hx, place_advance, ← htoken]

theorem scanFrom_end (file : String) (text : List Char) :
    scanFrom (place file text.length) 0 (text.drop text.length) =
      .ok [tokenAt file .endOfText .blank text.length (text.length + 1)] := by
  rw [List.drop_length]
  rfl

/-! ## Building a segmentation -/

variable {cuts : List (Nat × Nat)} {ts : List Token}

theorem Segmentation.nil (file : String) (text : List Char) :
    Segmentation file text text.length []
      [tokenAt file .endOfText .blank text.length (text.length + 1)] where
  inside := nofun
  ordered := .nil
  blank _ h hi := absurd h (Nat.not_lt.2 hi)
  maximal := nofun
  tokens := ⟨[], rfl, .nil⟩

theorem Segmentation.skip (h : i < text.length) (hb : isBlank text[i] = true)
    (hs : Segmentation file text (i + 1) cuts ts) : Segmentation file text i cuts ts where
  inside c hc := by
    obtain ⟨h1, h2⟩ := hs.inside c hc
    exact ⟨by omega, h2⟩
  ordered := hs.ordered
  blank m hm him hout := by
    rcases Nat.eq_or_lt_of_le him with rfl | hlt
    · exact hb
    · exact hs.blank m hm hlt hout
  maximal := hs.maximal
  tokens := hs.tokens

theorem Segmentation.cons {k : Symbol} {v : Datum} (hij : i < j) (hj : j ≤ text.length)
    (hk : Spells (text.extract i j) k v)
    (hm : j < text.length → ¬ IsLexeme (text.extract i (j + 1)))
    (hs : Segmentation file text j cuts ts) :
    Segmentation file text i ((i, j) :: cuts) (tokenAt file k v i j :: ts) where
  inside := by
    refine List.forall_mem_cons.2 ⟨⟨Nat.le_refl i, hij, hj⟩, fun c hc => ?_⟩
    obtain ⟨h1, h2⟩ := hs.inside c hc
    exact ⟨by omega, h2⟩
  ordered := .cons (fun c hc => (hs.inside c hc).1) hs.ordered
  blank m hm him hout := by
    obtain ⟨hhead, htail⟩ := List.forall_mem_cons.1 hout
    exact hs.blank m hm (Nat.not_lt.1 fun hlt => hhead ⟨him, hlt⟩) htail
  maximal := List.forall_mem_cons.2 ⟨hm, hs.maximal⟩
  tokens := by
    obtain ⟨body, rfl, hbody⟩ := hs.tokens
    exact ⟨_ :: body, rfl, .cons ⟨k, v, hk, rfl⟩ hbody⟩

/-- A scan that succeeds gives the tokens of a segmentation. -/
theorem segmentation_of_scanFrom (i : Nat) (hi : i ≤ text.length) {ts : List Token}
    (hs : scanFrom (place file i) 0 (text.drop i) = .ok ts) :
    ∃ cuts, Segmentation file text i cuts ts := by
  rcases Nat.eq_or_lt_of_le hi with rfl | hlt
  · rw [scanFrom_end] at hs
    cases hs
    exact ⟨[], .nil file text⟩
  cases hb : isBlank text[i] with
  | true =>
    rw [scanFrom_blank hlt hb] at hs
    obtain ⟨cuts, hcuts⟩ := segmentation_of_scanFrom (i + 1) hlt hs
    exact ⟨cuts, hcuts.skip hlt hb⟩
  | false =>
    cases hx : lexeme (place file i) text[i] (text.drop (i + 1)) with
    | error e =>
      rw [List.drop_eq_getElem_cons hlt, scanFrom, if_neg (by simp [hb]), hx] at hs
      cases hs
    | ok x =>
      obtain ⟨hmore, hspells⟩ := spells_of_lexeme hx
      have hend : i + 1 + x.more ≤ text.length := by
        rw [List.length_drop] at hmore
        omega
      have hmax := maximal_of_lexeme hx
      rw [List.drop_drop, ← extract_cons hlt, maximal_extract (by omega)] at hmax
      rw [← extract_cons hlt] at hspells
      rw [scanFrom_lexeme hlt hb hx hend] at hs
      cases hrest : scanFrom (place file (i + 1 + x.more)) 0 (text.drop (i + 1 + x.more)) with
      | error e => rw [hrest] at hs; cases hs
      | ok rest =>
        rw [hrest] at hs
        cases hs
        obtain ⟨cuts, hcuts⟩ := segmentation_of_scanFrom (i + 1 + x.more) hend hrest
        exact ⟨_, .cons (by omega) hend hspells hmax hcuts⟩
termination_by text.length - i

/-! ## Reading a segmentation -/

theorem Segmentation.of_nil (hs : Segmentation file text i [] ts) :
    (∀ m (h : m < text.length), i ≤ m → isBlank text[m] = true) ∧
      ts = [tokenAt file .endOfText .blank text.length (text.length + 1)] := by
  obtain ⟨body, rfl, hbody⟩ := hs.tokens
  cases hbody
  exact ⟨fun m h him => hs.blank m h him nofun, rfl⟩

theorem Segmentation.of_cons {a b : Nat} (hs : Segmentation file text i ((a, b) :: cuts) ts) :
    (∀ m (h : m < text.length), i ≤ m → m < a → isBlank text[m] = true) ∧
      ∃ k v rest, Spells (text.extract a b) k v ∧ ts = tokenAt file k v a b :: rest ∧
        Segmentation file text b cuts rest := by
  obtain ⟨hhead, hinside⟩ := List.forall_mem_cons.1 hs.inside
  obtain ⟨hafter, hordered⟩ := List.pairwise_cons.1 hs.ordered
  obtain ⟨body, rfl, hbody⟩ := hs.tokens
  refine ⟨fun m h him hma => hs.blank m h him ?_, ?_⟩
  · refine List.forall_mem_cons.2 ⟨fun hc => ?_, fun c hc hm => ?_⟩
    · exact absurd hc.1 (Nat.not_le.2 hma)
    · have := hafter c hc
      omega
  · cases hbody with
    | cons htoken hbody =>
      obtain ⟨k, v, hspells, rfl⟩ := htoken
      refine ⟨k, v, _, hspells, rfl, ?_⟩
      exact
        { inside := fun c hc => ⟨hafter c hc, (hinside c hc).2⟩
          ordered := hordered
          blank := fun m h hbm hout => hs.blank m h (by omega)
            (List.forall_mem_cons.2 ⟨fun hc => by omega, hout⟩)
          maximal := fun c hc => hs.maximal c (.tail _ hc)
          tokens := ⟨_, rfl, hbody⟩ }

/-- Where there is a segmentation, a scan gives its tokens, unless it meets an integer that cannot
be read. -/
theorem scanFrom_of_segmentation : ∀ {cuts : List (Nat × Nat)} {i : Nat} {ts : List Token},
    i ≤ text.length → Segmentation file text i cuts ts →
      scanFrom (place file i) 0 (text.drop i) = .ok ts ∨
        scanFrom (place file i) 0 (text.drop i) = .error .oversizedInteger
  | [], i, ts, hi, hs => by
    obtain ⟨hblank, rfl⟩ := hs.of_nil
    rw [scanFrom_blanks hi (Nat.le_refl _) fun m h him _ => hblank m h him]
    exact .inl (scanFrom_end file text)
  | (a, b) :: cuts, i, ts, hi, hs => by
    obtain ⟨hia, hab, hb⟩ := hs.inside (a, b) (.head _)
    dsimp only at hia hab hb
    have ha : a < text.length := Nat.lt_of_lt_of_le hab hb
    obtain ⟨hblank, k, v, rest, hspells, rfl, htail⟩ := hs.of_cons
    have hmax : Maximal (text.extract a b) (text.drop b) :=
      (maximal_extract (Nat.le_of_lt hab)).2 (hs.maximal _ (.head _))
    obtain ⟨c, u, hcu, hc, hcut⟩ := lexeme_of_spells (p := place file a) hspells hmax
    have hdrop : c :: (u ++ text.drop b) = text[a] :: text.drop (a + 1) := by
      rw [← List.cons_append, ← hcu, extract_append_drop (Nat.le_of_lt hab),
        List.drop_eq_getElem_cons ha]
    obtain ⟨rfl, hu⟩ := List.cons.inj hdrop
    have hlen : a + 1 + u.length = b := by
      have := congrArg List.length hcu
      rw [List.extract_eq_take_drop, List.length_take, List.length_drop, List.length_cons] at this
      omega
    rw [hu] at hcut
    rw [scanFrom_blanks hia (Nat.le_of_lt ha) hblank]
    rcases hcut with hok | ⟨-, -, herr⟩
    · rw [scanFrom_lexeme ha hc hok (Nat.le_trans (Nat.le_of_eq hlen) hb)]
      dsimp only
      rw [hlen]
      rcases scanFrom_of_segmentation hb htail with h | h
      · exact .inl (by rw [h]; rfl)
      · exact .inr (by rw [h]; rfl)
    · right
      rw [List.drop_eq_getElem_cons ha, scanFrom, if_neg (by simp [hc]), herr]

end

end Scan

/-! ## Whole texts -/

open Scan

variable {file text : String} {ts : List Token}

theorem segmented_of_scan (h : scan file text = .ok ts) : Segmented file text.toList ts :=
  segmentation_of_scanFrom 0 (Nat.zero_le _) h

theorem scan_of_segmented (h : Segmented file text.toList ts) :
    scan file text = .ok ts ∨ scan file text = .error .oversizedInteger := by
  obtain ⟨cuts, hcuts⟩ := h
  exact scanFrom_of_segmentation (Nat.zero_le _) hcuts

/-- Every token stands at the slice that spells it, or is the end. -/
theorem exists_tokenAt (h : scan file text = .ok ts) : ∀ t ∈ ts, ∃ k v i j,
    t = tokenAt file k v i j ∧ i ≤ j ∧ j ≤ text.length + 1 ∧
      (k = .endOfText ∨ Spells (text.toList.extract i j) k v) := by
  obtain ⟨cuts, hcuts⟩ := segmented_of_scan h
  obtain ⟨body, rfl, hbody⟩ := hcuts.tokens
  intro t ht
  rcases List.mem_append.1 ht with ht | ht
  · obtain ⟨n, hn, rfl⟩ := List.mem_iff_getElem.1 ht
    have hlt : n < cuts.length := hbody.length_eq ▸ hn
    obtain ⟨k, v, hspells, htoken⟩ := hbody.get hlt hn
    obtain ⟨-, hij, hj⟩ := hcuts.inside cuts[n] (List.getElem_mem hlt)
    exact ⟨k, v, _, _, htoken, Nat.le_of_lt hij, Nat.le_succ_of_le hj, .inr hspells⟩
  · exact ⟨_, _, _, _, List.mem_singleton.1 ht, Nat.le_succ _, Nat.le_refl _, .inl rfl⟩

/-- A text whose integers can be read is scanned into these tokens exactly if they are those of a
segmentation. -/
theorem scan_eq_ok_iff (hr : Readable text.toList) :
    scan file text = .ok ts ↔ Segmented file text.toList ts :=
  ⟨segmented_of_scan, fun h => (scan_of_segmented h).resolve_right (scan_ne_oversized hr)⟩

/-- The tokens of a text that is scanned are those of its segmentation into lexemes that the next
character cannot lengthen; there is no other one. The end token is the last one alone. -/
theorem scan_segmented (h : scan file text = .ok ts) :
    Segmented file text.toList ts ∧ (∀ t ∈ ts.dropLast, t.is .endOfText = false) ∧
      ∀ ts', Segmented file text.toList ts' → ts' = ts := by
  refine ⟨segmented_of_scan h, ?_, fun ts' h' => ?_⟩
  · obtain ⟨body, eof, rfl, -, hbody⟩ := (scan_closed h).ended
    rwa [List.dropLast_concat]
  · rcases scan_of_segmented h' with h' | h'
    · exact Except.ok.inj (h'.symm.trans h)
    · cases h'.symm.trans h

/-- A dot after digits belongs to them, an equals sign to the sign before it. The fractions are
twelve and two and a half. -/
theorem comparison_segmented :
    let twelve : Binary64 := .finite false 6755399441055744 (-49) (by decide)
    let half : Binary64 := .finite false 5629499534213120 (-51) (by decide)
    let ts := [tokenAt "<t>" .float (.number (.float twelve)) 0 3,
      tokenAt "<t>" .atMost .blank 4 6, tokenAt "<t>" .identifier (.text "a_1") 6 9,
      tokenAt "<t>" .plus .blank 9 10, tokenAt "<t>" .float (.number (.float half)) 10 13,
      tokenAt "<t>" .endOfText .blank 13 14]
    scan "<t>" "12. <=a_1+2.5" = .ok ts ∧ Segmented "<t>" "12. <=a_1+2.5".toList ts ∧
      (∀ t ∈ ts.dropLast, t.is .endOfText = false) ∧
      ∀ ts', Segmented "<t>" "12. <=a_1+2.5".toList ts' → ts' = ts := by
  intro twelve half ts
  have hscan : scan "<t>" "12. <=a_1+2.5" = .ok ts := by decide +kernel
  exact ⟨hscan, scan_segmented hscan⟩

end Reckoner
