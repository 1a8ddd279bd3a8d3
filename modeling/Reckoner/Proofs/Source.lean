import Reckoner.Proofs.Evaluation.Safety
import Reckoner.Proofs.Grammar.Yield
import Reckoner.Proofs.Token.Segmentation

/-!
# Where the trees and errors of a text stand

The tokens of a text stand in it one after the other, and so do those of its tree. Hence every
part of the tree reaches over some characters of the text (`Source.ends_inside`), and so does
every error of scanning or parsing, but for a token that is missing at the end
(`Source.refusal_inside`).
-/

set_option autoImplicit false

namespace Reckoner

namespace Position

theorem advance_index (p : Position) (passed : String) :
    (p.advance passed).index = p.index + 1 := by
  unfold advance
  split <;> rfl

theorem advance_file (p : Position) (passed : String) : (p.advance passed).file = p.file := by
  unfold advance
  split <;> rfl

end Position

namespace Scan

/-! ## Tokens in order -/

/-- From the character `i` up to the character `j`. -/
def spanAt (file : String) (i j : Nat) : Span := ⟨some (place file i), some (place file j)⟩

theorem spanAt_inj {file : String} {i j i' j' : Nat} (h : spanAt file i j = spanAt file i' j') :
    i = i' ∧ j = j' := by
  simpa [spanAt, place] using h

/-- The tokens stand one after the other in the first `n` characters, and none is empty. -/
structure InOrder (file : String) (n : Nat) (ts : List Token) : Prop where
  inside : ∀ t ∈ ts, ∃ i j, t.span = spanAt file i j ∧ i < j ∧ j ≤ n
  before : ts.Pairwise fun t t' => ∀ i j i' j',
    t.span = spanAt file i j → t'.span = spanAt file i' j' → j ≤ i'

variable {file : String} {n : Nat} {ts ts' : List Token}

theorem InOrder.sublist (h : InOrder file n ts) (hs : ts'.Sublist ts) : InOrder file n ts' where
  inside t ht := h.inside t (hs.subset ht)
  before := h.before.sublist hs

/-- From the first token to the last one there is at least one character. -/
theorem InOrder.ends (h : InOrder file n ts) {a z : Token} {after before : List Token}
    (ha : ts = a :: after) (hz : ts = before ++ [z]) :
    ∃ i j, a.span.start = some (place file i) ∧ z.span.stop = some (place file j) ∧
      i < j ∧ j ≤ n := by
  obtain ⟨i, j, haspan, hij, hj⟩ := h.inside a (by simp [ha])
  obtain ⟨i', j', hzspan, hij', hj'⟩ := h.inside z (by simp [hz])
  refine ⟨i, j', by rw [haspan]; rfl, by rw [hzspan]; rfl, ?_, hj'⟩
  cases before with
  | nil =>
    obtain ⟨rfl, -⟩ := List.cons.inj (ha.symm.trans hz)
    obtain ⟨rfl, rfl⟩ := spanAt_inj (haspan.symm.trans hzspan)
    exact hij
  | cons a' before =>
    obtain ⟨rfl, rfl⟩ := List.cons.inj (ha.symm.trans hz)
    have hbefore := h.before
    rw [ha, List.pairwise_cons] at hbefore
    have := hbefore.1 z (by simp) i j i' j' haspan hzspan
    omega

/-- The tokens of a segmentation are in order, up to the end token. -/
theorem Segmentation.inOrder {text : List Char} {i : Nat} {cuts : List (Nat × Nat)}
    (h : Segmentation file text i cuts ts) : ∃ body,
      ts = body ++ [tokenAt file .endOfText .blank text.length (text.length + 1)] ∧
        InOrder file text.length body := by
  obtain ⟨body, rfl, hbody⟩ := h.tokens
  refine ⟨body, rfl, fun t ht => ?_, ?_⟩
  · obtain ⟨m, hm, rfl⟩ := List.mem_iff_getElem.1 ht
    have hlt : m < cuts.length := hbody.length_eq ▸ hm
    obtain ⟨k, v, -, htoken⟩ := hbody.get hlt hm
    obtain ⟨-, hinside⟩ := h.inside cuts[m] (List.getElem_mem hlt)
    exact ⟨_, _, congrArg Token.span htoken, hinside⟩
  · rw [List.pairwise_iff_getElem]
    intro m m' hm hm' hlt i j i' j' hspan hspan'
    have hcuts := List.pairwise_iff_getElem.1 h.ordered m m'
      (hbody.length_eq ▸ hm) (hbody.length_eq ▸ hm') hlt
    obtain ⟨_, _, -, htoken⟩ := hbody.get (hbody.length_eq ▸ hm) hm
    obtain ⟨_, _, -, htoken'⟩ := hbody.get (hbody.length_eq ▸ hm') hm'
    obtain ⟨-, rfl⟩ := spanAt_inj (hspan.symm.trans (congrArg Token.span htoken))
    obtain ⟨rfl, -⟩ := spanAt_inj (hspan'.symm.trans (congrArg Token.span htoken'))
    exact hcuts

/-! ## Errors of scanning -/

/-- The diagnostic is no runtime error and is about the character at `p`. -/
structure Refuses (p : Position) (d : Diagnostic) : Prop where
  static : d.kind.isRuntime = false
  start : d.start = p
  file : d.stop.file = p.file
  index : d.stop.index = p.index + 1

theorem refuses_of_lexeme {p : Position} {c : Char} {cs : List Char} {e : Failure}
    {d : Diagnostic} (h : lexeme p c cs = .error e) (hd : e.diagnostic? = some d) :
    Refuses p d := by
  unfold lexeme at h
  split at h
  · simp only [numeral] at h
    split at h
    · cases h
    · split at h <;> cases h
      cases hd
  split at h
  · cases h
  split at h
  case h_11 =>
    split at h <;> cases h
    cases hd
    exact ⟨rfl, rfl, rfl, rfl⟩
  case h_12 =>
    cases h
    cases hd
    exact ⟨rfl, rfl, p.advance_file _, p.advance_index _⟩
  all_goals cases h

/-- A scan that fails with a diagnostic does so at one character of the text. -/
theorem refuses_of_scanFrom {file : String} {e : Failure} {d : Diagnostic}
    (hd : e.diagnostic? = some d) (cs : List Char) : ∀ i inside,
      scanFrom (place file i) inside cs = .error e →
        ∃ m, i ≤ m ∧ m < i + cs.length ∧ Refuses (place file m) d := by
  induction cs with
  | nil => exact fun i inside h => by cases h
  | cons c cs ih =>
    intro i inside h
    have later : ∀ inside, scanFrom (place file (i + 1)) inside cs = .error e →
        ∃ m, i ≤ m ∧ m < i + (c :: cs).length ∧ Refuses (place file m) d := by
      intro inside h
      obtain ⟨m, him, hm, hrefuses⟩ := ih (i + 1) inside h
      exact ⟨m, by omega, by rw [List.length_cons]; omega, hrefuses⟩
    unfold scanFrom at h
    split at h
    · exact later _ h
    split at h
    · exact later _ h
    split at h
    · next e' he =>
      cases h
      exact ⟨i, Nat.le_refl i, by rw [List.length_cons]; omega, refuses_of_lexeme he hd⟩
    · next x hx =>
      rw [place_advance] at h
      cases hrest : scanFrom (place file (i + 1)) x.more cs with
      | error e' =>
        rw [hrest] at h
        cases h
        exact later _ hrest
      | ok rest => rw [hrest] at h; cases h

end Scan

/-! ## Parts of a tree -/

open Scan

theorem Tree.Regular.ends_inside {P : Token → Prop} {t : Tree} (h : t.Regular P) {file : String}
    {n : Nat} (ho : InOrder file n t.tokens) :
    ∃ i j, t.ends? = .ok (place file i, place file j) ∧ i < j ∧ j ≤ n := by
  obtain ⟨a, after, ha, hstart⟩ := h.first_token
  obtain ⟨before, z, hz, hstop⟩ := h.last_token
  obtain ⟨i, j, hi, hj, hinside⟩ := ho.ends ha hz
  refine ⟨i, j, ?_, hinside⟩
  rw [Tree.ends?, Tree.span?, hstart, hstop, hi, hj]
  rfl

namespace Source

variable {file text : String} {t : Tree}

theorem tree_of_scan {ts : List Token} (h : scan file text = .ok ts) :
    tree file text = treeOfTokens ts := by
  rw [tree, tokens, h]
  rfl

/-- A text without a tree is refused by the scan, or its tokens are refused with a diagnostic. -/
theorem tree_cases (file text : String) :
    (∃ e, scan file text = .error e ∧ tree file text = .error (.scan e)) ∨
      ∃ ts, scan file text = .ok ts ∧ tree file text = treeOfTokens ts := by
  cases hscan : scan file text with
  | error e =>
    refine .inl ⟨e, rfl, ?_⟩
    rw [tree, tokens, hscan]
    rfl
  | ok ts => exact .inr ⟨ts, rfl, tree_of_scan hscan⟩

theorem exists_tokens (h : tree file text = .ok t) :
    ∃ ts, scan file text = .ok ts ∧ treeOfTokens ts = .ok t := by
  rcases tree_cases file text with ⟨e, -, he⟩ | ⟨ts, hts, htree⟩
  · cases h.symm.trans he
  · exact ⟨ts, hts, htree.symm.trans h⟩

/-- The tree of a text is regular, and its tokens are sound. -/
theorem regular (h : tree file text = .ok t) : t.Regular Token.Sound := by
  obtain ⟨ts, hscan, htree⟩ := exists_tokens h
  exact (scan_closed hscan).regular htree fun x hx =>
    ⟨(scan_closed hscan).located x hx, scan_proper hscan x hx⟩

/-- The tokens of the tree stand in the order of the text. -/
theorem inOrder (h : tree file text = .ok t) : InOrder file text.length t.tokens := by
  obtain ⟨ts, hscan, htree⟩ := exists_tokens h
  obtain ⟨cuts, hcuts⟩ := segmented_of_scan hscan
  obtain ⟨body, rfl, hbody⟩ := hcuts.inOrder
  rw [(scan_closed hscan).tree_tokens htree, List.dropLast_concat]
  exact hbody.sublist List.filter_sublist

/-- Every part of the tree of a text reaches over some of its characters. -/
theorem ends_inside (h : tree file text = .ok t) {u : Tree} (hu : u ∈ t.nodes) :
    ∃ i j, u.ends? = .ok (place file i, place file j) ∧ i < j ∧ j ≤ text.length :=
  ((regular h).nodes u hu).ends_inside ((inOrder h).sublist (Tree.tokens_infix hu).sublist)

/-- A closed list without a tree is refused at one of its tokens. -/
theorem refused_at {ts : List Token} (h : Grammar.Closed ts) {e : Refusal}
    (he : treeOfTokens ts = .error e) :
    ∃ f, e = .parse f ∧ ∃ bad ∈ ts, bad.span.ends? = some (f.start, f.stop) := by
  rcases h.accepts_or_refused with ⟨d, -, -, ha⟩ | ⟨u, bad, after, x, start, stop, rfl, hs, hr⟩
  · rw [Grammar.treeOfTokens_of_accepts ha] at he
    cases he
  · rw [Grammar.treeOfTokens_of_rejects (hr.rejects hs after)] at he
    cases he
    exact ⟨_, rfl, bad, by simp, hs⟩

end Source

/-! ## Diagnostics -/

/-- The diagnostic is about some characters of the text, all on its first line, or it tells that
the text ends too early and is about its end. -/
structure Diagnostic.PointsInto (d : Diagnostic) (file text : String) : Prop where
  start : d.start.file = file
  stop : d.stop.file = file
  line : d.start.line = 0
  nonneg : 0 ≤ d.start.index
  inside : (d.start.index < d.stop.index ∧ d.stop.index ≤ text.length) ∨
    (d.kind = .invalidSyntax ∧ d.start.index = text.length ∧ d.stop.index = text.length + 1)

theorem Diagnostic.PointsInto.of_place {d : Diagnostic} {file text : String} {i j : Nat}
    (hstart : d.start = place file i) (hfile : d.stop.file = file) (hindex : d.stop.index = j)
    (h : (i < j ∧ j ≤ text.length) ∨
      (d.kind = .invalidSyntax ∧ i = text.length ∧ j = text.length + 1)) :
    d.PointsInto file text where
  start := by rw [hstart]; rfl
  stop := hfile
  line := by rw [hstart]; rfl
  nonneg := by rw [hstart]; exact Int.natCast_nonneg i
  inside := by
    have hi : d.start.index = i := by rw [hstart]; rfl
    rw [hi, hindex]
    exact h.imp (fun h => by omega) fun h => ⟨h.1, by omega, by omega⟩

/-- A text without a tree is refused for some of its characters, or for its end. -/
theorem Source.refusal_inside {file text : String} {e : Refusal} {d : Diagnostic}
    (h : tree file text = .error e) (hd : e.diagnostic? = some d) :
    d.kind.isRuntime = false ∧ d.PointsInto file text := by
  rcases tree_cases file text with ⟨f, hscan, htree⟩ | ⟨ts, hscan, htree⟩
  · cases h.symm.trans htree
    obtain ⟨m, -, hm, hr⟩ := refuses_of_scanFrom hd text.toList 0 0 hscan
    rw [Nat.zero_add, String.length_toList] at hm
    exact ⟨hr.static, .of_place hr.start hr.file hr.index (.inl ⟨Nat.lt_succ_self m, hm⟩)⟩
  · obtain ⟨f, rfl, bad, hbad, hends⟩ := refused_at (scan_closed hscan) (htree.symm.trans h)
    cases hd
    refine ⟨rfl, ?_⟩
    obtain ⟨cuts, hcuts⟩ := segmented_of_scan hscan
    obtain ⟨body, rfl, hbody⟩ := hcuts.inOrder
    rcases List.mem_append.1 hbad with hbad | hbad
    · obtain ⟨i, j, hspan, hinside⟩ := hbody.inside bad hbad
      rw [hspan] at hends
      obtain ⟨hstart, hstop⟩ := Prod.mk.inj (Option.some.inj hends)
      exact .of_place hstart.symm (congrArg Position.file hstop).symm
        (congrArg Position.index hstop).symm (.inl hinside)
    · obtain rfl := List.mem_singleton.1 hbad
      obtain ⟨hstart, hstop⟩ := Prod.mk.inj (Option.some.inj hends)
      exact .of_place hstart.symm (congrArg Position.file hstop).symm
        (congrArg Position.index hstop).symm (.inr ⟨rfl, rfl, rfl⟩)

end Reckoner
