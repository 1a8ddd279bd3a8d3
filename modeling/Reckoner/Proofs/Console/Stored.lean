import Reckoner.Proofs.Console.Answer
import Reckoner.Proofs.Evaluation.Program
import Reckoner.Proofs.Evaluation.Verbosity
import Reckoner.Proofs.Source
import Reckoner.Proofs.Tree.Legible

/-!
# Stored programs

A program whose trees were written to a file is evaluated from there as it is run from its text:
the tree of each line is read back as it was (`storedTree_entryJson`), and evaluating it is what a
run of the line comes to (`Session.run_quiet`). A program with a line that has no tree is not
written at all (`Console.perform_stored`). That the file is read as it was written is an assumption
there; it holds of every program without a point (`Console.read_storedJson`).
-/

set_option autoImplicit false

namespace Reckoner

open Scan

/-! ## Trees of texts -/

section

variable {file text : String} {t : Tree}

theorem tokenAt_isIn (file : String) (k : Symbol) (v : Datum) (i j : Nat) :
    (tokenAt file k v i j).IsIn file where
  start := by
    rintro _ ⟨⟩
    rfl
  stop := by
    rintro _ ⟨⟩
    rfl

/-- Scanned tokens are in the file that is scanned. -/
theorem scan_isIn {ts : List Token} (h : scan file text = .ok ts) : ∀ t ∈ ts, t.IsIn file := by
  intro t ht
  obtain ⟨k, v, i, j, rfl, -⟩ := exists_tokenAt h t ht
  exact tokenAt_isIn file k v i j

namespace Source

/-- What holds of the tokens of a text holds of those of its tree. -/
theorem tree_all {P : Token → Prop} (h : Source.tree file text = .ok t)
    (hP : ∀ ts, scan file text = .ok ts → ∀ k ∈ ts, P k) : t.All P := by
  obtain ⟨ts, hts, htree⟩ := exists_tokens h
  exact ((scan_closed hts).regular htree (hP ts hts)).all

/-- There is a diagnostic for every refusal but that of an integer that cannot be read. -/
theorem diagnostic_of_refusal {e : Refusal} (h : Source.tree file text = .error e)
    (hr : scan file text ≠ .error .oversizedInteger) : ∃ d, e.diagnostic? = some d := by
  rcases tree_cases file text with ⟨f, hf, he⟩ | ⟨ts, hts, htree⟩
  · rw [h] at he
    cases he
    cases f with
    | oversizedInteger => exact absurd hf hr
    | _ => exact ⟨_, rfl⟩
  · rcases (scan_closed hts).regular_or_refused (P := fun _ => True) fun _ _ => trivial with
      ⟨t, ht, -⟩ | ⟨f, hf⟩
    · cases (htree.symm.trans h).symm.trans ht
    · cases (htree.symm.trans h).symm.trans hf
      exact ⟨_, rfl⟩

end Source

end

namespace Console

variable {c : Console} {file text : String} {t : Tree}

/-! ## Lines and trees -/

theorem runLine_quiet (hv : c.session.verbosity = 0) (file line : String) :
    c.runLine file line = c.tell (c.session.run c.patience file line) := by
  have htrace := Session.run_trace hv c.patience file line
  simp [runLine, isBlocked, htrace]

theorem runTree_of_tree (hv : c.session.verbosity = 0) {line : String}
    (h : Source.tree file line = .ok t) : c.runTree t = c.runLine file line := by
  have htrace := Session.run_trace hv c.patience file line
  rw [runLine_quiet hv, Session.run_quiet hv h] at *
  simp [runTree, isBlocked, htrace]

/-- A quiet console stays quiet. -/
theorem runLine_verbosity (hv : c.session.verbosity = 0) (file line : String) :
    (c.runLine file line).2.session.verbosity = 0 := by
  rw [runLine_quiet hv, tell_session]
  exact hv

theorem runLine_traceless (hv : c.session.verbosity = 0) (b : Bool) (file line : String) :
    { c with traceless := b }.runLine file line =
      ((c.runLine file line).1, { (c.runLine file line).2 with traceless := b }) := by
  rw [runLine_quiet hv, runLine_quiet (c := { c with traceless := b }) hv, tell_traceless]

theorem runLines_traceless (b : Bool) (file : String) : ∀ (lines : List String) {c : Console},
    c.session.verbosity = 0 → runLines file lines { c with traceless := b } =
      ((runLines file lines c).1, { (runLines file lines c).2 with traceless := b })
  | [], _, _ => rfl
  | line :: rest, c, hv => by
    have hverbosity := runLine_verbosity hv file line
    rw [runLines, runLines, runLine_traceless hv]
    generalize c.runLine file line = x at hverbosity ⊢
    rcases x with ⟨_ | _ | e, c'⟩
    · exact runLines_traceless b file rest hverbosity
    all_goals rfl

/-! ## Stored entries -/

/-- What was written of a line gives its tree back. -/
theorem storedTree_entryJson (h : t.All (Token.IsIn file)) (number : Nat) (line : String)
    (all : List Json) : storedTree (storedJson file all) (entryJson number line t) = .ok t := by
  have hast : field "ast" (entryJson number line t) = .ok t.toJson := by
    simp [field, entryJson, Json.field?]
  have hfile : field "fn" (storedJson file all) = .ok (.text file) := by
    simp [field, storedJson, Json.field?]
  have htext : field "text" (entryJson number line t) = .ok (.text line) := by
    simp [field, entryJson, Json.field?]
  have hdisplay : (Json.text file).display = file := rfl
  have hdecode := t.decode_toJson h
  rw [← hdisplay] at hdecode
  unfold storedTree
  rw [hast, hfile, htext]
  simp only [bind, Except.bind]
  rw [hdecode]

theorem field_lines (all : List Json) :
    field "lines" (storedJson file all) = .ok (.list all) := by
  simp [field, storedJson, Json.field?]

theorem cons_of_entries {number : Nat} {line : String} {rest : List (Nat × String)}
    {es : List Json} (h : entries file ((number, line) :: rest) = .ok es) :
    ∃ t es', Source.tree file line = .ok t ∧ entries file rest = .ok es' ∧
      es = entryJson number line t :: es' := by
  rw [entries] at h
  cases htree : Source.tree file line with
  | error e => rw [htree] at h; cases h
  | ok t =>
    cases hrest : entries file rest with
    | error e => rw [htree, hrest] at h; cases h
    | ok es' =>
      rw [htree, hrest] at h
      cases h
      exact ⟨t, es', rfl, rfl, rfl⟩

/-- The entries of lines that have trees are evaluated as the lines are run. -/
theorem evaluateEntries_entries (all : List Json) : ∀ {lines : List (Nat × String)}
    {es : List Json} {c : Console}, entries file lines = .ok es → c.session.verbosity = 0 →
      evaluateEntries (storedJson file all) es c = runLines file (lines.map Prod.snd) c
  | [], es, c, h, _ => by
    cases h
    rfl
  | (number, line) :: rest, es, c, h, hv => by
    obtain ⟨t, es', htree, hrest, rfl⟩ := cons_of_entries h
    have hverbosity := runLine_verbosity hv file line
    have hstored := storedTree_entryJson (Source.tree_all htree fun _ => scan_isIn) number line all
    rw [evaluateEntries, hstored, List.map_cons, runLines]
    dsimp only
    rw [runTree_of_tree hv htree]
    generalize c.runLine file line = x at hverbosity ⊢
    rcases x with ⟨_ | _ | e, c'⟩
    · exact evaluateEntries_entries all hrest hverbosity
    all_goals rfl

/-- Lines that all have trees have entries. -/
theorem exists_entries : ∀ {lines : List (Nat × String)},
    (∀ l ∈ lines, ∃ t, Source.tree file l.2 = .ok t) → ∃ es, entries file lines = .ok es
  | [], _ => ⟨[], rfl⟩
  | (number, line) :: rest, h => by
    obtain ⟨⟨t, ht⟩, hrest⟩ := List.forall_mem_cons.1 h
    obtain ⟨es, hes⟩ := exists_entries hrest
    exact ⟨entryJson number line t :: es, by rw [entries, ht, hes]; rfl⟩

/-- Lines that do not all have trees are refused as one of them is. -/
theorem entries_refused : ∀ {lines : List (Nat × String)} {e : Source.Refusal},
    (∃ l ∈ lines, Source.tree file l.2 = .error e) →
      ∃ l ∈ lines, ∃ e', Source.tree file l.2 = .error e' ∧ entries file lines = .error e'
  | [], _, h => by
    obtain ⟨l, hl, -⟩ := h
    cases hl
  | (number, line) :: rest, e, h => by
    cases htree : Source.tree file line with
    | error e' => exact ⟨_, .head _, e', htree, by rw [entries, htree]; rfl⟩
    | ok t =>
      obtain ⟨l, hl, he⟩ := h
      rcases List.mem_cons.1 hl with rfl | hl
      · rw [htree] at he
        cases he
      · obtain ⟨l', hl', e', he', hentries⟩ := entries_refused ⟨l, hl, he⟩
        exact ⟨l', .tail _ hl', e', he', by rw [entries, htree, hentries]; rfl⟩

theorem trees_of_entries {lines : List (Nat × String)} {es : List Json}
    (h : entries file lines = .ok es) : ∀ l ∈ lines, ∃ t, Source.tree file l.2 = .ok t := by
  intro l hl
  cases htree : Source.tree file l.2 with
  | ok t => exact ⟨t, rfl⟩
  | error e =>
    obtain ⟨_, _, _, _, hentries⟩ := entries_refused ⟨l, hl, htree⟩
    cases h.symm.trans hentries

/-! ## Commands -/

theorem emit_entries {es : List Json} (h : entries file (programLines text) = .ok es)
    {place : Entry} (hplace : place.isFolder = false) :
    c.emit file text place =
      (.exit 0, { c with written := c.written ++ [(Path.ofTrees file, (storedJson file es).print 0)]
                         out := c.out ++ (Path.ofTrees file ++ "\n") }) := by
  unfold emit
  rw [h]
  cases place with
  | folder => cases hplace
  | _ => rfl

theorem emit_refused {e : Source.Refusal} (h : entries file (programLines text) = .error e)
    {d : Diagnostic} (hd : e.diagnostic? = some d) (place : Entry) :
    c.emit file text place = (.exit 1, c.complain d.text) := by
  unfold emit
  rw [h]
  dsimp only
  rw [hd]

/-- What was written is evaluated as the program is run, if it is read as it was written. -/
theorem evaluateStored_entries {es : List Json} (h : entries file (programLines text) = .ok es)
    (hread : Json.read ((storedJson file es).print 0) = .ok (storedJson file es))
    (hv : c.session.verbosity = 0) :
    c.evaluateStored ((storedJson file es).print 0) = c.runProgram file text := by
  unfold evaluateStored
  rw [hread]
  dsimp only
  rw [field_lines]
  exact evaluateEntries_entries es h hv

/-- Two commands end alike, print the same and leave the same bindings. -/
structure Alike (r r' : Ending × Console) : Prop where
  ending : r.1 = r'.1
  out : r.2.out = r'.2.out
  err : r.2.err = r'.2.err
  environment : r.2.session.environment = r'.2.session.environment

/-- Without a trace it plays no part where that would go. -/
theorem runProgram_alike (hv : c.session.verbosity = 0) (b b' : Bool) (file text : String) :
    Alike ({ c with traceless := b }.runProgram file text)
      ({ c with traceless := b' }.runProgram file text) := by
  generalize hlines : (programLines text).map Prod.snd = lines
  have h := fun b => runLines_traceless b file lines hv
  rw [runProgram, runProgram, hlines, h b, h b']
  exact ⟨rfl, rfl, rfl, rfl⟩

/-! ## Programs without binary64 numbers -/

/-- The numbers and lengths of the lines can be written, and there is no point in the lines. -/
def IsPlain (lines : List (Nat × String)) : Prop :=
  ∀ l ∈ lines, Number.tooLong l.1 = false ∧ Number.tooLong (l.2.length + 1 : Nat) = false ∧
    '.' ∉ l.2.toList

theorem legible_entries : ∀ {lines : List (Nat × String)} {es : List Json}, IsPlain lines →
    entries file lines = .ok es → Json.LegibleItems es
  | [], es, _, h => by
    cases h
    trivial
  | (number, line) :: rest, es, hplain, h => by
    obtain ⟨⟨hnumber, hlength, hpoint⟩, hrest⟩ := List.forall_mem_cons.1 hplain
    obtain ⟨t, es', htree, hes, rfl⟩ := cons_of_entries h
    have hlegible := t.legible_toJson (Source.tree_all htree fun ts hts =>
      legible_of_scan hts hpoint hlength)
    exact ⟨⟨by simp, hnumber, trivial, hlegible, trivial⟩, legible_entries hrest hes⟩

/-- The stored form of a program without a point is read as it was written. -/
theorem read_storedJson {es : List Json} (hplain : IsPlain (programLines text))
    (h : entries file (programLines text) = .ok es) :
    Json.read ((storedJson file es).print 0) = .ok (storedJson file es) :=
  Json.read_print ⟨by simp, trivial, legible_entries hplain h, trivial⟩

/-! ## Stored programs -/

/-- Let a console be quiet. If every line of a program has a tree, the trees are written to a file,
unless a folder has its name; and if that text is read as it was written, then evaluating it, by
whatever path it is found, ends as running the program does, with the same output, messages and
bindings. If some line is refused, and none for an integer that cannot be read, nothing is written
and the command fails. -/
theorem perform_stored {c : Console} (hv : c.session.verbosity = 0) {find : String → Entry}
    {path text : String} (hfile : find path = .file text) (input : String) :
    ((∀ l ∈ programLines text, ∃ t, Source.tree path l.2 = .ok t) →
      (find (Path.ofTrees path)).isFolder = false →
        ∃ es, entries path (programLines text) = .ok es ∧
          let stored := (storedJson path es).print 0
          (c.perform find input (.emit path)).1 = .exit 0 ∧
          (c.perform find input (.emit path)).2.written =
            c.written ++ [(Path.ofTrees path, stored)] ∧
          (Json.read stored = .ok (storedJson path es) →
            ∀ (find' : String → Entry) (path' input' : String), find' path' = .file stored →
              Alike (c.perform find' input' (.stored path'))
                (c.perform find input (.program path)))) ∧
    ((∃ l ∈ programLines text, ∃ e, Source.tree path l.2 = .error e) →
      (∀ l ∈ programLines text, scan path l.2 ≠ .error .oversizedInteger) →
        (c.perform find input (.emit path)).1 = .exit 1 ∧
        (c.perform find input (.emit path)).2.written = c.written) := by
  have hemit : c.perform find input (.emit path) =
      { c with traceless := (find Path.ofTrace).isFolder }.emit path text
        (find (Path.ofTrees path)) := by
    simp only [perform, hfile, withFile]
  refine ⟨fun htrees hplace => ?_, fun hrefused hreadable => ?_⟩
  · obtain ⟨es, hes⟩ := exists_entries htrees
    refine ⟨es, hes, ?_⟩
    rw [hemit, emit_entries hes hplace]
    refine ⟨rfl, rfl, fun hread find' path' input' hfile' => ?_⟩
    have hdirect : c.perform find input (.program path) =
        { c with traceless := (find Path.ofTrace).isFolder }.runProgram path text := by
      simp only [perform, hfile, withFile]
    have hstored : c.perform find' input' (.stored path') =
        { c with traceless := (find' Path.ofTrace).isFolder }.runProgram path text := by
      simp only [perform, hfile', withFile]
      exact evaluateStored_entries hes hread hv
    rw [hdirect, hstored]
    exact runProgram_alike hv _ _ path text
  · obtain ⟨l, hl, e, he⟩ := hrefused
    obtain ⟨l', hl', e', he', hentries⟩ := entries_refused ⟨l, hl, he⟩
    obtain ⟨d, hd⟩ := Source.diagnostic_of_refusal he' (hreadable l' hl')
    rw [hemit, emit_refused hentries hd]
    exact ⟨rfl, rfl⟩

/-- Two lines, of which the second uses what the first one assigns. -/
def inc : String := "VAR a = 3\n\na + 1\n"

def incEntries : List Json :=
  let name i := tokenAt "inc" .identifier (.text "a") i (i + 1)
  let number (k : Int) i := tokenAt "inc" .int (.number (.int k)) i (i + 1)
  [entryJson 1 "VAR a = 3" (.assign (name 4) (.literal (number 3 8))),
    entryJson 3 "a + 1"
      (.binary (tokenAt "inc" .plus .blank 2 3) (.ident (name 0)) (.literal (number 1 4)))]

theorem programLines_inc : programLines inc = [(1, "VAR a = 3"), (3, "a + 1")] := by
  decide +kernel

theorem entries_inc : entries "inc" (programLines inc) = .ok incEntries := by
  have hassign : Source.tree "inc" "VAR a = 3" =
      .ok (.assign (tokenAt "inc" .identifier (.text "a") 4 5)
        (.literal (tokenAt "inc" .int (.number (.int 3)) 8 9))) := by decide +kernel
  have hsum : Source.tree "inc" "a + 1" =
      .ok (.binary (tokenAt "inc" .plus .blank 2 3)
        (.ident (tokenAt "inc" .identifier (.text "a") 0 1))
        (.literal (tokenAt "inc" .int (.number (.int 1)) 4 5))) := by decide +kernel
  rw [programLines_inc, entries, hassign, entries, hsum]
  rfl

theorem isPlain_inc : IsPlain (programLines inc) := by
  have hshort : ∀ {n : Nat}, n ≤ 10 → Number.tooLong n = false := fun h =>
    Number.tooLong_of_lt (k := 2) (by omega) (by decide)
  rw [programLines_inc]
  exact List.forall_mem_cons.2 ⟨⟨hshort (by decide), hshort (by decide), by decide +kernel⟩,
    List.forall_mem_singleton.2 ⟨hshort (by decide), hshort (by decide), by decide +kernel⟩⟩

/-- The program `inc` and, under another name, one that cannot be scanned. -/
def shelf (path : String) : Entry :=
  if path = "inc" then .file inc else if path = "price" then .file "$" else .missing

/-- What is written of `inc` is evaluated as `inc` is run; of the other program nothing is written. -/
theorem inc_stored :
    let stored := (storedJson "inc" incEntries).print 0
    let shelf' : String → Entry := fun path =>
      if path = "inc.ast.json" then .file stored else .missing
    (perform {} shelf "" (.emit "inc")).1 = .exit 0 ∧
      (perform {} shelf "" (.emit "inc")).2.written = [("inc.ast.json", stored)] ∧
      Alike (perform {} shelf' "" (.stored "inc.ast.json")) (perform {} shelf "" (.program "inc")) ∧
      (perform {} shelf "" (.program "inc")).2.out = "3\n4\n" ∧
      (perform {} shelf "" (.emit "price")).1 = .exit 1 ∧
      (perform {} shelf "" (.emit "price")).2.written = [] := by
  intro stored shelf'
  have hinc : shelf "inc" = .file inc := rfl
  have hprice : shelf "price" = .file "$" := rfl
  have hlines : programLines "$" = [(1, "$")] := by decide +kernel
  have hscan : scan "price" "$" = .error (.illegalCharacter '$' (place "price" 0)
    (place "price" 1)) := by decide +kernel
  have hrefused : ∃ l ∈ programLines "$", ∃ e, Source.tree "price" l.2 = .error e := by
    rw [hlines]
    exact ⟨_, .head _, _, by rw [Source.tree, Source.tokens, hscan]; rfl⟩
  have hreadable : ∀ l ∈ programLines "$", scan "price" l.2 ≠ .error .oversizedInteger := by
    rw [hlines, List.forall_mem_singleton, hscan]
    intro h
    cases h
  obtain ⟨es, hes, hexit, hwritten, hstored⟩ :=
    (perform_stored (c := {}) rfl hinc "").1 (trees_of_entries entries_inc) rfl
  cases entries_inc.symm.trans hes
  have hread := read_storedJson isPlain_inc entries_inc
  have hfails := (perform_stored (c := {}) rfl hprice "").2 hrefused hreadable
  refine ⟨hexit, hwritten, hstored hread shelf' _ "" (if_pos rfl), ?_, hfails⟩
  decide +kernel

end Console

end Reckoner
