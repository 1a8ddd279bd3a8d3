import Reckoner.Console.Run

/-!
# Texts made of lines

A text that is written line by line has those lines, as a file and as typed (`lines_unlines`,
`fileLines_unlines`). Whether the last line is ended does not matter to a program
(`Console.programLines_snd`), since what it could add is a blank line.
-/

set_option autoImplicit false

namespace Reckoner

namespace Text

/-- The text of the lines, each ended by a line feed. -/
def unlines (lines : List String) : String := String.join (lines.map (· ++ "\n"))

/-- No character of the line ends it, neither typed nor in a file. -/
def IsLine (line : String) : Prop := '\n' ∉ line.toList ∧ '\r' ∉ line.toList

instance (line : String) : Decidable (IsLine line) :=
  inferInstanceAs (Decidable (_ ∧ _))

theorem toList_unlines (lines : List String) :
    (unlines lines).toList = (lines.map String.toList).flatMap (· ++ ['\n']) := by
  have hnewline : "\n".toList = ['\n'] := by decide
  simp [unlines, String.toList_join, List.flatMap_map, hnewline]

/-! ## Splitting -/

theorem splitLines_append {l : List Char} (h : '\n' ∉ l) (rest : List Char) :
    ∀ line, splitLines line (l ++ rest) = splitLines (l.reverse ++ line) rest := by
  induction l with
  | nil => exact fun _ => rfl
  | cons c l ih =>
    intro line
    rw [List.mem_cons, not_or] at h
    obtain ⟨hc, hl⟩ := h
    rw [List.cons_append, splitLines, if_neg (Ne.symm hc), ih hl, List.reverse_cons,
      List.append_assoc]
    rfl

theorem splitLines_unlines {ls : List (List Char)} (h : ∀ l ∈ ls, '\n' ∉ l) :
    splitLines [] (ls.flatMap (· ++ ['\n'])) = ls := by
  induction ls with
  | nil => rfl
  | cons l ls ih =>
    obtain ⟨hl, hls⟩ := List.forall_mem_cons.1 h
    rw [List.flatMap_cons, List.append_assoc, splitLines_append hl, List.append_nil]
    show l.reverse.reverse :: splitLines [] (ls.flatMap (· ++ ['\n'])) = l :: ls
    rw [List.reverse_reverse, ih hls]

/-- A line feed at the end of a text ends its last line, or adds an empty one. -/
theorem splitLines_concat (cs : List Char) : ∀ line,
    splitLines line (cs ++ ['\n']) = splitLines line cs ∨
      splitLines line (cs ++ ['\n']) = splitLines line cs ++ [[]] := by
  induction cs with
  | nil =>
    intro line
    cases line with
    | nil => exact .inr rfl
    | cons c line => exact .inl rfl
  | cons c cs ih =>
    intro line
    rw [List.cons_append, splitLines, splitLines]
    split
    · exact (ih []).imp (congrArg _) (congrArg _)
    · exact ih (c :: line)

theorem unifyLineEnds_of_notMem {cs : List Char} (h : '\r' ∉ cs) : unifyLineEnds cs = cs := by
  induction cs with
  | nil => rfl
  | cons c cs ih =>
    rw [List.mem_cons, not_or] at h
    obtain ⟨hc, hcs⟩ := h
    rw [unifyLineEnds, ih hcs]
    · exact fun _ hr => absurd hr.symm hc
    · exact fun hr => absurd hr.symm hc

/-! ## Lines -/

variable {lines : List String}

theorem splitLines_toList_unlines (h : ∀ line ∈ lines, IsLine line) :
    splitLines [] (unlines lines).toList = lines.map String.toList := by
  rw [toList_unlines]
  refine splitLines_unlines fun l hl => ?_
  obtain ⟨line, hline, rfl⟩ := List.mem_map.1 hl
  exact (h line hline).1

theorem map_ofList_toList (lines : List String) :
    (lines.map String.toList).map String.ofList = lines := by
  rw [List.map_map]
  exact List.map_id'' (fun s => String.ofList_toList) lines

theorem lines_unlines (h : ∀ line ∈ lines, IsLine line) : Text.lines (unlines lines) = lines := by
  rw [Text.lines, splitLines_toList_unlines h, map_ofList_toList]

theorem return_notMem_unlines (h : ∀ line ∈ lines, IsLine line) :
    '\r' ∉ (unlines lines).toList := by
  rw [toList_unlines, List.mem_flatMap]
  rintro ⟨l, hl, hmem⟩
  obtain ⟨line, hline, rfl⟩ := List.mem_map.1 hl
  rcases List.mem_append.1 hmem with hmem | hmem
  · exact (h line hline).2 hmem
  · exact absurd (List.mem_singleton.1 hmem) (by decide)

/-- A file of the lines has them, but for an empty last one that is not ended. -/
theorem fileLines_unlines {text : String} (h : ∀ line ∈ lines, IsLine line)
    (htext : text = unlines lines ∨ text ++ "\n" = unlines lines) :
    lines = fileLines text ∨ lines = fileLines text ++ [""] := by
  have hlines := congrArg (List.map String.ofList) (splitLines_toList_unlines h)
  have hreturn := return_notMem_unlines h
  rw [map_ofList_toList] at hlines
  rcases htext with rfl | htext
  · rw [fileLines, unifyLineEnds_of_notMem hreturn, hlines]
    exact .inl rfl
  · rw [← htext, String.toList_append] at hlines hreturn
    rw [fileLines, unifyLineEnds_of_notMem fun hmem => hreturn (List.mem_append_left _ hmem)]
    rcases splitLines_concat text.toList [] with hsplit | hsplit
    · exact .inl (hlines.symm.trans (congrArg _ hsplit))
    · refine .inr (hlines.symm.trans ((congrArg _ hsplit).trans ?_))
      rw [List.map_append]
      rfl

end Text

namespace Console

open Text

/-- The lines that are run, of those of a text. -/
def nonblank (lines : List String) : List String := lines.filter fun line => !isBlank line

theorem nonblank_append (lines lines' : List String) :
    nonblank (lines ++ lines') = nonblank lines ++ nonblank lines' :=
  List.filter_append ..

theorem programLines_snd (text : String) :
    (programLines text).map Prod.snd = nonblank (fileLines text) := by
  have hsnd : (numbered (fileLines text)).map Prod.snd = fileLines text :=
    List.map_snd_zip (Nat.le_of_eq List.length_range'.symm)
  have hfilter := congrArg nonblank hsnd
  rw [← hfilter, nonblank, List.filter_map]
  rfl

/-- A program whose text is made of lines is those of the lines that are not blank. -/
theorem programLines_unlines {lines : List String} {text : String}
    (h : ∀ line ∈ lines, IsLine line)
    (htext : text = unlines lines ∨ text ++ "\n" = unlines lines) :
    (programLines text).map Prod.snd = nonblank lines := by
  rw [programLines_snd]
  rcases fileLines_unlines h htext with hlines | hlines
  · rw [← hlines]
  · rw [hlines, nonblank_append]
    exact (List.append_nil _).symm

end Console

end Reckoner
