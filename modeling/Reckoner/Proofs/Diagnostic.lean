import Reckoner.Diagnostic

/-!
# Tracebacks

A runtime error is written with one line for each of its frames, the outermost first
(`Diagnostic.text_of_isRuntime`). The entry of a frame is a place in the frame around it, so that
the line of a frame shows an entry of a frame inside it: that of the nearest one that has an entry,
and the start of the error if there is none (`Diagnostic.standsAt`).
-/

set_option autoImplicit false

namespace Reckoner

namespace Diagnostic

/-- Where frame `j` stands: at the entry of the nearest frame inside it that has one, else at the
start. -/
def standsAt (start : Position) (frames : List Frame) (j : Nat) : Position :=
  ((frames.take j).reverse.findSome? Frame.entry).getD start

theorem standsAt_zero (start : Position) (frames : List Frame) :
    standsAt start frames 0 = start := rfl

/-- For the frames around the innermost one, the entry of that one takes the place of the start. -/
theorem standsAt_succ (start : Position) (f : Frame) (rest : List Frame) (j : Nat) :
    standsAt start (f :: rest) (j + 1) = standsAt (f.entry.getD start) rest j := by
  unfold standsAt
  rw [List.take_succ_cons, List.reverse_cons, List.findSome?_append, List.findSome?_singleton]
  cases (rest.take j).reverse.findSome? Frame.entry <;> rfl

/-- The lines of the frames are those of the places where they stand. -/
theorem frameLines_eq (start : Position) (frames : List Frame) :
    frameLines start frames =
      frames.mapIdx fun j f => frameLine (standsAt start frames j) f := by
  induction frames generalizing start with
  | nil => rfl
  | cons f rest ih =>
    rw [frameLines, ih, List.mapIdx_cons, standsAt_zero]
    simp only [standsAt_succ]

/-- A runtime error is written as a header, one line for each frame with the outermost frame first,
and a last line with its details. A frame is shown with the file and the line where it stands. -/
theorem text_of_isRuntime {d : Diagnostic} (h : d.kind.isRuntime = true) :
    d.text =
      "Traceback (most recent call last):\n" ++
        String.join (d.frames.mapIdx fun j f =>
          let p := standsAt d.start d.frames j
          "  File " ++ p.file ++ ", line " ++ toString (p.line + 1) ++ ", in " ++ f.name ++
            "\n").reverse ++
        d.kind.title ++ ": " ++ d.details := by
  unfold text traceback
  rw [if_pos h, frameLines_eq]
  rfl

/-- Five frames, of which the second and the third have no entry. -/
def nestedFrames : Diagnostic where
  kind := .illegalOperation
  start := ⟨30, 6, 2, "inner"⟩
  stop := ⟨31, 6, 3, "inner"⟩
  frames :=
    [{ name := "f", entry := some ⟨20, 4, 0, "outer"⟩ }, { name := "g" }, { name := "h" },
      { name := "k", entry := some ⟨3, 0, 3, "main"⟩ }, { name := "<program>" }]

/-- The three frames around `f` stand where `f` was entered, and the outermost one where `k` was. -/
theorem nestedFrames_text :
    nestedFrames.text =
      "Traceback (most recent call last):\n  File main, line 1, in <program>\n" ++
        "  File outer, line 5, in k\n  File outer, line 5, in h\n  File outer, line 5, in g\n" ++
        "  File inner, line 7, in f\nRuntime Error: Illegal operation" := by
  rw [text_of_isRuntime rfl]
  decide +kernel

end Diagnostic

end Reckoner
