/-!
# White space

The white space of Unicode together with the four separators before the space. A line of nothing
else is blank. Around a numeral the four separators do not count.
-/

set_option autoImplicit false

namespace Reckoner

namespace Text

/-- First and last code points of the runs of white space. -/
def spaceRuns : List (Nat × Nat) :=
  [(0x09, 0x0D), (0x1C, 0x20), (0x85, 0x85), (0xA0, 0xA0), (0x1680, 0x1680), (0x2000, 0x200A),
   (0x2028, 0x2029), (0x202F, 0x202F), (0x205F, 0x205F), (0x3000, 0x3000)]

def isSpace (c : Char) : Bool :=
  spaceRuns.any fun (first, last) => first ≤ c.toNat && c.toNat ≤ last

def isBlank (s : String) : Bool := s.toList.all isSpace

/-- The file, group, record and unit separators. -/
def isSeparator (c : Char) : Bool := 0x1C ≤ c.toNat && c.toNat ≤ 0x1F

/-- White space that may stand around a numeral. -/
def isPadding (c : Char) : Bool := isSpace c && !isSeparator c

/-- Every white space character of the core library is one here. -/
theorem isPadding_of_isWhitespace {c : Char} (h : c.isWhitespace = true) :
    isPadding c = true := by
  simp only [Char.isWhitespace, Bool.or_eq_true, decide_eq_true_eq] at h
  rcases h with ((rfl | rfl) | rfl) | rfl <;> decide

/-- The text without the padding at both ends. -/
def trim (cs : List Char) : List Char :=
  ((cs.dropWhile isPadding).reverse.dropWhile isPadding).reverse

end Text

end Reckoner
