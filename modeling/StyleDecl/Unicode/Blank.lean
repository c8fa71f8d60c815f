import StyleDecl.Unicode.Ranges

/-!
# Blanks

The characters that are trimmed from the ends of a text: white space of all
scripts, the line and paragraph separators and the four information separators.
-/

namespace StyleDecl.Unicode

/-- The blanks, those of ASCII included. -/
def blankRanges : List (Nat × Nat) :=
  [(0x9, 0xD), (0x1C, 0x20), (0x85, 0x85), (0xA0, 0xA0), (0x1680, 0x1680), (0x2000, 0x200A),
   (0x2028, 0x2029), (0x202F, 0x202F), (0x205F, 0x205F), (0x3000, 0x3000)]

/-- Whether a character is trimmed from the ends of a text. -/
def isBlank (c : Char) : Bool := inRanges blankRanges c.toNat

/-- The white space of ASCII is blank. -/
theorem isBlank_of_isWhitespace {c : Char} (h : c.isWhitespace) : isBlank c := by
  simp only [Char.isWhitespace, Bool.or_eq_true, decide_eq_true_eq] at h
  rcases h with ((rfl | rfl) | rfl) | rfl <;> rfl

end StyleDecl.Unicode
