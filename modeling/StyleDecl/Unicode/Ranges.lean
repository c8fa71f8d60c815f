/-!
# Ranges of code points

A Unicode property beyond ASCII is given by a table of inclusive ranges of code
points. Within ASCII every property of this library is spelled out instead, so
that facts about the characters of the declaration language itself never look
into a table.
-/

namespace StyleDecl.Unicode

/-- Whether the code point `n` lies in one of the inclusive ranges. -/
def inRanges (ranges : List (Nat × Nat)) (n : Nat) : Bool :=
  ranges.any fun r => r.1 ≤ n && n ≤ r.2

/-- Whether a character has a property which holds of the ASCII characters
    satisfying `ascii` and of the other characters in `ranges`. -/
def hasProperty (ascii : Char → Bool) (ranges : List (Nat × Nat)) (c : Char) : Bool :=
  if c.toNat < 128 then ascii c else inRanges ranges c.toNat

/-- On ASCII the table is not consulted. -/
theorem hasProperty_of_lt {ascii : Char → Bool} {ranges : List (Nat × Nat)} {c : Char}
    (h : c.toNat < 128) : hasProperty ascii ranges c = ascii c := if_pos h

end StyleDecl.Unicode
