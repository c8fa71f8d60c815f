/-!
# Positions in a text

A position is the number of characters before it together with the line and the
column that these characters lead to, both counted from one. Only a line feed
starts a new line. A cursor may be moved past the end of its text; such steps
count as columns of the last line.
-/

namespace StyleDecl

/-- A place in a text. -/
structure Position where
  /-- The number of characters before the place. -/
  offset : Nat
  /-- The number of the line, from one. -/
  line : Nat
  /-- The number of the column in its line, from one. -/
  column : Nat
  deriving DecidableEq

namespace Position

/-- The place before the first character. -/
def start : Position := ⟨0, 1, 1⟩

/-- The place after the character `c`. -/
def next (p : Position) (c : Char) : Position :=
  if c = '\n' then ⟨p.offset + 1, p.line + 1, 1⟩ else ⟨p.offset + 1, p.line, p.column + 1⟩

/-- The place after the characters `text`. -/
def after (p : Position) (text : List Char) : Position := text.foldl next p

/-- The place `n` steps past the end of the text. -/
def beyond (p : Position) (n : Nat) : Position := ⟨p.offset + n, p.line, p.column + n⟩

@[simp] theorem after_nil (p : Position) : p.after [] = p := rfl

@[simp] theorem after_cons (p : Position) (c : Char) (text : List Char) :
    p.after (c :: text) = (p.next c).after text := rfl

theorem after_append (p : Position) (s t : List Char) : p.after (s ++ t) = (p.after s).after t :=
  List.foldl_append

@[simp] theorem beyond_zero (p : Position) : p.beyond 0 = p := rfl

/-- Every character is one step. -/
theorem offset_after (p : Position) (text : List Char) :
    (p.after text).offset = p.offset + text.length := by
  induction text generalizing p with
  | nil => rfl
  | cons c text ih =>
    rw [after_cons, ih, List.length_cons, next]
    split <;> simp only <;> omega

end Position

end StyleDecl
