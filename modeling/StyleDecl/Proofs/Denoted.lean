import StyleDecl.Proofs.Literal

/-!
# What literals stand for

A string literal stands for a sequence of code units of 16 bits. Most of its pieces
stand for themselves, but an escape may take the pieces after it for the digits of a
number. Of these pieces none can be a quote, bare or not, so a literal stands for the
same however its quotes are written.

* `Literal.value`: the code units that a literal stands for;
* `Literal.value_preferred`: the preferred form of a literal stands for the same;
* `Word.ofText`: what a word of a text stands for.
-/

namespace StyleDecl

namespace Literal

variable {raw : String} {single : Bool}

/-! ### Code units -/

/-- The code units of a character, given its number: one, or a pair of surrogates. -/
def codeUnits (n : Nat) : List Nat :=
  if n < 0x10000 then [n] else [0xD800 + (n - 0x10000) / 0x400, 0xDC00 + (n - 0x10000) % 0x400]

/-- The value of a hexadecimal digit. -/
def hexDigit? (c : Char) : Option Nat :=
  if '0' ≤ c ∧ c ≤ '9' then some (c.toNat - '0'.toNat)
  else if 'a' ≤ c ∧ c ≤ 'f' then some (c.toNat - 'a'.toNat + 10)
  else if 'A' ≤ c ∧ c ≤ 'F' then some (c.toNat - 'A'.toNat + 10)
  else none

/-- What a piece can be within a longer escape. -/
inductive Sign
  /-- A digit of its number. -/
  | digit (n : Nat)
  /-- The brace before its digits. -/
  | openBrace
  /-- The brace after its digits. -/
  | closeBrace
  /-- Nothing, so that the escape has ended. -/
  | other

/-- What a character that stands for itself can be within a longer escape. -/
def Sign.ofChar (c : Char) : Sign :=
  match hexDigit? c with
  | some n => .digit n
  | none => if c = '{' then .openBrace else if c = '}' then .closeBrace else .other

/-- What a piece can be within a longer escape. -/
def Piece.sign : Piece → Sign
  | .plain c => .ofChar c
  | .escape _ => .other

/-- The number between two braces and the count of its digits, given the digits up to a
    place and what comes after it. -/
def braced (number count : Nat) : List Sign → Option (Nat × Nat)
  | .digit d :: signs => braced (16 * number + d) (count + 1) signs
  | .closeBrace :: _ => if count = 0 ∨ 0x10FFFF < number then none else some (number, count)
  | _ => none

/-- What an escape of the character `c` stands for, and how many of the pieces after it belong
    to it. An escape without a meaning stands for its character. -/
def escaped? (c : Char) (signs : List Sign) : List Nat × Nat :=
  match c with
  | '0' => ([0], 0)
  | 'b' => ([8], 0)
  | 't' => ([9], 0)
  | 'n' => ([10], 0)
  | 'v' => ([11], 0)
  | 'f' => ([12], 0)
  | 'r' => ([13], 0)
  -- An escaped line break goes on with the literal on the next line.
  | '\n' | '\r' | '\u2028' | '\u2029' => ([], 0)
  | 'x' =>
    match signs with
    | .digit m :: .digit n :: _ => ([16 * m + n], 2)
    | _ => (codeUnits c.toNat, 0)
  | 'u' =>
    match signs with
    | .digit k :: .digit l :: .digit m :: .digit n :: _ =>
      ([16 * (16 * (16 * k + l) + m) + n], 4)
    | .openBrace :: signs =>
      match braced 0 0 signs with
      | some (number, count) => (codeUnits number, count + 2)
      | none => (codeUnits c.toNat, 0)
    | _ => (codeUnits c.toNat, 0)
  | _ => (codeUnits c.toNat, 0)

/-- The code units that the pieces of a literal stand for, the first `skipped` of which belong
    to an escape before them. -/
def units : Nat → List Piece → List Nat
  | _, [] => []
  | skipped + 1, _ :: ps => units skipped ps
  | 0, .plain c :: ps => codeUnits c.toNat ++ units 0 ps
  | 0, .escape c :: ps =>
    let (found, count) := escaped? c (ps.map Piece.sign)
    found ++ units count ps

/-- The code units that the literal `raw` stands for. -/
def value (raw : String) : List Nat := units 0 (pieces (raw.toList.drop 1).dropLast)

example : value "'it\\'s \\x41\\u{1F600}\\\nB'" =
    [105, 116, 39, 115, 32, 65, 0xD83D, 0xDE00, 66] := by decide

/-! ### Bare quotes -/

theorem eq_of_isQuote {c : Char} (h : isQuote c) : c = '"' ∨ c = '\'' := by
  simpa [isQuote] using h

/-- An escaped quote stands for the quote. -/
theorem escaped?_of_isQuote {c : Char} (h : isQuote c) (signs : List Sign) :
    escaped? c signs = (codeUnits c.toNat, 0) := by
  obtain rfl | rfl := eq_of_isQuote h <;> rfl

/-- No quote is part of a longer escape. -/
theorem Piece.sign_bare (p : Piece) : p.bare.sign = p.sign := by
  cases p with
  | plain c => rfl
  | escape c =>
    rw [Piece.bare]
    split
    · next h => obtain rfl | rfl := eq_of_isQuote h <;> rfl
    · rfl

/-- Escaped quotes may be taken for the quotes themselves. -/
theorem units_map_bare (skipped : Nat) (ps : List Piece) :
    units skipped (ps.map Piece.bare) = units skipped ps := by
  have hsigns (ps : List Piece) : (ps.map Piece.bare).map Piece.sign = ps.map Piece.sign := by
    rw [List.map_map]
    exact List.map_congr_left fun p _ => p.sign_bare
  induction ps generalizing skipped with
  | nil => rfl
  | cons p ps ih =>
    cases skipped with
    | succ skipped => exact ih skipped
    | zero =>
      cases p with
      | plain c => rw [List.map_cons, Piece.bare, units, units, ih]
      | escape c =>
        by_cases hc : isQuote c
        · rw [List.map_cons, Piece.bare, if_pos hc, units, units, escaped?_of_isQuote hc, ih]
        · rw [List.map_cons, Piece.bare, if_neg hc, units, units, hsigns]
          exact congrArg _ (ih _)

theorem value_eq_units_body (raw : String) : value raw = units 0 (body raw.toList) :=
  (units_map_bare 0 _).symm

/-- The preferred form of a literal stands for what the literal stands for. -/
theorem value_preferred (h : Lexeme.string.Spells raw.toList) :
    value (preferred single raw) = value raw := by
  rw [value_eq_units_body, body_preferred h, ← value_eq_units_body]

end Literal

/-! ### Words -/

/-- What a word of a text stands for: a string literal for its code units, and every other
    word for itself. -/
inductive Word
  | itself (text : String)
  | units (value : List Nat)
  deriving DecidableEq

namespace Word

/-- What the word `text` stands for. Literals are the words that begin with a quote. -/
def ofText (text : String) : Word :=
  match text.toList with
  | [] => .itself text
  | c :: _ => if Literal.isQuote c then .units (Literal.value text) else .itself text

theorem ofText_of_string {text : String} (h : Lexeme.string.Spells text.toList) :
    ofText text = .units (Literal.value text) := by
  obtain ⟨q, ps, hq, -, htext⟩ := Literal.spells_iff_fits.1 h
  rw [ofText, htext, Literal.enclosed]
  exact if_pos hq

/-- A word stands for the same, whatever its spelling. -/
theorem ofText_spelling {kinds : List Kind} {text : String} (h : Kind.AnySpells kinds text)
    (cfg : LayoutConfig) : ofText (cfg.spelling text) = ofText text := by
  obtain ⟨k, -, hk⟩ := h
  obtain ⟨l, hl, -⟩ := Kind.spells_iff.1 hk
  by_cases hs : l = .string
  · subst hs
    rw [LayoutConfig.spelling_of_string hl, ofText_of_string (Literal.preferred_spells hl),
      ofText_of_string hl, Literal.value_preferred hl]
  · rw [LayoutConfig.spelling_of_ne_string hl hs]

end Word

end StyleDecl
