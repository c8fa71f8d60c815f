/-!
# Pieces of string literals

The body of a string literal is a sequence of characters and of *escapes*, a
backslash with the character after it. A literal can be written with either
quote. Its preferred form uses the preferred quote unless this one would have to
be escaped more often than the other, and escapes no quote but its own.

* `pieces`: the body of a literal, piece by piece;
* `Piece.bare`: a quote needs no escape until the quotes around it are known;
* `preferred`: the preferred form of a literal.
-/

namespace StyleDecl.Literal

/-- Whether a character can be the quote of a literal. -/
def isQuote (c : Char) : Bool := c = '"' || c = '\''

/-- A piece of the body of a string literal. -/
inductive Piece
  /-- A character that stands for itself. -/
  | plain (c : Char)
  /-- A backslash followed by the character `c`. -/
  | escape (c : Char)
  deriving DecidableEq

/-- The pieces of the body of a literal. A backslash with nothing after it stands
    for itself. -/
def pieces : List Char → List Piece
  | [] => []
  | [c] => [.plain c]
  | c :: d :: rest => if c = '\\' then .escape d :: pieces rest else .plain c :: pieces (d :: rest)

/-- An escaped quote taken for the quote itself. -/
def Piece.bare : Piece → Piece
  | .plain c => .plain c
  | .escape c => if isQuote c then .plain c else .escape c

/-- The text of a piece between the quotes `quote`: this quote is escaped. -/
def Piece.written (quote : Char) : Piece → List Char
  | .plain c => if c = quote then ['\\', c] else [c]
  | .escape c => ['\\', c]

/-- The quote for the body `body`: the preferred one, unless it occurs in the body
    more often than the other. -/
def chosenQuote (single : Bool) (body : List Piece) : Char :=
  let preferred := if single then '\'' else '"'
  let other := if single then '"' else '\''
  if body.count (.plain other) < body.count (.plain preferred) then other else preferred

/-- A literal with the body `body` between the quotes `quote`. -/
def written (quote : Char) (body : List Piece) : List Char :=
  quote :: body.flatMap (Piece.written quote) ++ [quote]

/-- The pieces between the first and the last character of a literal, its quotes
    bare. -/
def body (raw : List Char) : List Piece := (pieces (raw.drop 1).dropLast).map Piece.bare

/-- The preferred form of the literal `raw`; single quotes are preferred if
    `single`. The first and the last character of `raw` are taken for its quotes. -/
def preferred (single : Bool) (raw : String) : String :=
  let pieces := body raw.toList
  String.ofList (written (chosenQuote single pieces) pieces)

end StyleDecl.Literal
