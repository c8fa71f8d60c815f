import StyleDecl.Token.Cursor

/-!
# Lexers

A lexer keeps its text, a cursor and the tokens scanned so far. It can be moved by
hand, one character or one lexeme at a time, from wherever it stands: reading a
lexeme does not ask whether one begins there. An action that ends in a rejection
leaves the lexer at the place where reading gave up. It can also look at any
character before or after its place; places before the beginning of the text are
counted from its end, and there is nothing to be looked at where even these come
to their end.
-/

namespace StyleDecl

/-- A text, a cursor in it and the tokens scanned so far. -/
structure Lexer where
  /-- The text. -/
  source : List Char
  /-- The place reached. -/
  cursor : Cursor
  /-- The tokens scanned so far. -/
  tokens : List Token

namespace Lexer

/-- A lexer at the beginning of a text. -/
def start (source : String) : Lexer := ⟨source.toList, .start source, []⟩

/-- What can be done with a lexer. -/
inductive Action
  /-- To look at the character some steps ahead, or behind. -/
  | peek (offset : Int)
  /-- To move one step. -/
  | advance
  /-- To move over white space. -/
  | skipBlanks
  /-- To read a lexeme. -/
  | read (l : Lexeme)
  /-- To scan the rest of the text. -/
  | scan

/-- What an action answers. -/
inductive Answer
  | nothing
  | text (s : String)
  | tokens (ts : List Token)

/-- What can go wrong in an action. -/
inductive Failure
  /-- The text is rejected. -/
  | rejected (r : Rejection)
  /-- A place is too far before the beginning of the text. -/
  | outOfRange

/-- What went wrong, in words. -/
def Failure.message : Failure → String
  | rejected r => r.message
  | outOfRange => "string index out of range"

/-- The character at a place of a text: there is none behind its end. A negative place
    is counted from the end of the text, and may not be before all of it. -/
def charAt (text : List Char) (place : Int) : Except Failure (Option Char) :=
  if 0 ≤ place then .ok text[place.toNat]?
  else if 0 ≤ text.length + place then .ok text[(text.length + place).toNat]?
  else .error .outOfRange

/-- Looking at the character some steps ahead of the lexer. -/
def peek (lexer : Lexer) (offset : Int) : Except Failure Answer :=
  (charAt lexer.source (lexer.cursor.position.offset + offset)).map fun c =>
    .text (String.ofList c.toList)

/-- Moving one step, which answers the character there, if any. -/
def advance (lexer : Lexer) : Answer × Lexer :=
  let reading := Reading.one lexer.cursor.rest
  (.text (String.ofList reading.text), { lexer with cursor := lexer.cursor.move reading })

/-- Reading a lexeme, which answers its text. -/
def read (lexer : Lexer) (l : Lexeme) : Except Failure Answer × Lexer :=
  let reading := l.read lexer.cursor.rest
  (if reading.complete then .ok (.text (String.ofList (l.text reading.text)))
    else .error (.rejected (lexer.cursor.reject l.fault)),
    { lexer with cursor := lexer.cursor.move reading })

/-- Scanning the rest of the text. The tokens are added to those scanned before,
    and so is a token for the end, once it is reached. -/
def scan (lexer : Lexer) : Except Failure Answer × Lexer :=
  let scan := lexer.cursor.scan
  let tokens := lexer.tokens ++ scan.tokens
  match scan.rejection with
  | some r => (.error (.rejected r), { lexer with cursor := scan.cursor, tokens })
  | none =>
    let tokens := tokens ++ [scan.cursor.eof]
    (.ok (.tokens tokens), { lexer with cursor := scan.cursor, tokens })

/-- Performing an action. -/
def perform (lexer : Lexer) : Action → Except Failure Answer × Lexer
  | .peek offset => (lexer.peek offset, lexer)
  | .advance => (.ok lexer.advance.1, lexer.advance.2)
  | .skipBlanks => (.ok .nothing, { lexer with cursor := lexer.cursor.skipBlanks })
  | .read l => lexer.read l
  | .scan => lexer.scan

end Lexer

end StyleDecl
