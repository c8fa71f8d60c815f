/-!
# Tokens

A declaration text is a sequence of tokens: names and keywords, string and number
literals, comments and punctuation, closed by a token for the end of the text. A
token remembers where it begins and the last line that it spans.
-/

namespace StyleDecl

/-- The words with a meaning of their own in declarations. -/
inductive Keyword
  | declare
  | exportWord
  | default
  | type
  | interface
  | classWord
  | letWord
  | const
  | var
  | readonly
  deriving DecidableEq

namespace Keyword

/-- All keywords. -/
def all : List Keyword :=
  [declare, exportWord, default, type, interface, classWord, letWord, const, var, readonly]

/-- The spelling of a keyword. -/
def text : Keyword → String
  | declare => "declare"
  | exportWord => "export"
  | default => "default"
  | type => "type"
  | interface => "interface"
  | classWord => "class"
  | letWord => "let"
  | const => "const"
  | var => "var"
  | readonly => "readonly"

/-- The name of a keyword in messages. -/
def name : Keyword → String
  | declare => "DECLARE"
  | exportWord => "EXPORT"
  | default => "DEFAULT"
  | type => "TYPE"
  | interface => "INTERFACE"
  | classWord => "CLASS"
  | letWord => "LET"
  | const => "CONST"
  | var => "VAR"
  | readonly => "READONLY"

/-- The keyword with a given spelling. -/
def ofText? (text : String) : Option Keyword := all.find? fun k => k.text == text

theorem mem_all (k : Keyword) : k ∈ all := by cases k <;> decide

/-- Keywords are told apart by their spellings. -/
theorem ofText?_text (k : Keyword) : ofText? k.text = some k := by cases k <;> rfl

theorem ofText?_eq_some_iff {text : String} {k : Keyword} :
    ofText? text = some k ↔ k.text = text := by
  refine ⟨fun h => by simpa using List.find?_some h, ?_⟩
  rintro rfl
  exact ofText?_text k

theorem ofText?_eq_none_iff {text : String} :
    ofText? text = none ↔ ∀ k : Keyword, k.text ≠ text := by
  simp only [Option.eq_none_iff_forall_ne_some, ne_eq, ofText?_eq_some_iff]

end Keyword

/-- The punctuation of declarations. -/
inductive Punct
  | openBrace
  | closeBrace
  | openParen
  | closeParen
  | openBracket
  | closeBracket
  | semicolon
  | colon
  | comma
  | question
  | equals
  | pipe
  | ampersand
  | dot
  deriving DecidableEq

namespace Punct

/-- All punctuation. -/
def all : List Punct :=
  [openBrace, closeBrace, openParen, closeParen, openBracket, closeBracket, semicolon, colon,
    comma, question, equals, pipe, ampersand, dot]

/-- The character of a punctuation mark. -/
def char : Punct → Char
  | openBrace => '{'
  | closeBrace => '}'
  | openParen => '('
  | closeParen => ')'
  | openBracket => '['
  | closeBracket => ']'
  | semicolon => ';'
  | colon => ':'
  | comma => ','
  | question => '?'
  | equals => '='
  | pipe => '|'
  | ampersand => '&'
  | dot => '.'

/-- The name of a punctuation mark in messages. -/
def name : Punct → String
  | openBrace => "LBRACE"
  | closeBrace => "RBRACE"
  | openParen => "LPAREN"
  | closeParen => "RPAREN"
  | openBracket => "LBRACKET"
  | closeBracket => "RBRACKET"
  | semicolon => "SEMICOLON"
  | colon => "COLON"
  | comma => "COMMA"
  | question => "QUESTION"
  | equals => "EQ"
  | pipe => "PIPE"
  | ampersand => "AMPERSAND"
  | dot => "DOT"

/-- The punctuation mark written as a given character. -/
def ofChar? (c : Char) : Option Punct := all.find? fun p => p.char = c

theorem mem_all (p : Punct) : p ∈ all := by cases p <;> decide

/-- Punctuation marks are told apart by their characters. -/
theorem ofChar?_char (p : Punct) : ofChar? p.char = some p := by cases p <;> rfl

theorem char_of_ofChar? {c : Char} {p : Punct} (h : ofChar? c = some p) : p.char = c := by
  simpa using List.find?_some h

end Punct

/-- What a token is. -/
inductive Kind
  | keyword (k : Keyword)
  | identifier
  | string
  | number
  | comment
  | punct (p : Punct)
  | eof
  deriving DecidableEq

namespace Kind

/-- All kinds of tokens. -/
def all : List Kind :=
  Keyword.all.map keyword ++ [identifier, string, number, comment] ++ Punct.all.map punct ++ [eof]

/-- The name of a kind in messages. -/
def name : Kind → String
  | keyword k => k.name
  | identifier => "IDENTIFIER"
  | string => "STRING_LITERAL"
  | number => "NUMBER"
  | comment => "COMMENT"
  | punct p => p.name
  | eof => "EOF"

/-- The kind with a given name. -/
def ofName? (name : String) : Option Kind := all.find? fun k => k.name == name

theorem mem_all (k : Kind) : k ∈ all := by
  cases k with
  | keyword k => cases k <;> decide
  | punct p => cases p <;> decide
  | _ => decide

/-- Kinds are told apart by their names. -/
theorem ofName?_name (k : Kind) : ofName? k.name = some k := by
  cases k with
  | keyword k => cases k <;> rfl
  | punct p => cases p <;> rfl
  | _ => rfl

/-- The kinds that can name a parameter. -/
def names : List Kind := identifier :: Keyword.all.map keyword

/-- The kinds that can be the key of a member. -/
def keys : List Kind := names ++ [string, number]

end Kind

/-- A token of a declaration text. -/
@[ext]
structure Token where
  /-- What the token is. -/
  kind : Kind
  /-- The token as it is written. -/
  text : String
  /-- The line where it begins. -/
  line : Nat
  /-- The column where it begins. -/
  column : Nat
  /-- The last line that it spans. -/
  endLine : Nat
  deriving DecidableEq

end StyleDecl
