import StyleDecl.Rejection
import StyleDecl.Literal.Pieces
import StyleDecl.Text.Trim
import StyleDecl.Unicode.Digit
import StyleDecl.Unicode.Numeric

/-!
# Lexemes

A lexeme is a stretch of text that makes one token. Which lexeme begins at a place
is decided by the character there, and for comments by the next one; where it
ends is decided by reading it.

* `Reading`: what reading a lexeme takes from a text. A reading that meets the end
  of the text in the middle of a pair of characters steps past it;
* `Lexeme.starting`: the lexeme that begins with a character;
* `Lexeme.read`: reading a lexeme.
-/

namespace StyleDecl

/-- What reading took from a text. -/
structure Reading where
  /-- The characters that were taken. -/
  text : List Char
  /-- The characters that are left. -/
  rest : List Char
  /-- The number of steps taken past the end of the text. -/
  beyond : Nat := 0
  /-- Whether what was to be read came to its end. -/
  complete : Bool := true

namespace Reading

/-- A reading that took the character `c` first. -/
def cons (c : Char) (r : Reading) : Reading := { r with text := c :: r.text }

/-- Reading the characters that satisfy `p`. -/
def span (p : Char → Bool) (text : List Char) : Reading :=
  { text := text.takeWhile p, rest := text.dropWhile p }

/-- Reading one character. -/
def one : List Char → Reading
  | [] => { text := [], rest := [], beyond := 1 }
  | c :: rest => { text := [c], rest }

/-- Reading the white space between lexemes: spaces, tabs and line ends. -/
def blanks : List Char → Reading := Reading.span Char.isWhitespace

/-- Whether a character can go on a number. -/
def isNumberPart (c : Char) : Bool := Unicode.isDigit c || c = '.'

/-- Reading a number: digits and dots. -/
def number : List Char → Reading := Reading.span isNumberPart

/-- Whether a character can begin a word. -/
def isWordStart (c : Char) : Bool := Unicode.isLetter c || c = '_' || c = '$'

/-- Whether a character can go on a word. -/
def isWordPart (c : Char) : Bool := Unicode.isAlphanumeric c || c = '_' || c = '$'

/-- Reading a word: a name or a keyword. -/
def word : List Char → Reading := Reading.span isWordPart

/-- Reading up to the closing quote `quote`. The character after a backslash never
    closes the literal, and a line feed closes it only in error. -/
def stringTail (quote : Char) : List Char → Reading
  | [] => { text := [], rest := [], complete := false }
  | c :: rest =>
    -- The quote comes first: even a line feed can be one where reading starts by hand.
    if c = quote then { text := [c], rest }
    else if c = '\n' then { text := [], rest := c :: rest, complete := false }
    else if c = '\\' then
      match rest with
      | [] => { text := [c], rest := [], beyond := 1, complete := false }
      | d :: rest => cons c (cons d (stringTail quote rest))
    else cons c (stringTail quote rest)

/-- Reading a string literal: the character at hand is its quote. The end of the
    text closes a literal that it also opens. -/
def string : List Char → Reading
  | [] => { text := [], rest := [], beyond := 2 }
  | quote :: rest => cons quote (stringTail quote rest)

/-- Reading up to the end of a block comment. -/
def blockTail : List Char → Reading
  | [] => { text := [], rest := [], complete := false }
  | c :: rest =>
    if c = '*' ∧ rest.head? = some '/' then { text := ['*', '/'], rest := rest.tail }
    else cons c (blockTail rest)

/-- Reading a comment. Two slashes begin a comment that goes on to the end of the
    line; any other two characters are taken for the beginning of a block comment. -/
def comment : List Char → Reading
  | [] => { text := [], rest := [], beyond := 2, complete := false }
  | [c] => { text := [c], rest := [], beyond := 1, complete := false }
  | c :: d :: rest =>
    cons c (cons d (if c = '/' ∧ d = '/' then Reading.span (· ≠ '\n') rest else blockTail rest))

end Reading

/-- The text of a comment, given the characters it was read from: blanks at the
    end of a line comment do not belong to it. -/
def commentText (taken : List Char) : List Char :=
  if taken.take 2 = ['/', '/'] then Text.trimEnd taken else taken

/-- The lexemes of declaration texts. -/
inductive Lexeme
  | comment
  | string
  | number
  | word
  | punct (p : Punct)
  deriving DecidableEq

namespace Lexeme

/-- The lexeme that begins with the character `c` when `next` is the character
    after it. A slash at the very end begins a comment. -/
def starting (c : Char) (next : Option Char) : Option Lexeme :=
  if c = '/' ∧ (next = none ∨ next = some '/' ∨ next = some '*') then some comment
  else if Literal.isQuote c then some string
  else if Unicode.isDigit c then some number
  else if Reading.isWordStart c then some word
  else (Punct.ofChar? c).map punct

/-- Reading a lexeme. -/
def read : Lexeme → List Char → Reading
  | comment => Reading.comment
  | string => Reading.string
  | number => Reading.number
  | word => Reading.word
  | punct _ => Reading.one

/-- The kind of token that a lexeme makes, given the characters it was read from. -/
def kind (taken : List Char) : Lexeme → Kind
  | comment => .comment
  | string => .string
  | number => .number
  | word =>
    match Keyword.ofText? (String.ofList taken) with
    | some k => .keyword k
    | none => .identifier
  | punct p => .punct p

/-- The text of the token that a lexeme makes, given the characters it was read
    from. -/
def text (taken : List Char) : Lexeme → List Char
  | comment => commentText taken
  | _ => taken

/-- The fault of a text that ends within a lexeme. -/
def fault : Lexeme → Fault
  | comment => .unterminatedComment
  | _ => .unterminatedString

end Lexeme

/-! ### Readings and the text they are taken from -/

namespace Reading

@[simp] theorem text_cons (c : Char) (r : Reading) : (cons c r).text = c :: r.text := rfl
@[simp] theorem rest_cons (c : Char) (r : Reading) : (cons c r).rest = r.rest := rfl
@[simp] theorem beyond_cons (c : Char) (r : Reading) : (cons c r).beyond = r.beyond := rfl
@[simp] theorem complete_cons (c : Char) (r : Reading) : (cons c r).complete = r.complete := rfl

theorem span_append (p : Char → Bool) (text : List Char) :
    (Reading.span p text).text ++ (Reading.span p text).rest = text :=
  List.takeWhile_append_dropWhile

theorem one_append (text : List Char) : (one text).text ++ (one text).rest = text := by
  cases text <;> rfl

theorem stringTail_append (quote : Char) (text : List Char) :
    (stringTail quote text).text ++ (stringTail quote text).rest = text := by
  fun_induction stringTail quote text <;> simp_all

theorem string_append (text : List Char) : (string text).text ++ (string text).rest = text := by
  cases text with
  | nil => rfl
  | cons c rest => simp [string, stringTail_append]

theorem blockTail_append (text : List Char) :
    (blockTail text).text ++ (blockTail text).rest = text := by
  fun_induction blockTail text with
  | case1 => rfl
  | case2 c rest h =>
    obtain ⟨rfl, h⟩ := h
    cases rest <;> simp_all
  | case3 c rest h ih => simp [ih]

theorem comment_append (text : List Char) : (comment text).text ++ (comment text).rest = text := by
  match text with
  | [] => rfl
  | [c] => rfl
  | c :: d :: rest =>
    simp only [comment]
    split <;> simp [span_append, blockTail_append]

end Reading

namespace Lexeme

/-- Reading loses nothing: what was taken and what is left make up the text. -/
theorem read_append (l : Lexeme) (text : List Char) :
    (l.read text).text ++ (l.read text).rest = text := by
  cases l with
  | comment => exact Reading.comment_append text
  | string => exact Reading.string_append text
  | number => exact Reading.span_append _ text
  | word => exact Reading.span_append _ text
  | punct => exact Reading.one_append text

/-- A character that begins a word also goes on a word. -/
theorem isWordPart_of_isWordStart {c : Char} (h : Reading.isWordStart c) :
    Reading.isWordPart c := by
  simp only [Reading.isWordStart, Reading.isWordPart, Unicode.isAlphanumeric,
    Bool.or_eq_true] at h ⊢
  exact h.imp_left (Or.imp_left .inl)

/-- A lexeme takes the character that it begins with. -/
theorem read_ne_nil {c : Char} {next : Option Char} {l : Lexeme}
    (h : starting c next = some l) (rest : List Char) : (l.read (c :: rest)).text ≠ [] := by
  cases l with
  | comment => cases rest <;> simp [read, Reading.comment]
  | string => simp [read, Reading.string]
  | number =>
    have hc : Reading.isNumberPart c := by
      unfold starting at h
      split at h
      · cases h
      · split at h
        · cases h
        · split at h
          · simp_all [Reading.isNumberPart]
          · split at h
            · cases h
            · simp at h
    simp [read, Reading.number, Reading.span, hc]
  | word =>
    have hc : Reading.isWordStart c := by
      unfold starting at h
      split at h
      · cases h
      · split at h
        · cases h
        · split at h
          · cases h
          · split at h
            · assumption
            · simp at h
    simp [read, Reading.word, Reading.span, isWordPart_of_isWordStart hc]
  | punct => simp [read, Reading.one]

/-- Less text is left after a lexeme than before it. -/
theorem length_rest_lt {c : Char} {next : Option Char} {l : Lexeme}
    (h : starting c next = some l) (rest : List Char) :
    (l.read (c :: rest)).rest.length < (c :: rest).length := by
  have hlen := congrArg List.length (read_append l (c :: rest))
  have hpos := List.length_pos_iff.2 (read_ne_nil h rest)
  rw [List.length_append] at hlen
  omega

end Lexeme

end StyleDecl
