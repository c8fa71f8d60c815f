import StyleDecl.Token.Lexeme
import StyleDecl.Text.Position

/-!
# Cursors

A cursor stands at a place of a text: it holds the rest of the text and the
position reached. Scanning moves it over white space and lexemes to the end of the
text, or up to the first place where no lexeme can be read.

* `Cursor.step`: the next token, the end or a rejection;
* `Cursor.scan`: all tokens up to the end or the first rejection;
* `Token.scan`: the tokens of a text.
-/

namespace StyleDecl

/-- A place of a text together with what follows it. -/
structure Cursor where
  /-- The characters that follow. -/
  rest : List Char
  /-- The place. -/
  position : Position
  deriving DecidableEq

namespace Cursor

/-- The beginning of a text. -/
def start (source : String) : Cursor := ⟨source.toList, .start⟩

/-- The place that a reading leads to. -/
def move (cur : Cursor) (r : Reading) : Cursor :=
  ⟨r.rest, (cur.position.after r.text).beyond r.beyond⟩

/-- The place after the white space at the cursor. -/
def skipBlanks (cur : Cursor) : Cursor := cur.move (Reading.blanks cur.rest)

/-- The rejection of a text at the cursor. -/
def reject (cur : Cursor) (fault : Fault) : Rejection :=
  ⟨fault, cur.position.line, cur.position.column⟩

/-- The token that closes the text at the cursor. -/
def eof (cur : Cursor) : Token :=
  ⟨.eof, "", cur.position.line, cur.position.column, cur.position.line⟩

/-- The token of a lexeme read at the cursor. Only a comment is said to span the
    lines that its text covers. -/
def token (cur : Cursor) (l : Lexeme) (taken : List Char) : Token where
  kind := l.kind taken
  text := String.ofList (l.text taken)
  line := cur.position.line
  column := cur.position.column
  endLine := if l = .comment then (cur.position.after taken).line else cur.position.line

/-- What is found at a cursor. -/
inductive Step
  /-- The end of the text. -/
  | finished (cur : Cursor)
  /-- A token, and the place after it. -/
  | token (t : Token) (cur : Cursor)
  /-- No token, and the place where reading gave up. -/
  | rejected (r : Rejection) (cur : Cursor)

/-- Reading a lexeme at the cursor. -/
def take (cur : Cursor) (l : Lexeme) : Step :=
  let reading := l.read cur.rest
  if reading.complete then .token (cur.token l reading.text) (cur.move reading)
  else .rejected (cur.reject l.fault) (cur.move reading)

/-- What is found right at the cursor. -/
def stepHere (cur : Cursor) : Step :=
  match cur.rest with
  | [] => .finished cur
  | c :: rest =>
    match Lexeme.starting c rest.head? with
    | none => .rejected (cur.reject (.unexpectedCharacter c)) cur
    | some l => cur.take l

/-- What is found at the cursor after white space. -/
def step (cur : Cursor) : Step := cur.skipBlanks.stepHere

/-- White space takes nothing but characters away. -/
theorem length_rest_skipBlanks_le (cur : Cursor) :
    cur.skipBlanks.rest.length ≤ cur.rest.length := by
  have h := congrArg List.length (Reading.span_append Char.isWhitespace cur.rest)
  rw [List.length_append] at h
  change (Reading.span Char.isWhitespace cur.rest).rest.length ≤ _
  omega

/-- Less text is left after a token than before it. -/
theorem length_rest_lt_of_step {cur next : Cursor} {t : Token} (h : cur.step = .token t next) :
    next.rest.length < cur.rest.length := by
  refine Nat.lt_of_lt_of_le ?_ cur.length_rest_skipBlanks_le
  rw [step, stepHere] at h
  split at h
  · cases h
  · next c rest hrest =>
    split at h
    · cases h
    · next l hl =>
      rw [take] at h
      split at h
      · cases h
        rw [move, hrest]
        exact Lexeme.length_rest_lt hl rest
      · cases h

/-- What scanning came to: the tokens up to the end of the text or up to the place
    of a rejection. -/
structure Scan where
  /-- The tokens that were read. -/
  tokens : List Token
  /-- The rejection that stopped the scan, if any. -/
  rejection : Option Rejection
  /-- The place where the scan ended. -/
  cursor : Cursor

/-- Scanning from the cursor on. -/
def scan (cur : Cursor) : Scan :=
  match _h : cur.step with
  | .finished cur => ⟨[], none, cur⟩
  | .rejected r cur => ⟨[], some r, cur⟩
  | .token t cur => let s := scan cur; { s with tokens := t :: s.tokens }
termination_by cur.rest.length
decreasing_by exact length_rest_lt_of_step _h

theorem scan_of_finished {cur next : Cursor} (h : cur.step = .finished next) :
    cur.scan = ⟨[], none, next⟩ := by
  rw [scan]
  split <;> simp_all

theorem scan_of_rejected {cur next : Cursor} {r : Rejection} (h : cur.step = .rejected r next) :
    cur.scan = ⟨[], some r, next⟩ := by
  rw [scan]
  split <;> simp_all

theorem scan_of_token {cur next : Cursor} {t : Token} (h : cur.step = .token t next) :
    cur.scan = { next.scan with tokens := t :: next.scan.tokens } := by
  rw [scan]
  split <;> simp_all

end Cursor

/-- The tokens of a text, closed by the token for its end. -/
def Token.scan (source : String) : Except Rejection (List Token) :=
  let scan := (Cursor.start source).scan
  match scan.rejection with
  | some r => .error r
  | none => .ok (scan.tokens ++ [scan.cursor.eof])

end StyleDecl
