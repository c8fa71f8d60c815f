import Mathlib.Logic.Function.Iterate
import StyleDecl.Decl.Reader.Statements
import StyleDecl.Proofs.Stream

/-!
# The grammar of declarations

What a list of items derives, production by production (`ID` is an identifier,
`NAME` an identifier or a keyword, and `KEY` a name, a string or a number):

* `file = (';' | statement)* EOF`;
* `statement = words 'export' 'default' ID end | words 'type' ID '=' union end |
  words ('interface' | 'class') ID '{' members |
  words ('let' | 'const' | 'var') ID (':' union)? end`;
* `words = ('export' | 'declare')*`;
* `members = (member end)* '}'`;
* `member = '(' parameters ':' union | '[' NAME ':' union ']' ':' union |
  'readonly'? KEY '?'? ':' union | KEY '?'? '(' parameters ':' union`;
* `parameters = (parameter (',' parameter)* ','?)? ')'`, and
  `parameter = NAME '?'? ':' union`;
* `union = '|'? intersection ('|' intersection)*`,
  `intersection = '&'? array ('&' array)*` and `array = primary ('[' ']')*`, where a single
  operand is taken for itself (`Joined`);
* `primary = ID ('.' ID)* | STRING | NUMBER | '{' members | '(' union ')'`.

The `end` of a declaration is `Terminator`. It may be left out, depending on what
stands before and after it.

Comments are not derived from anything. If they are kept (`keep`), those before a
statement or a member, and before what closes a list of these, are derived along
with it; all others are lost, and so are all comments if they are not kept.
-/

namespace StyleDecl.Grammar

/-! ### Symbols -/

/-- The symbols that types and members are derived from. -/
inductive Symbol
  | union
  | intersection
  | array
  | primary
  /-- The operands of a union after its first. -/
  | alternatives
  /-- The operands of an intersection after its first. -/
  | factors
  | parameter
  /-- The parameters of a signature and the parenthesis that closes them. -/
  | parameters
  | member
  /-- The members of a body and the brace that closes it. -/
  | members

/-- What is derived from a symbol. -/
def Symbol.Value : Symbol → Type
  | union | intersection | array | primary => TypeExpr
  | alternatives | factors => List TypeExpr
  | parameter => Parameter
  | parameters => List Parameter
  | member => Member
  | members => List Member

/-! ### Lists of tokens -/

/-- A token of the kind `kind`, or nothing. -/
inductive Maybe (kind : Kind) : List Item → Bool → Prop
  | absent : Maybe kind [] false
  | present {i : Item} : i.token.kind = kind → Maybe kind [i] true

/-- The parts of a dotted name after its first. -/
inductive NameParts : List Item → List String → Prop
  | nil : NameParts [] []
  | cons {d n : Item} {w : List Item} {parts : List String} :
    d.token.kind = .punct .dot → n.token.kind = .identifier → NameParts w parts →
      NameParts (d :: n :: w) (n.token.text :: parts)

/-- Pairs of brackets. -/
inductive Brackets : List Item → Nat → Prop
  | nil : Brackets [] 0
  | cons {b c : Item} {w : List Item} {n : Nat} :
    b.token.kind = .punct .openBracket → c.token.kind = .punct .closeBracket → Brackets w n →
      Brackets (b :: c :: w) (n + 1)

/-- The words before a statement. -/
inductive Words : List Item → List String → Prop
  | nil : Words [] []
  | cons {i : Item} {w : List Item} {words : List String} :
    i.token.kind = .keyword .exportWord ∨ i.token.kind = .keyword .declare → Words w words →
      Words (i :: w) (i.token.text :: words)

/-! ### Comments and ends -/

/-- Whether a token is one of the marks that end a declaration. -/
def EndMark (t : Token) : Prop := t.kind = .punct .semicolon ∨ t.kind = .punct .comma

/-- The end of a declaration between the items `before` and `after`: a mark, or
    nothing before one of the kinds `closers`, at the end of the text and where a
    new line begins. If comments are kept, a mark at hand is never left for what
    comes after: the comments before it are lost with it. -/
inductive Terminator (keep : Bool) (closers : List Kind) (before : List Item) :
    List Item → List Item → Prop
  | mark {i : Item} {after : List Item} :
    EndMark i.token → Terminator keep closers before [i] after
  | closer {n : Item} {after : List Item} :
    n ∈ after.head? → n.token.kind ∈ closers ∨ n.token.kind = .eof →
      Terminator keep closers before [] after
  | lineBreak {l n : Item} {after : List Item} :
    l ∈ before.getLast? → n ∈ after.head? → l.token.endLine < n.token.line →
      (keep → ¬EndMark n.token) → Terminator keep closers before [] after

/-- The comments before an item, as members. -/
def memberNotes (keep : Bool) (i : Item) : List Member :=
  if keep then Reader.commentMembers i.comments else []

/-- The comments before an item, as statements. -/
def statementNotes (keep : Bool) (i : Item) : List Statement :=
  if keep then Reader.commentStatements i.comments i.token else []

/-! ### Types and members -/

/-- What the operands of a union or an intersection make: a single one is taken for itself, and
    several are joined. -/
inductive Joined (join : List TypeExpr → TypeExpr) : List TypeExpr → TypeExpr → Prop
  | single {t : TypeExpr} : Joined join [t] t
  | several {t u : TypeExpr} {ts : List TypeExpr} :
    Joined join (t :: u :: ts) (join (t :: u :: ts))

/-- A list of items derives a type, a member or a list of these. -/
inductive Derives (keep : Bool) : (c : Symbol) → List Item → c.Value → Prop
  | union {l w v : List Item} {lead : Bool} {t u : TypeExpr} {ts : List TypeExpr} :
    Maybe (.punct .pipe) l lead → Derives keep .intersection w t → Derives keep .alternatives v ts →
      Joined .union (t :: ts) u → Derives keep .union (l ++ w ++ v) u
  | noAlternative : Derives keep .alternatives [] []
  | alternative {i : Item} {w v : List Item} {t : TypeExpr} {ts : List TypeExpr} :
    i.token.kind = .punct .pipe → Derives keep .intersection w t → Derives keep .alternatives v ts →
      Derives keep .alternatives (i :: w ++ v) (t :: ts)
  | intersection {l w v : List Item} {lead : Bool} {t u : TypeExpr} {ts : List TypeExpr} :
    Maybe (.punct .ampersand) l lead → Derives keep .array w t → Derives keep .factors v ts →
      Joined .intersection (t :: ts) u → Derives keep .intersection (l ++ w ++ v) u
  | noFactor : Derives keep .factors [] []
  | factor {i : Item} {w v : List Item} {t : TypeExpr} {ts : List TypeExpr} :
    i.token.kind = .punct .ampersand → Derives keep .array w t → Derives keep .factors v ts →
      Derives keep .factors (i :: w ++ v) (t :: ts)
  | array {w v : List Item} {t : TypeExpr} {n : Nat} :
    Derives keep .primary w t → Brackets v n → Derives keep .array (w ++ v) (TypeExpr.array^[n] t)
  | reference {i : Item} {w : List Item} {parts : List String} :
    i.token.kind = .identifier → NameParts w parts →
      Derives keep .primary (i :: w) (.reference (".".intercalate (i.token.text :: parts)))
  | literal {i : Item} :
    i.token.kind = .string ∨ i.token.kind = .number →
      Derives keep .primary [i] (.literal i.token.text)
  | object {i : Item} {w : List Item} {ms : List Member} :
    i.token.kind = .punct .openBrace → Derives keep .members w ms →
      Derives keep .primary (i :: w) (.object ms)
  | parentheses {i j : Item} {w : List Item} {t : TypeExpr} :
    i.token.kind = .punct .openParen → Derives keep .union w t →
      j.token.kind = .punct .closeParen → Derives keep .primary (i :: w ++ [j]) t
  | parameter {n c : Item} {q w : List Item} {optional : Bool} {t : TypeExpr} :
    n.token.kind ∈ Kind.names → Maybe (.punct .question) q optional →
      c.token.kind = .punct .colon → Derives keep .union w t →
      Derives keep .parameter (n :: q ++ c :: w) (.mk n.token.text t optional)
  | noParameter {i : Item} :
    i.token.kind = .punct .closeParen → Derives keep .parameters [i] []
  | lastParameter {i : Item} {w : List Item} {p : Parameter} :
    Derives keep .parameter w p → i.token.kind = .punct .closeParen →
      Derives keep .parameters (w ++ [i]) [p]
  | nextParameter {i : Item} {w v : List Item} {p : Parameter} {ps : List Parameter} :
    Derives keep .parameter w p → i.token.kind = .punct .comma → Derives keep .parameters v ps →
      Derives keep .parameters (w ++ i :: v) (p :: ps)
  | call {i c : Item} {v w : List Item} {ps : List Parameter} {t : TypeExpr} :
    i.token.kind = .punct .openParen → Derives keep .parameters v ps →
      c.token.kind = .punct .colon → Derives keep .union w t →
      Derives keep .member (i :: v ++ c :: w) (.call ps t)
  | index {i n c j d : Item} {v w : List Item} {k t : TypeExpr} :
    i.token.kind = .punct .openBracket → n.token.kind ∈ Kind.names →
      c.token.kind = .punct .colon → Derives keep .union v k →
      j.token.kind = .punct .closeBracket → d.token.kind = .punct .colon →
      Derives keep .union w t →
      Derives keep .member (i :: n :: c :: v ++ j :: d :: w) (.index (.mk n.token.text k false) t)
  | property {k c : Item} {r q w : List Item} {readonly optional : Bool} {t : TypeExpr} :
    Maybe (.keyword .readonly) r readonly → k.token.kind ∈ Kind.keys →
      Maybe (.punct .question) q optional → c.token.kind = .punct .colon →
      Derives keep .union w t →
      Derives keep .member (r ++ k :: q ++ c :: w) (.property k.token.text t readonly optional)
  | method {k i c : Item} {q v w : List Item} {optional : Bool} {ps : List Parameter}
      {t : TypeExpr} :
    k.token.kind ∈ Kind.keys → Maybe (.punct .question) q optional →
      i.token.kind = .punct .openParen → Derives keep .parameters v ps →
      c.token.kind = .punct .colon → Derives keep .union w t →
      Derives keep .member (k :: q ++ i :: v ++ c :: w) (.method k.token.text ps t optional)
  | noMember {i : Item} :
    i.token.kind = .punct .closeBrace → Derives keep .members [i] (memberNotes keep i)
  | nextMember {i : Item} {w e v : List Item} {m : Member} {ms : List Member} :
    Derives keep .member (i.bare :: w) m →
      Terminator keep [.punct .closeBrace] (i.bare :: w) e v → Derives keep .members v ms →
      Derives keep .members (i :: w ++ e ++ v) (memberNotes keep i ++ m :: ms)

/-! ### Statements and files -/

/-- A list of items that stands before the items `after` derives a statement. -/
inductive DerivesStatement (keep : Bool) (after : List Item) : List Item → Statement → Prop
  | exportDefault {i d n : Item} {v e : List Item} {words : List String} :
    Words v words → i.token.kind = .keyword .exportWord → d.token.kind = .keyword .default →
      n.token.kind = .identifier → Terminator keep [] [n] e after →
      DerivesStatement keep after (v ++ i :: d :: n :: e) (.exportDefault n.token.text)
  | typeAlias {i n q : Item} {v w e : List Item} {words : List String} {t : TypeExpr} :
    Words v words → i.token.kind = .keyword .type → n.token.kind = .identifier →
      q.token.kind = .punct .equals → Derives keep .union w t → Terminator keep [] w e after →
      DerivesStatement keep after (v ++ i :: n :: q :: w ++ e) (.typeAlias n.token.text t words)
  | interfaceDecl {i n b : Item} {v w : List Item} {words : List String} {ms : List Member} :
    Words v words → i.token.kind = .keyword .interface → n.token.kind = .identifier →
      b.token.kind = .punct .openBrace → Derives keep .members w ms →
      DerivesStatement keep after (v ++ i :: n :: b :: w) (.interfaceDecl n.token.text ms words)
  | classDecl {i n b : Item} {v w : List Item} {words : List String} {ms : List Member} :
    Words v words → i.token.kind = .keyword .classWord → n.token.kind = .identifier →
      b.token.kind = .punct .openBrace → Derives keep .members w ms →
      DerivesStatement keep after (v ++ i :: n :: b :: w) (.classDecl n.token.text ms words)
  | untyped {i n : Item} {v e : List Item} {words : List String} :
    Words v words →
      i.token.kind ∈ [Kind.keyword .letWord, .keyword .const, .keyword .var] →
      n.token.kind = .identifier → Terminator keep [] [n] e after →
      DerivesStatement keep after (v ++ i :: n :: e)
        (.variableDecl i.token.text n.token.text none words)
  | typed {i n c : Item} {v w e : List Item} {words : List String} {t : TypeExpr} :
    Words v words →
      i.token.kind ∈ [Kind.keyword .letWord, .keyword .const, .keyword .var] →
      n.token.kind = .identifier → c.token.kind = .punct .colon → Derives keep .union w t →
      Terminator keep [] w e after →
      DerivesStatement keep after (v ++ i :: n :: c :: w ++ e)
        (.variableDecl i.token.text n.token.text (some t) words)

/-- A list of items derives the statements of a file. -/
inductive DerivesFile (keep : Bool) : List Item → List Statement → Prop
  | done {i : Item} : i.token.kind = .eof → DerivesFile keep [i] (statementNotes keep i)
  | empty {i : Item} {v : List Item} {ss : List Statement} :
    i.token.kind = .punct .semicolon → DerivesFile keep v ss →
      DerivesFile keep (i :: v) (statementNotes keep i ++ ss)
  | statement {i : Item} {w v : List Item} {s : Statement} {ss : List Statement} :
    DerivesStatement keep v (i.bare :: w) s → DerivesFile keep v ss →
      DerivesFile keep (i :: w ++ v) (statementNotes keep i ++ s :: ss)

/-! ### Operands -/

section

variable {join : List TypeExpr → TypeExpr} {t u : TypeExpr} {ts : List TypeExpr}

/-- A reader of types joins operands as the grammar does. -/
theorem joined_iff : Joined join (t :: ts) u ↔ u = Reader.combined join (t :: ts) := by
  constructor
  · rintro (- | -) <;> rfl
  · rintro rfl
    cases ts with
    | nil => exact .single
    | cons u ts => exact .several

theorem joined_combined : Joined join (t :: ts) (Reader.combined join (t :: ts)) := joined_iff.2 rfl

end

end StyleDecl.Grammar
